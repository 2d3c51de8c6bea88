import FormalGrammar.Proofs.Lines

/-!
# Documents made of documents

Two documents one behind the other are a document, in which the second updates the first; a document
between an opening and a closing line is the content of that namespace. Both are about a cursor that
stands elsewhere than at the beginning of an empty document. The first text leaves it at the end of
entries, and the second text then updates the outermost entries only (`Cursor.Above`); the opening
line leaves it inside a namespace, and what is around that namespace is not touched
(`Cursor.inside`). Each of the two is kept by a step and therefore by all lines
(`Cursor.after?_simulated`).

Main statement: `Document.composed`.
-/

namespace FormalGrammar

open Text

/-! ## Updates -/

/-- `h` is what `e` becomes when it is updated by `f`: the keys of `e` keep their places, those that
only `f` has follow in their order, and each key of `f` has the whole entry that it has there. -/
structure Entries.IsUpdate (e f h : Entries) : Prop where
  keys_eq : h.keys = e.keys ++ f.keys.filter fun key => key ∉ e.keys
  find?_eq : ∀ key, h.find? key = (f.find? key).or (e.find? key)

namespace Entries

variable {e f h : Entries}

theorem isUpdate_nil (e : Entries) : e.IsUpdate nil e where
  keys_eq := by simp
  find?_eq _ := rfl

/-- To put an entry into the updating entries is to put it into the updated ones. -/
theorem IsUpdate.put (hu : e.IsUpdate f h) (key : Text) (entry : Entry) :
    e.IsUpdate (f.put key entry) (h.put key entry) where
  keys_eq := by
    rw [keys_put, keys_put, hu.keys_eq]
    by_cases hf : key ∈ f.keys
    · have hm : key ∈ e.keys ++ f.keys.filter fun key => key ∉ e.keys := by
        by_cases he : key ∈ e.keys
        · exact List.mem_append_left _ he
        · exact List.mem_append_right _ (List.mem_filter.mpr ⟨hf, by simpa using he⟩)
      rw [if_pos hm, if_pos hf]
    · by_cases he : key ∈ e.keys
      · simp [hf, he]
      · simp [hf, he]
  find?_eq k := by
    rw [find?_put, find?_put, hu.find?_eq]
    split <;> rfl

end Entries

namespace Document

variable {c c' d : Cursor} {l : Line} {line : Text} {e : Entries}

/-! ## Simulations -/

/-- **What is kept by steps is kept by lines:** if a cursor can do each step that a related one does,
and they stay related, then so it is with lines. -/
theorem Cursor.after?_simulated {R : Cursor → Cursor → Prop}
    (step : ∀ {c c' d l}, R c d → c.step l = .ok c' → ∃ d', d.step l = .ok d' ∧ R c' d')
    {ls : List Text} (hr : R c d) (hs : c.after? ls = some c') :
    ∃ d', d.after? ls = some d' ∧ R c' d' := by
  induction ls generalizing c d with
  | nil =>
    cases hs
    exact ⟨d, rfl, hr⟩
  | cons line ls ih =>
    rw [Cursor.after?] at hs
    cases hl : classify line with
    | error f => simp [Cursor.readLine, hl] at hs
    | ok l =>
      cases hstep : c.step l with
      | error f => simp [Cursor.readLine, hl, hstep] at hs
      | ok c₁ =>
        simp only [Cursor.readLine, hl, hstep] at hs
        obtain ⟨d₁, hd, hr₁⟩ := step hr hstep
        have hline : d.readLine line = .ok d₁ := by simp only [Cursor.readLine, hl, hd]
        rw [Cursor.after?_cons hline]
        exact ih hr₁ hs

/-! ## Behind other entries -/

/-- The second cursor differs from the first in its outermost entries, which are `e` updated by those
of the first. Around an open namespace it stands as a cursor on what is around it. -/
inductive Cursor.Above (e : Entries) : Cursor → Cursor → Prop
  | root {f h : Entries} : e.IsUpdate f h → Above e ⟨f, []⟩ ⟨h, []⟩
  | inner {c d : Cursor} (f : Entries) (name : Text) : Above e c d →
      Above e ⟨f, (name, c.entries) :: c.outer⟩ ⟨f, (name, d.entries) :: d.outer⟩

theorem Cursor.Above.put (h : Cursor.Above e c d) (key : Text) (entry : Entry) :
    Cursor.Above e ⟨c.entries.put key entry, c.outer⟩ ⟨d.entries.put key entry, d.outer⟩ := by
  cases h with
  | root hu => exact .root (hu.put key entry)
  | inner f name h => exact .inner (f.put key entry) name h

theorem Cursor.Above.step (h : Cursor.Above e c d) (hs : c.step l = .ok c') :
    ∃ d', d.step l = .ok d' ∧ Cursor.Above e c' d' := by
  cases l with
  | opening name =>
    cases hs
    exact ⟨_, rfl, .inner .nil name h⟩
  | closing =>
    cases h with
    | root hu => cases hs
    | inner f name h =>
      cases hs
      exact ⟨_, rfl, h.put name (.space (some name) f)⟩
  | pair key text =>
    rw [Cursor.step] at hs
    cases hv : readValues text with
    | error fault => simp [hv] at hs
    | ok vs =>
      simp only [hv, Except.ok.injEq] at hs
      subst hs
      exact ⟨_, by simp only [Cursor.step, hv], h.put key (.values vs)⟩

/-! ## Inside a namespace -/

/-- The cursor with further namespaces open around it. -/
def Cursor.inside (below : List (Text × Entries)) (c : Cursor) : Cursor :=
  ⟨c.entries, c.outer ++ below⟩

theorem Cursor.inside_step {below : List (Text × Entries)} (hs : c.step l = .ok c') :
    (c.inside below).step l = .ok (c'.inside below) := by
  cases l with
  | opening name =>
    cases hs
    rfl
  | closing =>
    obtain ⟨f, outer⟩ := c
    cases outer with
    | nil => cases hs
    | cons p outer =>
      cases hs
      rfl
  | pair key text =>
    rw [Cursor.step] at hs
    cases hv : readValues text with
    | error fault => simp [hv] at hs
    | ok vs =>
      simp only [hv, Except.ok.injEq] at hs
      subst hs
      simp only [Cursor.step, Cursor.inside, hv]

/-! ## Texts -/

theorem content_splitOn_append (t t' : Text) :
    content (splitOn '\n' (t ++ '\n' :: t')) =
      content (splitOn '\n' t) ++ content (splitOn '\n' t') := by
  rw [splitOn_append_cons, content_append]

/-- A line without a line feed that stands for itself is what is read of it. -/
theorem content_splitOn_line (hne : line ≠ []) (ht : trim line = line) (hn : '\n' ∉ line) :
    content (splitOn '\n' line) = [line] := by
  rw [splitOn_of_notMem hn, content_cons (ht.symm ▸ hne), ht]
  rfl

theorem readEntries_append {t t' : Text} {f : Entries} (ht : readEntries t = .ok e)
    (ht' : readEntries t' = .ok f) :
    ∃ h, readEntries (t ++ '\n' :: t') = .ok h ∧ e.IsUpdate f h := by
  rw [readEntries_eq_ok_iff] at ht ht'
  have hempty : Cursor.Above e {} ⟨e, []⟩ := .root e.isUpdate_nil
  obtain ⟨d, hd, habove⟩ := Cursor.after?_simulated Cursor.Above.step hempty ht'
  cases habove with
  | @root _ h hu =>
    refine ⟨h, ?_, hu⟩
    rw [readEntries_eq_ok_iff, content_splitOn_append, Cursor.after?_append, ht]
    exact hd

theorem readEntries_nested {t key : Text} (ht : readEntries t = .ok e) (hkey : IsToken key) :
    readEntries ('>' :: '>' :: key ++ '\n' :: (t ++ '\n' :: ['<', '<'])) =
      .ok (.space key (some key) e .nil) := by
  rw [readEntries_eq_ok_iff] at ht ⊢
  have hopening : content (splitOn '\n' ('>' :: '>' :: key)) = ['>' :: '>' :: key] := by
    refine content_splitOn_line (List.cons_ne_nil _ _) ?_ ?_
    · exact trim_openingLine hkey 0
    · simp [hkey.notMem_newline]
  have hclosing : content (splitOn '\n' ['<', '<']) = [['<', '<']] := by decide
  have hopen : Cursor.readLine {} ('>' :: '>' :: key) = .ok (Cursor.inside [(key, .nil)] {}) := by
    rw [Cursor.readLine, classify_opening hkey]
    rfl
  -- The text is read inside the namespace as it is read on its own.
  obtain ⟨d, hd, rfl⟩ := Cursor.after?_simulated
    (R := fun c d => d = c.inside [(key, .nil)])
    (fun hr hs => ⟨_, hr ▸ Cursor.inside_step hs, rfl⟩) rfl ht
  rw [content_splitOn_append, content_splitOn_append, hopening, hclosing, List.singleton_append,
    Cursor.after?_cons hopen, Cursor.after?_append, hd]
  rfl

/-- **Documents are composed of documents.** Two texts that are documents make one document with a
line feed between them: its entries are those of the first updated by those of the second, where a
namespace is replaced as a whole. And a text that is a document, between an opening line with a key
that stands for itself and a closing line, is the content of that namespace. -/
theorem composed {t t' : Text} {d d' : Document} {name₀ name₁ : Option Text}
    (ht : ofText t name₀ = .ok d) (ht' : ofText t' name₁ = .ok d') (name : Option Text) :
    (∃ d₂, ofText (t ++ '\n' :: t') name = .ok d₂ ∧ d₂.name = name ∧
      d.entries.IsUpdate d'.entries d₂.entries) ∧
    ∀ key, key ≠ [] → trim key = key → '\n' ∉ key →
      ofText ('>' :: '>' :: key ++ '\n' :: (t ++ '\n' :: ['<', '<'])) name =
        .ok ⟨name, .space key (some key) d.entries .nil⟩ := by
  rw [ofText_eq_ok_iff] at ht ht'
  constructor
  · obtain ⟨h, hread, hu⟩ := readEntries_append ht.1 ht'.1
    exact ⟨⟨name, h⟩, ofText_eq_ok_iff.mpr ⟨hread, rfl⟩, rfl, hu⟩
  · intro key hne htrim hn
    exact ofText_eq_ok_iff.mpr ⟨readEntries_nested ht.1 ⟨hne, htrim, hn⟩, rfl⟩

/-- The namespace `s` of the first text is replaced and keeps its place, and so is the value of `a`;
both texts have it, and it is not the first key of the second. -/
theorem composed_repeatedKeys :
    (∃ d, ofText "a=1&I\n>>s\nx=u\n<<\nb=2\n>>s\ny=v;w\n<<\nc=3\na=;t".toList none = .ok d ∧
      d.entries.keys = ["a".toList, "s".toList, "b".toList, "c".toList] ∧
      d.entries.find? "a".toList = some (.values [.none, .text "t".toList]) ∧
      d.entries.find? "s".toList = some (.space (some "s".toList)
        (.values "y".toList [.text "v".toList, .text "w".toList] .nil))) ∧
    ∃ e, ofText ">>> =\na=1&I\n>>s\nx=u\n<<\nb=2\n<<".toList none =
        .ok ⟨none, .space "> =".toList (some "> =".toList) e .nil⟩ ∧
      e.keys = ["a".toList, "s".toList, "b".toList] := by
  have hfirst : ofText "a=1&I\n>>s\nx=u\n<<\nb=2".toList none = .ok ⟨none,
      .values "a".toList [.int 1] <|
      .space "s".toList (some "s".toList) (.values "x".toList [.text "u".toList] .nil) <|
      .values "b".toList [.text "2".toList] .nil⟩ := rfl
  have hsecond : ofText ">>s\ny=v;w\n<<\nc=3\na=;t".toList none = .ok ⟨none,
      .space "s".toList (some "s".toList)
        (.values "y".toList [.text "v".toList, .text "w".toList] .nil) <|
      .values "c".toList [.text "3".toList] <|
      .values "a".toList [.none, .text "t".toList] .nil⟩ := rfl
  obtain ⟨⟨d, hd, -, hu⟩, hnested⟩ := composed hfirst hsecond none
  refine ⟨⟨d, hd, ?_, ?_, ?_⟩, _, hnested "> =".toList (by decide) (by decide) (by decide), rfl⟩
  · rw [hu.keys_eq]
    decide
  · rw [hu.find?_eq]
    rfl
  · rw [hu.find?_eq]
    rfl

end Document

end FormalGrammar
