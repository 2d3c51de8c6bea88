import FormalGrammar.Proofs.Lines
import FormalGrammar.Proofs.Units

/-!
# The texts that are documents

A text is read as a document if each of its lines may stand where it stands and no namespace is left
open. What a line may be depends on the lines before it in one respect only, the number of open
namespaces (`StandsAt`), and that is the number of opening lines less that of closing lines. A text
that is no document is refused for its first line that may not stand there, or else for the
innermost namespace that is open at the end (`decode_outcome`).

While lines are read the cursor has a stack of open namespaces. It is the stack of those opening
lines that are followed by balanced lines only (`Pending`), which gives both the number of open
namespaces and the name of the innermost.
-/

namespace FormalGrammar.Document

open Text

/-! ## Values -/

/-- A value can be read in the format with the given letter. -/
inductive Fits (value : Text) : Text → Prop
  | bool : value = "true".toList ∨ value = "false".toList ∨
      (Numeral.Integer.read? value).isSome → Fits value ['B']
  | int : (Numeral.Integer.read? value).isSome → Fits value ['I']
  | real : (Numeral.Real.read? value).isSome → Fits value ['F']
  | text : Fits value ['S']

/-- A trimmed piece has no format, or one that follows a value that fits it. -/
inductive IsAcceptable (piece : Text) : Prop
  | bare : ['&'] ∉ units piece → IsAcceptable piece
  | marked (before after : List Text) : units piece = before ++ ['&'] :: after → ['&'] ∉ after →
      before ≠ [] → Fits (plain before) after.flatten → IsAcceptable piece

/-- Each piece of a text of values is acceptable. -/
def AreAcceptable (values : Text) : Prop :=
  ∀ piece ∈ (units values).splitOn [';'], IsAcceptable (trim piece.flatten)

/-! ## Lines -/

/-- A trimmed line may stand where `depth` namespaces are open. -/
inductive StandsAt (depth : Nat) : Text → Prop
  | opening {name : Text} : trim name ≠ [] → StandsAt depth ('>' :: '>' :: name)
  | closing {rest : Text} : 0 < depth → StandsAt depth ('<' :: '<' :: rest)
  | pair {key values : Text} : startsWith ['>', '>'] (key ++ '=' :: values) = false →
      startsWith ['<', '<'] (key ++ '=' :: values) = false → '=' ∉ key → trim key ≠ [] →
      AreAcceptable values → StandsAt depth (key ++ '=' :: values)

def isOpening (line : Text) : Bool := startsWith ['>', '>'] (trim line)
def isClosing (line : Text) : Bool := startsWith ['<', '<'] (trim line)

/-- The name after the mark of an opening line. -/
def openedName (line : Text) : Text := trim ((trim line).drop 2)

/-- A line is blank, or may stand where the lines before it leave off. -/
def IsAllowed (before : List Text) (line : Text) : Prop :=
  trim line = [] ∨ StandsAt (before.countP isOpening - before.countP isClosing) (trim line)

/-- Every line is allowed behind those before it. -/
def AllAllowed (ls : List Text) : Prop :=
  ∀ before line, before ++ [line] <+: ls → IsAllowed before line

/-- Lines that close what they open and nothing else. -/
inductive Balanced : List Text → Prop
  | nil : Balanced []
  | other {ls : List Text} {line : Text} : Balanced ls → isOpening line = false →
      isClosing line = false → Balanced (ls ++ [line])
  | wrap {ls inner : List Text} {first last : Text} : Balanced ls → isOpening first = true →
      Balanced inner → isClosing last = true → Balanced (ls ++ first :: (inner ++ [last]))

/-- What namespaces are open behind lines, from the inside out. -/
inductive Pending : List Text → List Text → Prop
  | nil {ls : List Text} : Balanced ls → Pending ls []
  | cons {before after names : List Text} {line : Text} : Pending before names →
      isOpening line = true → Balanced after →
      Pending (before ++ line :: after) (openedName line :: names)

/-! ## Reading values -/

theorem exists_readInt_iff {value : Text} :
    (∃ v, readInt value = .ok v) ↔ (Numeral.Integer.read? value).isSome := by
  unfold readInt
  cases Numeral.Integer.read? value <;> simp

theorem exists_readReal_iff {value : Text} :
    (∃ v, readReal value = .ok v) ↔ (Numeral.Real.read? value).isSome := by
  unfold readReal
  cases Numeral.Real.read? value <;> simp

theorem exists_readBool_iff {value : Text} :
    (∃ v, readBool value = .ok v) ↔ value = "true".toList ∨ value = "false".toList ∨
      (Numeral.Integer.read? value).isSome := by
  unfold readBool
  split
  · next h => simp [h]
  · next ht =>
    split
    · next h => simp [h]
    · next hf =>
      rw [or_iff_right ht, or_iff_right hf]
      cases Numeral.Integer.read? value <;> simp

/-- A formatted value is read if there is one and it fits its format. -/
theorem exists_readFormatted_iff {value format : Text} :
    (∃ v, readFormatted value format = .ok v) ↔ value ≠ [] ∧ Fits value format := by
  constructor
  · rintro ⟨v, h⟩
    unfold readFormatted at h
    split at h
    · cases h
    · next hne =>
      refine ⟨by simpa using hne, ?_⟩
      split at h
      · cases h
      · exact .bool (exists_readBool_iff.mp ⟨v, h⟩)
      · exact .int (exists_readInt_iff.mp ⟨v, h⟩)
      · exact .real (exists_readReal_iff.mp ⟨v, h⟩)
      · exact .text
      · cases h
  · rintro ⟨hne, hfits⟩
    have hfull : ¬ value.isEmpty = true := by simpa using hne
    unfold readFormatted
    rw [if_neg hfull]
    cases hfits with
    | bool h => exact exists_readBool_iff.mpr h
    | int h => exact exists_readInt_iff.mpr h
    | real h => exact exists_readReal_iff.mpr h
    | text => exact ⟨_, rfl⟩

/-- A member of a list stands somewhere for the last time. -/
theorem exists_last_of_mem {α : Type} {a : α} {us : List α} (h : a ∈ us) :
    ∃ before after, us = before ++ a :: after ∧ a ∉ after := by
  obtain ⟨xs, ys, he, hn⟩ := List.eq_append_cons_of_mem (List.mem_reverse.mpr h)
  refine ⟨ys.reverse, xs.reverse, ?_, by simpa using hn⟩
  rw [← List.reverse_reverse us, he]
  simp

/-- **A piece is read if it is acceptable**, and only then. -/
theorem exists_readScalar_iff {piece : Text} :
    (∃ v, readScalar piece = .ok v) ↔ IsAcceptable piece := by
  -- what a piece with a format is read as
  have hmarked : ∀ {before after : List Text}, units piece = before ++ ['&'] :: after →
      ['&'] ∉ after →
      ((∃ v, readScalar piece = .ok v) ↔ before ≠ [] ∧ Fits (plain before) after.flatten) := by
    intro before after hu hl
    have hb : before <+: units piece := hu ▸ List.prefix_append before _
    rw [readScalar, splitFormat_of_units hu hl]
    simp only [unescape_eq, units_flatten hb]
    rw [exists_readFormatted_iff, Ne,
      plain_eq_nil_iff fun u hm => ne_nil_of_mem_units (hb.subset hm)]
  constructor
  · intro h
    by_cases hm : ['&'] ∈ units piece
    · obtain ⟨before, after, hu, hl⟩ := exists_last_of_mem hm
      obtain ⟨hne, hfits⟩ := (hmarked hu hl).mp h
      exact .marked before after hu hl hne hfits
    · exact .bare hm
  · intro h
    cases h with
    | bare hm => exact ⟨_, by rw [readScalar, splitFormat_of_notMem hm]⟩
    | marked before after hu hl hne hfits => exact (hmarked hu hl).mpr ⟨hne, hfits⟩

theorem exists_readScalars_iff {ps : List Text} :
    (∃ vs, readScalars ps = .ok vs) ↔ ∀ p ∈ ps, ∃ v, readScalar (trim p) = .ok v := by
  induction ps with
  | nil => simp [readScalars]
  | cons p ps ih =>
    rw [List.forall_mem_cons, ← ih, readScalars]
    cases readScalar (trim p) with
    | error f => simp
    | ok v =>
      cases readScalars ps with
      | error f => simp
      | ok vs => simp

theorem exists_readValues_iff {values : Text} :
    (∃ vs, readValues values = .ok vs) ↔ AreAcceptable values := by
  rw [readValues, exists_readScalars_iff, pieces_eq]
  simp only [List.mem_map, forall_exists_index, and_imp, forall_apply_eq_imp_iff₂,
    exists_readScalar_iff, AreAcceptable]

/-! ## Reading a line -/

/-- The names of the open namespaces, from the inside out. -/
def Cursor.names (c : Cursor) : List Text := c.outer.map Prod.fst

variable {c c' : Cursor} {line : Text} {l : Line}

theorem readLine_eq_ok_iff :
    c.readLine line = .ok c' ↔ ∃ l, Classifies line l ∧ c.step l = .ok c' := by
  constructor
  · intro h
    unfold Cursor.readLine at h
    split at h
    · cases h
    · next l hl => exact ⟨l, classifies_of_classify hl, h⟩
  · rintro ⟨l, hl, hs⟩
    rw [Cursor.readLine, hl.classify_eq]
    exact hs

theorem exists_closing_iff : (∃ c', c.step .closing = .ok c') ↔ 0 < c.names.length := by
  obtain ⟨entries, outer⟩ := c
  cases outer with
  | nil => simp [Cursor.step, Cursor.names]
  | cons p outer => simp [Cursor.step, Cursor.names]

theorem exists_pair_iff {key values : Text} :
    (∃ c', c.step (.pair key (trim values)) = .ok c') ↔ AreAcceptable values := by
  rw [← exists_readValues_iff, ← readValues_trim, Cursor.step]
  cases readValues (trim values) <;> simp

/-- **A line can be read where it may stand.** -/
theorem exists_readLine_iff :
    (∃ c', c.readLine line = .ok c') ↔ StandsAt c.names.length line := by
  simp only [readLine_eq_ok_iff]
  constructor
  · rintro ⟨c', l, hl, hs⟩
    cases hl with
    | opening hne => exact .opening hne
    | closing => exact .closing (exists_closing_iff.mp ⟨c', hs⟩)
    | pair ho hc hkey hne => exact .pair ho hc hkey hne (exists_pair_iff.mp ⟨c', hs⟩)
  · intro h
    cases h with
    | opening hne => exact ⟨_, _, .opening hne, rfl⟩
    | closing hlt =>
      obtain ⟨c', hs⟩ := exists_closing_iff.mpr hlt
      exact ⟨c', _, .closing, hs⟩
    | pair ho hc hkey hne hvs =>
      obtain ⟨c', hs⟩ := exists_pair_iff.mpr hvs
      exact ⟨c', _, .pair ho hc hkey hne, hs⟩

/-! ## Open namespaces -/

theorem isClosing_of_isOpening {line : Text} (h : isOpening line = true) :
    isClosing line = false := by
  obtain ⟨rest, ht⟩ := exists_of_startsWith h
  rw [isClosing, ht]
  rfl

theorem isOpening_of_isClosing {line : Text} (h : isClosing line = true) :
    isOpening line = false := by
  obtain ⟨rest, ht⟩ := exists_of_startsWith h
  rw [isOpening, ht]
  rfl

theorem Balanced.count_eq {ls : List Text} (h : Balanced ls) :
    ls.countP isOpening = ls.countP isClosing := by
  induction h with
  | nil => rfl
  | other _ ho hc ih => simp [ih, ho, hc]
  | wrap _ ho _ hc ih ih' =>
    simp [ih, ih', ho, hc, isClosing_of_isOpening ho, isOpening_of_isClosing hc]

/-- What is open has been opened and not been closed. -/
theorem Pending.count_eq {ls names : List Text} (h : Pending ls names) :
    ls.countP isOpening = ls.countP isClosing + names.length := by
  induction h with
  | nil hb => rw [hb.count_eq]; rfl
  | cons _ ho hb ih =>
    simp [ih, ho, isClosing_of_isOpening ho, hb.count_eq]
    omega

/-- A line that neither opens nor closes leaves the open namespaces alone. -/
theorem Pending.other {ls names : List Text} {line : Text} (h : Pending ls names)
    (ho : isOpening line = false) (hc : isClosing line = false) : Pending (ls ++ [line]) names := by
  cases h with
  | nil hb => exact .nil (hb.other ho hc)
  | cons h hopen hb =>
    rw [List.append_assoc, List.cons_append]
    exact .cons h hopen (hb.other ho hc)

/-- A closing line closes the innermost namespace, and what is open then stands before its
opening line. -/
theorem Pending.close {ls names : List Text} {name line : Text} (h : Pending ls (name :: names))
    (hc : isClosing line = true) : Pending (ls ++ [line]) names := by
  cases h with
  | cons h hopen hb =>
    rw [List.append_assoc, List.cons_append]
    cases h with
    | nil hb' => exact .nil (hb'.wrap hopen hb hc)
    | cons h hopen' hb' =>
      rw [List.append_assoc, List.cons_append]
      exact .cons h hopen' (hb'.wrap hopen hb hc)

/-- **Reading a line keeps track of the open namespaces.** -/
theorem Pending.readLine {ls : List Text} (h : Pending ls c.names)
    (hs : c.readLine (trim line) = .ok c') : Pending (ls ++ [line]) c'.names := by
  obtain ⟨l, hl, hs⟩ := readLine_eq_ok_iff.mp hs
  generalize ht : trim line = trimmed at hl
  cases hl with
  | @opening name hne =>
    cases hs
    have ho : isOpening line = true := by rw [isOpening, ht]; rfl
    have hname : openedName line = trim name := by rw [openedName, ht]; rfl
    exact hname ▸ Pending.cons h ho .nil
  | closing =>
    have hc : isClosing line = true := by rw [isClosing, ht]; rfl
    obtain ⟨entries, outer⟩ := c
    cases outer with
    | nil => cases hs
    | cons p outer =>
      cases hs
      exact h.close hc
  | pair ho hc hkey hne =>
    have hnames : c'.names = c.names := by
      unfold Cursor.step at hs
      dsimp only at hs
      split at hs
      · cases hs
      · cases hs
        rfl
    rw [hnames]
    exact h.other (by rw [isOpening, ht, ho]) (by rw [isClosing, ht, hc])

/-! ## Reading all lines -/

/-- The lines that are not blank, trimmed, with their numbers from one. -/
def numbered (ls : List Text) : List (Text × Nat) :=
  ((ls.zipIdx 1).map fun (line, number) => (trim line, number)).filter
    fun (line, _) => !line.isEmpty

theorem contentLines_eq (t : Text) : contentLines t = numbered (splitOn '\n' t) := rfl

theorem numbered_append_blank (ls : List Text) (h : trim line = []) :
    numbered (ls ++ [line]) = numbered ls := by
  simp [numbered, List.zipIdx_append, h]

theorem numbered_append (ls : List Text) (h : trim line ≠ []) :
    numbered (ls ++ [line]) = numbered ls ++ [(trim line, ls.length + 1)] := by
  simp [numbered, List.zipIdx_append, h, Nat.add_comm]

theorem numbered_prefix (ls ms : List Text) : numbered ls <+: numbered (ls ++ ms) := by
  simp [numbered, List.zipIdx_append]

theorem readLines_append (xs ys : List (Text × Nat)) :
    c.readLines (xs ++ ys) = (c.readLines xs).bind fun c => c.readLines ys := by
  induction xs generalizing c with
  | nil => rfl
  | cons x xs ih =>
    obtain ⟨line, number⟩ := x
    rw [List.cons_append, Cursor.readLines, Cursor.readLines]
    cases c.readLine line with
    | error f => rfl
    | ok c => exact ih

theorem allAllowed_nil : AllAllowed [] := fun before line h => by
  simp at h

theorem allAllowed_concat_iff {ls : List Text} :
    AllAllowed (ls ++ [line]) ↔ AllAllowed ls ∧ IsAllowed ls line := by
  constructor
  · intro h
    exact ⟨fun before m hp => h before m (hp.trans (List.prefix_append _ _)),
      h ls line (List.prefix_refl _)⟩
  · rintro ⟨hall, hlast⟩ before m hp
    rcases List.prefix_concat_iff.mp hp with he | hp
    · obtain ⟨rfl, hm⟩ := List.append_inj' he rfl
      exact List.singleton_inj.mp hm ▸ hlast
    · exact hall before m hp

theorem Pending.isAllowed_iff {ls : List Text} (h : Pending ls c.names) :
    IsAllowed ls line ↔ trim line = [] ∨ ∃ c', c.readLine (trim line) = .ok c' := by
  have hdepth : ls.countP isOpening - ls.countP isClosing = c.names.length := by
    rw [h.count_eq]
    omega
  rw [IsAllowed, hdepth, exists_readLine_iff]

/-- **Lines that are all allowed are read to their end**, and the cursor knows what is open. -/
theorem exists_readLines {ls : List Text} (h : AllAllowed ls) :
    ∃ c, Cursor.readLines {} (numbered ls) = .ok c ∧ Pending ls c.names := by
  -- from the first line on, as whether a line is allowed depends on those before it
  induction ls using List.reverseRecOn with
  | nil => exact ⟨{}, rfl, .nil .nil⟩
  | append_singleton ls line ih =>
    obtain ⟨hall, hlast⟩ := allAllowed_concat_iff.mp h
    obtain ⟨c, hread, hp⟩ := ih hall
    by_cases hb : trim line = []
    · refine ⟨c, by rw [numbered_append_blank ls hb, hread], hp.other ?_ ?_⟩
      · rw [isOpening, hb]; rfl
      · rw [isClosing, hb]; rfl
    · obtain ⟨c', hc⟩ := (hp.isAllowed_iff.mp hlast).resolve_left hb
      refine ⟨c', ?_, hp.readLine hc⟩
      rw [numbered_append ls hb, readLines_append, hread]
      simp only [Except.bind, Cursor.readLines, hc]

/-- **Reading stops at the first line that is not allowed.** -/
theorem exists_fault {before : List Text} (h : AllAllowed before) (hl : ¬ IsAllowed before line)
    (after : List Text) : ∃ f, Cursor.readLines {} (numbered (before ++ line :: after)) =
      .error (.atLine (before.length + 1) (trim line) f) := by
  obtain ⟨c, hread, hp⟩ := exists_readLines h
  rw [hp.isAllowed_iff, not_or] at hl
  obtain ⟨hb, hl⟩ := hl
  obtain ⟨rest, hrest⟩ := numbered_prefix (before ++ [line]) after
  rw [List.append_assoc, List.singleton_append, numbered_append before hb] at hrest
  cases hc : c.readLine (trim line) with
  | ok c' => exact absurd ⟨c', hc⟩ hl
  | error f =>
    refine ⟨f, ?_⟩
    rw [← hrest, List.append_assoc, readLines_append, hread]
    simp only [Except.bind, List.singleton_append, Cursor.readLines, hc]

/-- Either every line is allowed or there is a first one that is not. -/
theorem allAllowed_or_first (ls : List Text) : AllAllowed ls ∨
    ∃ before line after, ls = before ++ line :: after ∧ AllAllowed before ∧
      ¬ IsAllowed before line := by
  induction ls using List.reverseRecOn with
  | nil => exact .inl allAllowed_nil
  | append_singleton ls line ih =>
    rcases ih with hall | ⟨before, bad, after, rfl, hall, hbad⟩
    · by_cases hl : IsAllowed ls line
      · exact .inl (allAllowed_concat_iff.mpr ⟨hall, hl⟩)
      · exact .inr ⟨ls, line, [], rfl, hall, hl⟩
    · exact .inr ⟨before, bad, after ++ [line], by simp, hall, hbad⟩

/-! ## Documents -/

/-- Where all lines are allowed, the text is a document unless a namespace is open at the end. -/
theorem readEntries_of_allAllowed {t : Text} (h : AllAllowed (splitOn '\n' t)) :
    ∃ names, Pending (splitOn '\n' t) names ∧
      match names with
      | [] => ∃ e, readEntries t = .ok e
      | key :: _ => readEntries t = .error (.unclosed key) := by
  obtain ⟨c, hread, hp⟩ := exists_readLines h
  rw [← contentLines_eq] at hread
  refine ⟨c.names, hp, ?_⟩
  obtain ⟨entries, outer⟩ := c
  cases outer with
  | nil => exact ⟨entries, by rw [readEntries, hread]⟩
  | cons p outer =>
    change readEntries t = .error (.unclosed p.1)
    rw [readEntries, hread]

/-- A line that is not allowed, behind lines that are, stops the text. -/
theorem readEntries_of_first {t : Text} {before after : List Text}
    (ht : splitOn '\n' t = before ++ line :: after) (h : AllAllowed before)
    (hl : ¬ IsAllowed before line) :
    ∃ f, readEntries t = .error (.atLine (before.length + 1) (trim line) f) := by
  obtain ⟨f, hread⟩ := exists_fault h hl after
  rw [← ht, ← contentLines_eq] at hread
  exact ⟨f, by rw [readEntries, hread]⟩

theorem exists_ofText_iff {t : Text} {name : Option Text} :
    (∃ d, ofText t name = .ok d) ↔ ∃ e, readEntries t = .ok e := by
  unfold ofText
  cases readEntries t <;> simp

theorem ofText_eq_error_iff {t : Text} {name : Option Text} {r : ReadError} :
    ofText t name = .error r ↔ readEntries t = .error r := by
  unfold ofText
  cases readEntries t <;> simp

/-- **Which texts are documents, and what is wrong with the others.** A text is a document if all of
its lines are allowed and no namespace is left open. Otherwise it is refused with the number of the
first line that is not allowed, or with the name of the innermost namespace that is left open. -/
theorem decode_outcome (t : Text) (name : Option Text) :
    ((∃ d, ofText t name = .ok d) ↔ AllAllowed (splitOn '\n' t) ∧
      (splitOn '\n' t).countP isOpening = (splitOn '\n' t).countP isClosing) ∧
    (∀ before line after, splitOn '\n' t = before ++ line :: after → AllAllowed before →
      ¬ IsAllowed before line →
      ∃ f, ofText t name = .error (.atLine (before.length + 1) (trim line) f)) ∧
    (AllAllowed (splitOn '\n' t) →
      (splitOn '\n' t).countP isOpening ≠ (splitOn '\n' t).countP isClosing →
      ∃ before line after, splitOn '\n' t = before ++ line :: after ∧ isOpening line = true ∧
        Balanced after ∧ ofText t name = .error (.unclosed (openedName line))) := by
  simp only [exists_ofText_iff, ofText_eq_error_iff]
  refine ⟨⟨?_, ?_⟩, fun before line after ht h hl => readEntries_of_first ht h hl, ?_⟩
  · rintro ⟨e, he⟩
    rcases allAllowed_or_first (splitOn '\n' t) with hall | ⟨before, line, after, ht, hb, hl⟩
    · obtain ⟨names, hp, hread⟩ := readEntries_of_allAllowed hall
      refine ⟨hall, ?_⟩
      cases names with
      | nil => exact hp.count_eq
      | cons key names =>
        rw [he] at hread
        cases hread
    · obtain ⟨f, hf⟩ := readEntries_of_first ht hb hl
      rw [he] at hf
      cases hf
  · rintro ⟨hall, hcount⟩
    obtain ⟨names, hp, hread⟩ := readEntries_of_allAllowed hall
    cases names with
    | nil => exact hread
    | cons key names =>
      have hopen := hp.count_eq
      rw [hcount] at hopen
      simp at hopen
  · intro hall hcount
    obtain ⟨names, hp, hread⟩ := readEntries_of_allAllowed hall
    generalize hls : splitOn '\n' t = ls at hp hcount ⊢
    cases hp with
    | nil hb => exact absurd hb.count_eq hcount
    | cons _ ho hb => exact ⟨_, _, _, rfl, ho, hb, hread⟩

/-- A line with no key is refused behind one that is allowed, and so is a namespace that stays
open. -/
theorem decode_outcome_refused :
    (AllAllowed ["a=1&I".toList] ∧ ¬ IsAllowed ["a=1&I".toList] "=x".toList ∧
      ∃ f, ofText "a=1&I\n=x".toList none = .error (.atLine 2 "=x".toList f)) ∧
    AllAllowed [">>a".toList] ∧ ofText ">>a".toList none = .error (.unclosed "a".toList) := by
  have hpair : AllAllowed ["a=1&I".toList] :=
    ((decode_outcome "a=1&I".toList none).1.mp ⟨_, rfl⟩).1
  have hkeyless : ¬ IsAllowed ["a=1&I".toList] "=x".toList := by
    rintro (h | h)
    · cases h
    · generalize ht : trim "=x".toList = line at h
      cases h with
      | opening => cases ht
      | closing => cases ht
      | @pair key values _ _ hkey hne =>
        cases key with
        | nil => exact hne rfl
        | cons c key =>
          obtain ⟨rfl, -⟩ := List.cons.inj ht
          exact hkey List.mem_cons_self
  have hopening : AllAllowed [">>a".toList] :=
    allAllowed_concat_iff.mpr ⟨allAllowed_nil, .inr (@StandsAt.opening _ "a".toList nofun)⟩
  have hfirst := (decode_outcome "a=1&I\n=x".toList none).2.1 _ _ [] rfl hpair hkeyless
  obtain ⟨before, line, after, ht, -, -, hread⟩ :=
    (decode_outcome ">>a".toList none).2.2 hopening (by decide)
  have hm : line ∈ splitOn '\n' ">>a".toList := ht ▸ List.mem_append_right _ List.mem_cons_self
  have hline : line = ">>a".toList := List.mem_singleton.mp hm
  rw [hline] at hread
  exact ⟨⟨hpair, hkeyless, hfirst⟩, hopening, hread⟩

end FormalGrammar.Document
