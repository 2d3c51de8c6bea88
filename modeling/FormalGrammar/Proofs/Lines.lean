import FormalGrammar.Proofs.Entries

/-!
# The lines of a document

Reading goes through the lines that are not blank, and its state is a cursor. Two facts carry
everything that is said of whole texts. What the cursor has read is well formed at every step
(`Cursor.IsSound`), so only well-formed entries are ever read (`isRead_of_readEntries`). And the
lines that entries are written as move the cursor over exactly those entries, as they come back,
wherever it stands (`after?_lines`), so that what is written is read back (`readEntries_text`).
-/

namespace FormalGrammar

open Text

namespace Document

/-! ## Keys -/

/-- A text that stands for itself on a line: it is not empty, has no blank at its ends and no line
feed in it. -/
structure IsToken (t : Text) : Prop where
  ne_nil : t ≠ []
  trim_eq : trim t = t
  notMem_newline : '\n' ∉ t

/-- A token that a line with values can begin with. -/
structure IsValueKey (key : Text) : Prop extends IsToken key where
  notMem_equals : '=' ∉ key
  not_opening : startsWith ['>', '>'] key = false
  not_closing : startsWith ['<', '<'] key = false

instance (t : Text) : Decidable (IsToken t) :=
  decidable_of_iff (t ≠ [] ∧ trim t = t ∧ '\n' ∉ t)
    ⟨fun h => ⟨h.1, h.2.1, h.2.2⟩, fun h => ⟨h.1, h.2, h.3⟩⟩

instance (key : Text) : Decidable (IsValueKey key) :=
  decidable_of_iff (IsToken key ∧ '=' ∉ key ∧ startsWith ['>', '>'] key = false ∧
      startsWith ['<', '<'] key = false)
    ⟨fun h => ⟨h.1, h.2.1, h.2.2.1, h.2.2.2⟩, fun h => ⟨h.1, h.2, h.3, h.4⟩⟩

end Document

open Document

/-- What holds of all entries that are read, at every level. -/
structure Entries.IsRead (e : Entries) : Prop where
  readable : e.All (fun key vs => IsValueKey key ∧ vs ≠ [] ∧ ∀ v ∈ vs, v.IsReadable)
    fun key name => IsToken key ∧ name = some key
  distinct : e.Distinct

/-- Entries whose lines can be told apart: the keys are fit for their lines, and no text holds a
line feed. -/
def Entries.IsLegible (e : Entries) : Prop :=
  e.All (fun key vs => IsValueKey key ∧ (∀ v ∈ vs, v.IsPlain) ∧ ∀ t, Scalar.text t ∈ vs → '\n' ∉ t)
    fun key _ => IsToken key

namespace Document

theorem IsToken.head {t : Text} (h : IsToken t) : ∃ c r, t = c :: r ∧ isBlank c = false := by
  obtain ⟨c, r, rfl⟩ := List.exists_cons_of_ne_nil h.ne_nil
  exact ⟨c, r, rfl, (trim_eq_self_iff.mp h.trim_eq).head c r rfl⟩

theorem isToken_trim {t : Text} (hne : trim t ≠ []) (hn : '\n' ∉ t) : IsToken (trim t) where
  ne_nil := hne
  trim_eq := trim_trim t
  notMem_newline h := hn (mem_of_mem_trim h)

/-! ## Kinds of lines -/

/-- The forms of trimmed lines, and what they are read as. -/
inductive Classifies : Text → Line → Prop
  | opening {name : Text} : trim name ≠ [] → Classifies ('>' :: '>' :: name) (.opening (trim name))
  | closing {rest : Text} : Classifies ('<' :: '<' :: rest) .closing
  | pair {key values : Text} : startsWith ['>', '>'] (key ++ '=' :: values) = false →
      startsWith ['<', '<'] (key ++ '=' :: values) = false → '=' ∉ key → trim key ≠ [] →
      Classifies (key ++ '=' :: values) (.pair (trim key) (trim values))

theorem exists_of_startsWith {start line : Text} (h : startsWith start line = true) :
    ∃ rest, line = start ++ rest := by
  obtain ⟨rest, h⟩ := List.isPrefixOf_iff_prefix.mp h
  exact ⟨rest, h.symm⟩

theorem classifies_of_classify {line : Text} {l : Line} (h : classify line = .ok l) :
    Classifies line l := by
  unfold classify at h
  split at h
  · next ho =>
    obtain ⟨name, rfl⟩ := exists_of_startsWith ho
    dsimp only at h
    split at h
    · cases h
    · next hne =>
      cases h
      exact .opening (by simpa using hne)
  · next ho =>
    split at h
    · next hc =>
      obtain ⟨rest, rfl⟩ := exists_of_startsWith hc
      cases h
      exact .closing
    · next hc =>
      split at h
      · cases h
      · next key values hcut =>
        obtain ⟨rfl, hkey⟩ := eq_of_cut hcut
        dsimp only at h
        split at h
        · cases h
        · next hne =>
          cases h
          exact .pair (by simpa using ho) (by simpa using hc) hkey (by simpa using hne)

theorem Classifies.classify_eq {line : Text} {l : Line} (h : Classifies line l) :
    classify line = .ok l := by
  cases h with
  | opening hne => simp [classify, startsWith, List.isPrefixOf, hne]
  | closing => simp [classify, startsWith, List.isPrefixOf]
  | @pair key values ho hc hkey hne =>
    have hcut : cut ['='] (key ++ '=' :: values) = some (key, values) := cut_append hkey values
    simp [classify, ho, hc, hcut, hne]

/-- What is known of a line that has been read. -/
def Line.IsSound : Line → Prop
  | .opening name => IsToken name
  | .closing => True
  | .pair key values => IsValueKey key ∧ '\n' ∉ values

/-- The key of a trimmed line begins as the line does. -/
theorem not_startsWith_key {start before after : Text} (hne : trim before ≠ [])
    (hline : IsTight (before ++ after)) (h : startsWith start (before ++ after) = false) :
    startsWith start (trim before) = false := by
  obtain ⟨c, r, rfl⟩ := List.exists_cons_of_ne_nil (l := before) fun he => hne (by rw [he]; rfl)
  have hc : isBlank c = false := hline.head c _ rfl
  obtain ⟨bs, -, he⟩ := exists_trimEnd (c :: r)
  have hkey : trim (c :: r) <+: c :: r ++ after := by
    rw [trim_cons_of_not_blank hc]
    conv_rhs => rw [he, List.append_assoc]
    exact List.prefix_append _ _
  cases hs : startsWith start (trim (c :: r)) with
  | false => rfl
  | true =>
    have hp : start <+: trim (c :: r) := List.isPrefixOf_iff_prefix.mp hs
    rw [startsWith, List.isPrefixOf_iff_prefix.mpr (hp.trans hkey)] at h
    cases h

theorem isSound_of_classify {line : Text} {l : Line} (ht : trim line = line) (hn : '\n' ∉ line)
    (h : classify line = .ok l) : l.IsSound := by
  cases classifies_of_classify h with
  | opening hne => exact isToken_trim hne fun hm => hn (by simp [hm])
  | closing => trivial
  | @pair key values ho hc heq hkey =>
    have htight := trim_eq_self_iff.mp ht
    simp only [List.mem_append, List.mem_cons, not_or] at hn
    exact ⟨⟨isToken_trim hkey hn.1, fun hm => heq (mem_of_mem_trim hm),
      not_startsWith_key hkey htight ho, not_startsWith_key hkey htight hc⟩,
      fun hm => hn.2.2 (mem_of_mem_trim hm)⟩

theorem classify_opening {key : Text} (h : IsToken key) :
    classify ('>' :: '>' :: key) = .ok (.opening key) := by
  have hkey : trim key ≠ [] := h.trim_eq.symm ▸ h.ne_nil
  have hline := (Classifies.opening hkey).classify_eq
  rwa [h.trim_eq] at hline

theorem startsWith_append_cons {m c : Char} {key : Text} (h : startsWith [m, m] key = false)
    (hne : key ≠ []) (hc : c ≠ m) (after : Text) :
    startsWith [m, m] (key ++ c :: after) = false := by
  obtain ⟨a, key, rfl⟩ := List.exists_cons_of_ne_nil hne
  cases key with
  | nil => simp [startsWith, List.isPrefixOf, Ne.symm hc]
  | cons b key => simpa [startsWith, List.isPrefixOf] using h

theorem classify_pair {key : Text} (h : IsValueKey key) (values : Text) :
    classify (key ++ '=' :: trimEnd values) = .ok (.pair key (trim values)) := by
  have ho := startsWith_append_cons h.not_opening h.ne_nil (by decide) (trimEnd values)
    (c := '=')
  have hc := startsWith_append_cons h.not_closing h.ne_nil (by decide) (trimEnd values)
    (c := '=')
  have hkey : trim key ≠ [] := h.trim_eq.symm ▸ h.ne_nil
  have hline := (Classifies.pair ho hc h.notMem_equals hkey).classify_eq
  rwa [h.trim_eq, trim_trimEnd] at hline

/-! ## Reading line by line -/

/-- The lines as they are read: trimmed, and without the blank ones. -/
def content (ls : List Text) : List Text := (ls.map trim).filter fun line => !line.isEmpty

theorem content_append (ls ms : List Text) : content (ls ++ ms) = content ls ++ content ms := by
  simp [content]

theorem content_cons {line : Text} (h : trim line ≠ []) (ls : List Text) :
    content (line :: ls) = trim line :: content ls := by
  simp [content, h]

theorem map_fst_contentLines (t : Text) :
    (contentLines t).map Prod.fst = content (splitOn '\n' t) := by
  have hz : ((splitOn '\n' t).zipIdx 1).map Prod.fst = splitOn '\n' t := List.zipIdx_map_fst 1 _
  conv_rhs => rw [content, ← hz]
  simp only [contentLines, List.map_map, List.filter_map]
  rfl

namespace Cursor

/-- The cursor after some lines, if all of them can be read. -/
def after? (c : Cursor) : List Text → Option Cursor
  | [] => some c
  | line :: rest =>
    match c.readLine line with
    | .error _ => none
    | .ok c => c.after? rest

theorem after?_append (c : Cursor) (ls ms : List Text) :
    c.after? (ls ++ ms) = (c.after? ls).bind fun c => c.after? ms := by
  induction ls generalizing c with
  | nil => rfl
  | cons line ls ih =>
    rw [List.cons_append, after?, after?]
    cases c.readLine line with
    | error f => rfl
    | ok c => exact ih c

theorem readLines_eq_ok_iff {c c' : Cursor} {ls : List (Text × Nat)} :
    c.readLines ls = .ok c' ↔ c.after? (ls.map Prod.fst) = some c' := by
  induction ls generalizing c with
  | nil => simp [readLines, after?]
  | cons l ls ih =>
    obtain ⟨line, number⟩ := l
    rw [readLines, List.map_cons, after?]
    cases c.readLine line with
    | error f => simp
    | ok c => exact ih

theorem after?_cons {c c' : Cursor} {line : Text} (h : c.readLine line = .ok c') (ls : List Text) :
    c.after? (line :: ls) = c'.after? ls := by
  rw [after?, h]

/-- A line that no cursor can read cannot be read over. -/
theorem after?_eq_none {line : Text} (h : ∀ c : Cursor, ∃ f, c.readLine line = .error f)
    {ls : List Text} (hl : line ∈ ls) (c : Cursor) : c.after? ls = none := by
  induction ls generalizing c with
  | nil => cases hl
  | cons l ls ih =>
    rw [after?]
    rcases List.mem_cons.mp hl with rfl | hl
    · obtain ⟨f, hf⟩ := h c
      rw [hf]
    · cases c.readLine l with
      | error f => rfl
      | ok c => exact ih hl c

end Cursor

theorem readEntries_eq_ok_iff {t : Text} {e : Entries} :
    readEntries t = .ok e ↔ Cursor.after? {} (content (splitOn '\n' t)) = some ⟨e, []⟩ := by
  rw [← map_fst_contentLines, ← Cursor.readLines_eq_ok_iff, readEntries]
  cases Cursor.readLines {} (contentLines t) with
  | error f => simp
  | ok c =>
    obtain ⟨entries, outer⟩ := c
    cases outer with
    | nil => simp
    | cons p outer => simp

theorem ofText_eq_ok_iff {t : Text} {name : Option Text} {d : Document} :
    ofText t name = .ok d ↔ readEntries t = .ok d.entries ∧ d.name = name := by
  rw [ofText]
  cases readEntries t with
  | error f => simp
  | ok e =>
    obtain ⟨n, e'⟩ := d
    simp only [Except.ok.injEq, Document.mk.injEq]
    exact ⟨fun h => ⟨h.2, h.1.symm⟩, fun h => ⟨h.2.symm, h.1⟩⟩

/-! ## What is read -/

theorem isRead_nil : Entries.nil.IsRead := ⟨trivial, trivial⟩

/-- What a cursor has read so far is as what is read in the end, in each open namespace. -/
structure Cursor.IsSound (c : Cursor) : Prop where
  entries : c.entries.IsRead
  outer : ∀ p ∈ c.outer, IsToken p.1 ∧ p.2.IsRead

theorem Cursor.IsSound.step {c c' : Cursor} (hc : c.IsSound) {l : Line} (hl : l.IsSound)
    (h : c.step l = .ok c') : c'.IsSound := by
  cases l with
  | opening name =>
    cases h
    refine ⟨isRead_nil, fun p hp => ?_⟩
    rcases List.mem_cons.mp hp with rfl | hp
    · exact ⟨hl, hc.entries⟩
    · exact hc.outer p hp
  | closing =>
    rw [Cursor.step] at h
    split at h
    · cases h
    · next name around outer he =>
      cases h
      obtain ⟨hname, haround⟩ := hc.outer (name, around) (by simp [he])
      refine ⟨⟨haround.readable.put ⟨⟨hname, rfl⟩, hc.entries.readable⟩,
        haround.distinct.put hc.entries.distinct⟩, fun p hp => hc.outer p ?_⟩
      rw [he]
      exact List.mem_cons_of_mem _ hp
  | pair key values =>
    rw [Cursor.step] at h
    split at h
    · cases h
    · next vs hvs =>
      cases h
      exact ⟨⟨hc.entries.readable.put ⟨hl.1, isReadable_of_readValues hl.2 hvs⟩,
        hc.entries.distinct.put trivial⟩, hc.outer⟩

theorem Cursor.IsSound.after? {c c' : Cursor} (hc : c.IsSound) {ls : List Text}
    (hl : ∀ line ∈ ls, trim line = line ∧ '\n' ∉ line) (h : c.after? ls = some c') :
    c'.IsSound := by
  induction ls generalizing c with
  | nil =>
    cases h
    exact hc
  | cons line ls ih =>
    obtain ⟨ht, hn⟩ := hl line List.mem_cons_self
    rw [Cursor.after?, Cursor.readLine] at h
    cases hk : classify line with
    | error f => simp [hk] at h
    | ok l =>
      cases hs : c.step l with
      | error f => simp [hk, hs] at h
      | ok c₁ =>
        simp only [hk, hs] at h
        exact ih (hc.step (isSound_of_classify ht hn hk) hs)
          (fun m hm => hl m (List.mem_cons_of_mem _ hm)) h

/-- **Whatever is read is well formed at every level.** -/
theorem isRead_of_readEntries {t : Text} {e : Entries} (h : readEntries t = .ok e) : e.IsRead := by
  have hs : Cursor.IsSound {} := ⟨isRead_nil, by simp⟩
  refine (hs.after? (fun line hl => ?_) (readEntries_eq_ok_iff.mp h)).entries
  obtain ⟨hm, -⟩ := List.mem_filter.mp hl
  obtain ⟨raw, hraw, rfl⟩ := List.mem_map.mp hm
  exact ⟨trim_trim raw, fun hn => notMem_of_mem_splitOn hraw (mem_of_mem_trim hn)⟩

/-! ## What is written -/

theorem isBlank_of_mem_indent {depth : Nat} : ∀ c ∈ List.replicate depth '\t', isBlank c = true := by
  intro c hc
  rw [List.eq_of_mem_replicate hc]
  decide

theorem trim_pairLine {key : Text} (h : IsToken key) (depth : Nat) (values : Text) :
    trim (List.replicate depth '\t' ++ key ++ '=' :: values) = key ++ '=' :: trimEnd values := by
  obtain ⟨c, r, rfl, hc⟩ := h.head
  rw [List.append_assoc, trim_blanks_append isBlank_of_mem_indent, List.cons_append,
    trim_cons_of_not_blank hc, ← List.cons_append, trimEnd_append_cons (by decide)]

theorem trim_openingLine {key : Text} (h : IsToken key) (depth : Nat) :
    trim (List.replicate depth '\t' ++ '>' :: '>' :: key) = '>' :: '>' :: key := by
  have hk : trimEnd key = key := (trim_eq_self_iff.mp h.trim_eq).trimEnd_eq
  have he := trimEnd_append_cons (c := '>') (by decide) ['>'] key
  rw [trim_blanks_append isBlank_of_mem_indent, trim_cons_of_not_blank (by decide)]
  rw [hk] at he
  exact he

theorem trim_closingLine (depth : Nat) :
    trim (List.replicate depth '\t' ++ ['<', '<']) = ['<', '<'] := by
  rw [trim_blanks_append isBlank_of_mem_indent]
  rfl

theorem readLine_pair {key : Text} (h : IsValueKey key) {vs : List Scalar}
    (hv : ∀ v ∈ vs, v.IsPlain) (c : Cursor) :
    c.readLine (key ++ '=' :: trimEnd (writeValues vs)) =
      .ok ⟨c.entries.put key (.values (valuesAsRead vs)), c.outer⟩ := by
  rw [Cursor.readLine, classify_pair h]
  simp only [Cursor.step, readValues_trim, readValues_writeValues hv]

/-- **The lines of entries are read as the entries**, behind those that the cursor has, on every
level and inside every namespace. -/
theorem after?_lines {e : Entries} (hd : e.Distinct) (hl : e.IsLegible) (depth : Nat) (c : Cursor)
    (hc : ∀ key ∈ e.keys, key ∉ c.entries.keys) :
    c.after? (content (lines depth e)) = some ⟨c.entries.append e.asRead, c.outer⟩ := by
  induction e generalizing depth c with
  | nil =>
    rw [Entries.asRead, Entries.append_nil]
    rfl
  | values key vs rest ih =>
    obtain ⟨⟨hkey, hplain, -⟩, hrest⟩ := hl
    obtain ⟨hnew, hd⟩ := hd
    have hput : c.entries.put key (.values (valuesAsRead vs)) =
        c.entries.append (.values key (valuesAsRead vs) .nil) :=
      Entries.put_of_notMem (hc key List.mem_cons_self) _
    have htrim := trim_pairLine hkey.toIsToken depth (writeValues vs)
    have hline := readLine_pair hkey hplain c
    have hold : ∀ k ∈ rest.keys, k ∉ c.entries.keys := fun k hk => hc k (List.mem_cons_of_mem _ hk)
    have hout := ih hd hrest depth
      ⟨c.entries.append (.values key (valuesAsRead vs) .nil), c.outer⟩
      (Entries.notMem_keys_append_cons hnew hold (.values (valuesAsRead vs)))
    rw [hput] at hline
    rw [lines, content_cons (by rw [htrim]; simp), htrim, Cursor.after?_cons hline, hout,
      Entries.append_assoc]
    rfl
  | space key name inner rest ihi ih =>
    obtain ⟨hkey, hinner, hrest⟩ := hl
    obtain ⟨hnew, hdi, hd⟩ := hd
    have hput : c.entries.put key (.space (some key) inner.asRead) =
        c.entries.append (.space key (some key) inner.asRead .nil) :=
      Entries.put_of_notMem (hc key List.mem_cons_self) _
    have hopen := trim_openingLine hkey depth
    have hclose := trim_closingLine depth
    have hin := ihi hdi hinner (depth + 1) ⟨.nil, (key, c.entries) :: c.outer⟩ (by simp)
    have hold : ∀ k ∈ rest.keys, k ∉ c.entries.keys := fun k hk => hc k (List.mem_cons_of_mem _ hk)
    have hout := ih hd hrest depth
      ⟨c.entries.append (.space key (some key) inner.asRead .nil), c.outer⟩
      (Entries.notMem_keys_append_cons hnew hold (.space (some key) inner.asRead))
    have hstart : c.readLine ('>' :: '>' :: key) = .ok ⟨.nil, (key, c.entries) :: c.outer⟩ := by
      rw [Cursor.readLine, classify_opening hkey]
      rfl
    have hend : Cursor.readLine ⟨inner.asRead, (key, c.entries) :: c.outer⟩ ['<', '<'] =
        .ok ⟨c.entries.append (.space key (some key) inner.asRead .nil), c.outer⟩ := by
      rw [← hput]
      rfl
    calc c.after? (content (lines depth (.space key name inner rest)))
        = c.after? (('>' :: '>' :: key) :: (content (lines (depth + 1) inner) ++
            ['<', '<'] :: content (lines depth rest))) := by
          rw [lines, content_cons (by rw [hopen]; simp), content_append,
            content_cons (by rw [hclose]; simp), hopen, hclose]
      _ = Cursor.after? ⟨inner.asRead, (key, c.entries) :: c.outer⟩
            (['<', '<'] :: content (lines depth rest)) := by
          rw [Cursor.after?_cons hstart, Cursor.after?_append, hin]
          rfl
      _ = some ⟨c.entries.append (Entries.space key name inner rest).asRead, c.outer⟩ := by
          rw [Cursor.after?_cons hend, hout, Entries.append_assoc]
          rfl

theorem mem_writeValues {vs : List Scalar} (hv : ∀ v ∈ vs, v.IsPlain) {c : Char}
    (h : c ∈ writeValues vs) : isBlank c = false ∨ ∃ t, Scalar.text t ∈ vs ∧ c ∈ t := by
  rcases mem_of_mem_intercalate h with h | ⟨w, hw, hc⟩
  · rw [List.mem_singleton.mp h]
    exact .inl (by decide)
  · obtain ⟨v, hm, rfl⟩ := List.mem_map.mp hw
    rcases mem_writeScalar (hv v hm) hc with hn | ⟨t, rfl, ht⟩
    · exact .inl hn
    · exact .inr ⟨t, hm, ht⟩

/-- A blank that is no tab is written only inside a key or a text. -/
theorem notMem_of_mem_lines {c : Char} (hb : isBlank c = true) (hc : c ≠ '\t') {e : Entries}
    (h : e.All (fun key vs => c ∉ key ∧ (∀ v ∈ vs, v.IsPlain) ∧ ∀ t, Scalar.text t ∈ vs → c ∉ t)
      fun key _ => c ∉ key) {depth : Nat} {line : Text} (hl : line ∈ lines depth e) : c ∉ line := by
  have htab : ∀ n, c ∉ List.replicate n '\t' := fun _ hm => hc (List.eq_of_mem_replicate hm)
  have hmark : ∀ d, isBlank d = false → c ≠ d := by
    rintro d hd rfl
    rw [hb] at hd
    cases hd
  induction e generalizing depth with
  | nil => cases hl
  | values key vs rest ih =>
    obtain ⟨⟨hkey, hplain, htext⟩, hrest⟩ := h
    rcases List.mem_cons.mp hl with rfl | hl
    · have hvalues : c ∉ writeValues vs := by
        intro hm
        rcases mem_writeValues hplain hm with hn | ⟨t, ht, hm⟩
        · exact hmark c hn rfl
        · exact htext t ht hm
      simp [htab, hkey, hvalues, hmark '=' (by decide)]
    · exact ih hrest hl
  | space key name inner rest ihi ih =>
    obtain ⟨hkey, hinner, hrest⟩ := h
    rcases List.mem_cons.mp hl with rfl | hl
    · simp [htab, hkey, hmark '>' (by decide)]
    · rcases List.mem_append.mp hl with hl | hl
      · exact ihi hinner hl
      · rcases List.mem_cons.mp hl with rfl | hl
        · simp [htab, hmark '<' (by decide)]
        · exact ih hrest hl

theorem notMem_newline_of_mem_lines {e : Entries} (h : e.IsLegible) :
    ∀ line ∈ lines 0 e, '\n' ∉ line := by
  have hall : e.All (fun key vs => '\n' ∉ key ∧ (∀ v ∈ vs, v.IsPlain) ∧
      ∀ t, Scalar.text t ∈ vs → '\n' ∉ t) fun key _ => '\n' ∉ key :=
    h.imp (fun _ _ hk => ⟨hk.1.notMem_newline, hk.2⟩) fun _ _ hk => hk.notMem_newline
  exact fun line hl => notMem_of_mem_lines isBlank_newline (by decide) hall hl

/-- The lines of a written document are those that were joined. -/
theorem content_splitOn_text {d : Document} (h : ∀ line ∈ lines 0 d.entries, '\n' ∉ line) :
    content (splitOn '\n' d.text) = content (lines 0 d.entries) := by
  rw [Document.text]
  cases hl : lines 0 d.entries with
  | nil => rfl
  | cons line ls => rw [splitOn_intercalate (List.cons_ne_nil _ _) (hl ▸ h)]

/-- **What is written is read back** as it comes back: with the same keys in the same order on
every level, and with the same values but for the blanks at the ends of texts. -/
theorem readEntries_text {d : Document} (hd : d.entries.Distinct) (hl : d.entries.IsLegible) :
    readEntries d.text = .ok d.entries.asRead := by
  rw [readEntries_eq_ok_iff, content_splitOn_text (notMem_newline_of_mem_lines hl),
    after?_lines hd hl 0 {} fun _ _ => List.not_mem_nil]
  rfl

end Document

end FormalGrammar
