import FormalGrammar.Document.Writer
import FormalGrammar.Proofs.Numerals

/-!
# The texts of values

What is written for the values of a key is taken apart at the separators that joined them, and
each piece is read back as its value, up to the blanks at the ends of a text
(`readValues_writeValues`). The converse says what reading can give at all: at least one value, no
text that begins with a blank, and no integer too long to write (`isReadable_of_readValues`).

A text is written with its marks escaped, so the proofs follow its characters; the escapes stand
in pairs, which no step of the scanner takes apart.
-/

namespace FormalGrammar

open Text

/-! ## Values -/

namespace Scalar

/-- The values that are written without loss up to blanks: no real number, no level of a log, and
no integer of too many digits. -/
def IsPlain : Scalar → Prop
  | .none | .bool _ | .text _ => True
  | .int n => Numeral.Integer.IsShort n
  | .level _ | .real _ => False

/-- A value as it comes back: a text loses the blanks at its ends, and one of blanks only is the
empty scalar. -/
def asRead : Scalar → Scalar
  | .text t => if Text.trim t = [] then .none else .text (Text.trim t)
  | v => v

/-- What holds of every value that is read from a line: a text begins with no blank, though it may
end in one, and an integer is short. -/
def IsReadable : Scalar → Prop
  | .text t => (∃ c r, t = c :: r ∧ isBlank c = false) ∧ '\n' ∉ t
  | .int n => Numeral.Integer.IsShort n
  | .level _ => False
  | _ => True

end Scalar

namespace Document

/-! ## Escapes -/

theorem escape_cons_of_escapable {c : Char} (h : isEscapable c = true) (t : Text) :
    escape (c :: t) = '%' :: c :: escape t := by
  simp [escape, h]

theorem escape_cons_of_plain {c : Char} (h : isEscapable c = false) (t : Text) :
    escape (c :: t) = c :: escape t := by
  simp [escape, h]

theorem escape_append (s t : Text) : escape (s ++ t) = escape s ++ escape t := by
  simp [escape]

theorem ne_of_not_escapable {c : Char} (h : isEscapable c = false) : c ≠ '%' ∧ c ≠ ';' ∧ c ≠ '&' := by
  simpa [isEscapable, and_assoc] using h

theorem isEscapable_of_isBlank {c : Char} (h : isBlank c = true) : isEscapable c = false := by
  have hp : c ≠ '%' := by rintro rfl; exact absurd h (by decide)
  have hs : c ≠ ';' := by rintro rfl; exact absurd h (by decide)
  have ha : c ≠ '&' := by rintro rfl; exact absurd h (by decide)
  simp [isEscapable, hp, hs, ha]

theorem isBlank_of_isEscapable {c : Char} (h : isEscapable c = true) : isBlank c = false := by
  cases hb : isBlank c with
  | false => rfl
  | true =>
    rw [isEscapable_of_isBlank hb] at h
    cases h

theorem mem_escape {c : Char} {t : Text} (h : c ∈ escape t) : c ∈ t ∨ c = '%' := by
  obtain ⟨d, hd, hc⟩ := List.mem_flatMap.mp h
  split at hc
  · rcases List.mem_cons.mp hc with rfl | hc
    · exact .inr rfl
    · exact .inl (List.mem_singleton.mp hc ▸ hd)
  · exact .inl (List.mem_singleton.mp hc ▸ hd)

theorem escape_blanks {bs : Text} (h : ∀ c ∈ bs, isBlank c = true) : escape bs = bs := by
  induction bs with
  | nil => rfl
  | cons c bs ih =>
    rw [escape_cons_of_plain (isEscapable_of_isBlank (h c List.mem_cons_self)),
      ih fun d hd => h d (List.mem_cons_of_mem _ hd)]

theorem isTight_escape {t : Text} (h : IsTight t) : IsTight (escape t) where
  head c r he := by
    cases t with
    | nil => cases he
    | cons d t =>
      cases hd : isEscapable d with
      | true =>
        rw [escape_cons_of_escapable hd] at he
        cases he
        decide
      | false =>
        rw [escape_cons_of_plain hd] at he
        cases he
        exact h.head _ t rfl
  last r c he := by
    rcases List.eq_nil_or_concat' t with rfl | ⟨t, d, rfl⟩
    · simp [escape] at he
    · rw [escape_append] at he
      cases hd : isEscapable d with
      | true =>
        rw [escape_cons_of_escapable hd] at he
        have hc : d = c := by
          have hl := congrArg List.getLast? he
          simpa [escape] using hl
        exact hc ▸ isBlank_of_isEscapable hd
      | false =>
        rw [escape_cons_of_plain hd] at he
        have hc : d = c := by
          have hl := congrArg List.getLast? he
          simpa [escape] using hl
        exact hc ▸ h.last t d rfl

/-- Escaping leaves the blanks at the ends where they are. -/
theorem trim_escape (t : Text) : trim (escape t) = escape (trim t) := by
  obtain ⟨bs, bs', hb, hb', he⟩ := exists_surround t
  have hs : escape t = bs ++ escape (trim t) ++ bs' := by
    conv_lhs => rw [he]
    rw [escape_append, escape_append, escape_blanks hb, escape_blanks hb']
  rw [hs, trim_surround hb (isTight_escape (isTight_trim t)).trim_eq hb']

theorem unescape_cons {c : Char} (h : c ≠ '%') (t : Text) : unescape (c :: t) = c :: unescape t := by
  rw [unescape]
  intro _ _ e
  exact absurd e h

theorem unescape_escape (t : Text) : unescape (escape t) = t := by
  induction t with
  | nil => rfl
  | cons c t ih =>
    cases hc : isEscapable c with
    | true => rw [escape_cons_of_escapable hc, unescape, if_pos hc, ih]
    | false => rw [escape_cons_of_plain hc, unescape_cons (ne_of_not_escapable hc).1, ih]

theorem unescape_eq_self {t : Text} (h : '%' ∉ t) : unescape t = t := by
  induction t with
  | nil => rfl
  | cons c t ih =>
    simp only [List.mem_cons, not_or] at h
    rw [unescape_cons (fun e => h.1 e.symm), ih h.2]

theorem mem_of_mem_unescape {c : Char} {t : Text} (h : c ∈ unescape t) : c ∈ t := by
  fun_induction unescape t with
  | case1 => exact h
  | case2 d r hd ih =>
    rcases List.mem_cons.mp h with rfl | h
    · simp
    · exact List.mem_cons_of_mem _ (List.mem_cons_of_mem _ (ih h))
  | case3 d r hd ih =>
    rcases List.mem_cons.mp h with rfl | h
    · simp
    · exact List.mem_cons_of_mem _ (ih h)
  | case4 d r hd ih =>
    rcases List.mem_cons.mp h with rfl | h
    · simp
    · exact List.mem_cons_of_mem _ (ih h)

/-- Resolving escapes puts no blank in front. -/
theorem head_unescape {c : Char} (h : isBlank c = false) (t : Text) :
    ∃ d r, unescape (c :: t) = d :: r ∧ isBlank d = false := by
  by_cases hc : c = '%'
  · subst hc
    cases t with
    | nil => exact ⟨'%', [], rfl, by decide⟩
    | cons d r =>
      rw [unescape]
      split
      · next hd => exact ⟨d, _, rfl, isBlank_of_isEscapable hd⟩
      · exact ⟨'%', _, rfl, by decide⟩
  · exact ⟨c, _, unescape_cons hc t, h⟩

/-! ## Pieces -/

theorem prepend_nil {ps : List Text} (h : ps ≠ []) : prepend [] ps = ps := by
  cases ps with
  | nil => exact absurd rfl h
  | cons p ps => rfl

theorem prepend_prepend (s t : Text) (ps : List Text) :
    prepend s (prepend t ps) = prepend (s ++ t) ps := by
  cases ps <;> simp [prepend]

theorem pieces_cons {c : Char} (hp : c ≠ '%') (hs : c ≠ ';') (t : Text) :
    pieces (c :: t) = prepend [c] (pieces t) := by
  rw [pieces]
  · intro _ _ e
    exact absurd e hp
  · exact hs

theorem prepend_ne_nil (s : Text) (ps : List Text) : prepend s ps ≠ [] := by
  cases ps <;> simp [prepend]

theorem pieces_ne_nil (t : Text) : pieces t ≠ [] := by
  fun_cases pieces t with
  | case1 => simp
  | case2 => exact prepend_ne_nil _ _
  | case3 => exact prepend_ne_nil _ _
  | case4 => simp
  | case5 => exact prepend_ne_nil _ _

theorem pieces_append_of_notMem {s : Text} (hp : '%' ∉ s) (hs : ';' ∉ s) (t : Text) :
    pieces (s ++ t) = prepend s (pieces t) := by
  induction s with
  | nil => exact (prepend_nil (pieces_ne_nil t)).symm
  | cons c s ih =>
    simp only [List.mem_cons, not_or] at hp hs
    rw [List.cons_append, pieces_cons (fun e => hp.1 e.symm) (fun e => hs.1 e.symm), ih hp.2 hs.2,
      prepend_prepend]
    rfl

theorem pieces_escape_append (s t : Text) : pieces (escape s ++ t) = prepend (escape s) (pieces t) := by
  induction s with
  | nil => exact (prepend_nil (pieces_ne_nil t)).symm
  | cons c s ih =>
    cases hc : isEscapable c with
    | true =>
      rw [escape_cons_of_escapable hc, List.cons_append, List.cons_append, pieces, if_pos hc, ih,
        prepend_prepend]
      rfl
    | false =>
      obtain ⟨hp, hs, -⟩ := ne_of_not_escapable hc
      rw [escape_cons_of_plain hc, List.cons_append, pieces_cons hp hs, ih, prepend_prepend]
      rfl

theorem pieces_blanks_append {bs : Text} (h : ∀ c ∈ bs, isBlank c = true) (t : Text) :
    pieces (bs ++ t) = prepend bs (pieces t) := by
  apply pieces_append_of_notMem
  · intro hm
    exact absurd (h _ hm) (by decide)
  · intro hm
    exact absurd (h _ hm) (by decide)

/-- Blanks at the end of the text belong to its last piece. The induction carries what stands
before the first piece, since a piece is trimmed only when it is complete. -/
theorem map_trim_pieces_append {bs : Text} (h : ∀ c ∈ bs, isBlank c = true) (front t : Text) :
    (prepend front (pieces (t ++ bs))).map trim = (prepend front (pieces t)).map trim := by
  have hbs : pieces bs = [bs] := by
    have hb := pieces_blanks_append h []
    rw [List.append_nil] at hb
    rw [hb]
    simp [pieces, prepend]
  fun_induction pieces t generalizing front with
  | case1 =>
    simp only [List.nil_append, hbs, prepend, List.map_cons, List.map_nil, List.append_nil,
      trim_append_blanks h]
  | case2 c r hc ih =>
    rw [List.cons_append, List.cons_append, pieces, if_pos hc, prepend_prepend, prepend_prepend]
    exact ih _
  | case3 c r hc ih =>
    rw [List.cons_append, List.cons_append, pieces, if_neg hc, prepend_prepend, prepend_prepend]
    exact ih _
  | case4 r ih =>
    have hr := ih []
    rw [prepend_nil (pieces_ne_nil _), prepend_nil (pieces_ne_nil _)] at hr
    simp only [List.cons_append, pieces, prepend, List.map_cons, hr]
  | case5 c r hp hs ih =>
    by_cases hc : c = '%'
    · subst hc
      have hr : r = [] := by
        cases r with
        | nil => rfl
        | cons d r => exact absurd rfl (hp d r rfl)
      subst hr
      have hpct : pieces (['%'] ++ bs) = prepend ['%'] (pieces bs) := by
        cases bs with
        | nil => rfl
        | cons b bs =>
          have hb : isEscapable b = false := isEscapable_of_isBlank (h b List.mem_cons_self)
          rw [List.singleton_append, pieces, if_neg (by simp [hb])]
      rw [hpct, prepend_prepend, prepend_prepend]
      exact ih _
    · rw [List.cons_append, pieces_cons hc hs, prepend_prepend, prepend_prepend]
      exact ih _

theorem mem_of_mem_prepend {c : Char} {p s : Text} {ps : List Text} (hp : p ∈ prepend s ps)
    (hc : c ∈ p) : c ∈ s ∨ ∃ q ∈ ps, c ∈ q := by
  cases ps with
  | nil => exact .inl (List.mem_singleton.mp hp ▸ hc)
  | cons q ps =>
    rcases List.mem_cons.mp hp with rfl | hp
    · rcases List.mem_append.mp hc with hc | hc
      · exact .inl hc
      · exact .inr ⟨q, List.mem_cons_self, hc⟩
    · exact .inr ⟨p, List.mem_cons_of_mem _ hp, hc⟩

theorem mem_of_mem_pieces {c : Char} {p t : Text} (hp : p ∈ pieces t) (hc : c ∈ p) : c ∈ t := by
  fun_induction pieces t generalizing p with
  | case1 => exact List.mem_singleton.mp hp ▸ hc
  | case2 d r hd ih =>
    rcases mem_of_mem_prepend hp hc with h | ⟨q, hq, h⟩
    · simp only [List.mem_cons, List.not_mem_nil, or_false] at h
      rcases h with rfl | rfl <;> simp
    · exact List.mem_cons_of_mem _ (List.mem_cons_of_mem _ (ih hq h))
  | case3 d r hd ih =>
    rcases mem_of_mem_prepend hp hc with h | ⟨q, hq, h⟩
    · rw [List.mem_singleton.mp h]
      exact List.mem_cons_self
    · exact List.mem_cons_of_mem _ (ih hq h)
  | case4 r ih =>
    rcases List.mem_cons.mp hp with rfl | hp
    · cases hc
    · exact List.mem_cons_of_mem _ (ih hp hc)
  | case5 d r _ _ ih =>
    rcases mem_of_mem_prepend hp hc with h | ⟨q, hq, h⟩
    · rw [List.mem_singleton.mp h]
      exact List.mem_cons_self
    · exact List.mem_cons_of_mem _ (ih hq h)

/-! ## Formats -/

theorem splitFormat_cons {c : Char} (hp : c ≠ '%') (ha : c ≠ '&') (t : Text) :
    splitFormat (c :: t) = (splitFormat t).map fun (value, format) => (c :: value, format) := by
  rw [splitFormat]
  · intro _ _ e
    exact absurd e hp
  · exact ha

theorem splitFormat_escape (t : Text) : splitFormat (escape t) = none := by
  induction t with
  | nil => rfl
  | cons c t ih =>
    cases hc : isEscapable c with
    | true => rw [escape_cons_of_escapable hc, splitFormat, if_pos hc, ih]; rfl
    | false =>
      obtain ⟨hp, -, ha⟩ := ne_of_not_escapable hc
      rw [escape_cons_of_plain hc, splitFormat_cons hp ha, ih]
      rfl

theorem splitFormat_append {s : Text} (hp : '%' ∉ s) (ha : '&' ∉ s) {format : Text}
    (hf : splitFormat format = none) : splitFormat (s ++ '&' :: format) = some (s, format) := by
  induction s with
  | nil => rw [List.nil_append, splitFormat, hf]
  | cons c s ih =>
    simp only [List.mem_cons, not_or] at hp ha
    rw [List.cons_append, splitFormat_cons (fun e => hp.1 e.symm) (fun e => ha.1 e.symm),
      ih hp.2 ha.2]
    rfl

theorem eq_of_splitFormat {t value format : Text} (h : splitFormat t = some (value, format)) :
    t = value ++ '&' :: format := by
  fun_induction splitFormat t generalizing value format with
  | case1 => cases h
  | case2 c r hc ih =>
    obtain ⟨⟨v, f⟩, hv, he⟩ := Option.map_eq_some_iff.mp h
    cases he
    rw [ih hv]
    rfl
  | case3 c r hc ih =>
    obtain ⟨⟨v, f⟩, hv, he⟩ := Option.map_eq_some_iff.mp h
    cases he
    rw [ih hv]
    rfl
  | case4 r v f hv ih =>
    cases h
    rw [ih hv]
    rfl
  | case5 r hv ih =>
    cases h
    rfl
  | case6 c r _ _ ih =>
    obtain ⟨⟨v, f⟩, hv, he⟩ := Option.map_eq_some_iff.mp h
    cases he
    rw [ih hv]
    rfl

/-! ## Single values -/

theorem splitFormat_writeInt (n : Int) :
    splitFormat (Numeral.Integer.write n ++ ['&', 'I']) =
      some (Numeral.Integer.write n, ['I']) := by
  apply splitFormat_append
  · exact Numeral.Integer.notMem_write (by decide) (by decide)
  · exact Numeral.Integer.notMem_write (by decide) (by decide)
  · rfl

/-- A character of what is written for a value other than a real number: one of a text, or no
blank. -/
theorem mem_writeScalar {v : Scalar} (hv : v.IsPlain) {c : Char} (h : c ∈ writeScalar v) :
    isBlank c = false ∨ ∃ t, v = .text t ∧ c ∈ t := by
  cases v with
  | none => cases h
  | bool b =>
    have hall : ∀ d ∈ writeScalar (.bool b), isBlank d = false := by
      cases b <;> exact forall_not_blank_iff.mpr (by decide)
    exact .inl (hall c h)
  | int n =>
    rcases List.mem_append.mp h with h | h
    · exact .inl (Numeral.Integer.isBlank_of_mem_write h)
    · have hall : ∀ d ∈ ['&', 'I'], isBlank d = false := forall_not_blank_iff.mpr (by decide)
      exact .inl (hall c h)
  | text t =>
    rcases mem_escape h with h | rfl
    · exact .inr ⟨t, rfl, h⟩
    · exact .inl (by decide)
  | level l => exact hv.elim
  | real x => exact hv.elim

/-- **A value is read back from its piece**, up to the blanks at the ends of a text. -/
theorem readScalar_writeScalar {v : Scalar} (hv : v.IsPlain) :
    readScalar (trim (writeScalar v)) = .ok v.asRead := by
  cases v with
  | none => rfl
  | bool b => cases b <;> rfl
  | int n =>
    have ht : trim (writeScalar (.int n)) = writeScalar (.int n) := trim_eq_self fun c hc => by
      rcases mem_writeScalar hv hc with h | ⟨t, h, -⟩
      · exact h
      · cases h
    have hu : unescape (Numeral.Integer.write n) = Numeral.Integer.write n :=
      unescape_eq_self (Numeral.Integer.notMem_write (by decide) (by decide))
    rw [ht, writeScalar, readScalar, splitFormat_writeInt]
    simp only [readFormatted, hu, List.isEmpty_iff, Numeral.Integer.write_ne_nil, ↓reduceIte, readInt,
      Numeral.Integer.read?_write hv, Scalar.asRead]
  | text t =>
    have hnil : escape (trim t) = [] ↔ trim t = [] := by
      constructor
      · intro he
        have hb := unescape_escape (trim t)
        rw [he] at hb
        exact hb.symm
      · intro he
        rw [he]
        rfl
    rw [writeScalar, trim_escape, readScalar, splitFormat_escape]
    simp only [List.isEmpty_iff, hnil, unescape_escape, Scalar.asRead]
  | level l => exact hv.elim
  | real x => exact hv.elim

/-- What can be read from a piece of a line. -/
theorem isReadable_of_readScalar {p : Text} {v : Scalar} (hp : '\n' ∉ p)
    (h : readScalar (trim p) = .ok v) : v.IsReadable := by
  have hsub : ∀ {s : Text}, (∀ c ∈ s, c ∈ trim p) → '\n' ∉ unescape s := by
    intro s hs hm
    exact hp (mem_of_mem_trim (hs _ (mem_of_mem_unescape hm)))
  unfold readScalar at h
  split at h
  · next value format hs =>
    have he := eq_of_splitFormat hs
    unfold readFormatted at h
    split at h
    · cases h
    · next hne =>
      split at h
      · cases h
      · unfold readBool at h
        split at h
        · cases h; trivial
        · split at h
          · cases h; trivial
          · split at h
            · cases h; trivial
            · cases h
      · unfold readInt at h
        split at h
        · next n hn => cases h; exact Numeral.Integer.isShort_of_read? hn
        · cases h
      · unfold readReal at h
        split at h
        · cases h; trivial
        · cases h
      · cases h
        refine ⟨?_, hsub fun c hc => he ▸ List.mem_append_left _ hc⟩
        cases value with
        | nil => exact absurd rfl hne
        | cons c r => exact head_unescape ((isTight_trim p).head c _ he) r
      · cases h
  · cases h
    split
    · trivial
    · next hne =>
      refine ⟨?_, hsub fun c hc => hc⟩
      cases ht : trim p with
      | nil => simp [ht] at hne
      | cons c r => exact head_unescape ((isTight_trim p).head c r ht) r

/-! ## Lists of values -/

/-- Values as they come back: where nothing is written, the empty scalar is read. -/
def valuesAsRead : List Scalar → List Scalar
  | [] => [.none]
  | vs => vs.map Scalar.asRead

theorem pieces_writeScalar_append {v : Scalar} (hv : v.IsPlain) (t : Text) :
    pieces (writeScalar v ++ t) = prepend (writeScalar v) (pieces t) := by
  cases v with
  | none => exact (prepend_nil (pieces_ne_nil t)).symm
  | bool b => cases b <;> exact pieces_append_of_notMem (by decide) (by decide) t
  | int n =>
    apply pieces_append_of_notMem
    · simp [writeScalar, Numeral.Integer.notMem_write]
    · simp [writeScalar, Numeral.Integer.notMem_write]
  | text s => exact pieces_escape_append s t
  | level l => exact hv.elim
  | real x => exact hv.elim

/-- The pieces of a written list are what was written for its members. -/
theorem pieces_writeValues {vs : List Scalar} (hne : vs ≠ []) (hv : ∀ v ∈ vs, v.IsPlain) :
    pieces (writeValues vs) = vs.map writeScalar := by
  induction vs with
  | nil => exact absurd rfl hne
  | cons v vs ih =>
    have hhead := hv v List.mem_cons_self
    cases vs with
    | nil =>
      have hp := pieces_writeScalar_append hhead []
      rw [List.append_nil] at hp
      simpa [writeValues, List.intercalate, pieces, prepend] using hp
    | cons w ws =>
      have hw : writeValues (v :: w :: ws) = writeScalar v ++ ';' :: writeValues (w :: ws) := by
        simp [writeValues, List.intercalate_cons_cons]
      rw [hw, pieces_writeScalar_append hhead, pieces,
        ih (List.cons_ne_nil _ _) fun u hu => hv u (List.mem_cons_of_mem _ hu)]
      simp [prepend]

theorem readScalars_congr {ps qs : List Text} (h : ps.map trim = qs.map trim) :
    readScalars ps = readScalars qs := by
  induction ps generalizing qs with
  | nil =>
    rw [List.map_nil, eq_comm, List.map_eq_nil_iff] at h
    rw [h]
  | cons p ps ih =>
    cases qs with
    | nil => cases h
    | cons q qs =>
      rw [List.map_cons, List.map_cons, List.cons.injEq] at h
      rw [readScalars, readScalars, h.1, ih h.2]

/-- **Blanks around the values do not count.** -/
theorem readValues_trim (t : Text) : readValues (trim t) = readValues t := by
  obtain ⟨bs, bs', hb, hb', he⟩ := exists_surround t
  apply readScalars_congr
  have hfront : ∀ u, (pieces (bs ++ u)).map trim = (pieces u).map trim := by
    intro u
    rw [pieces_blanks_append hb]
    cases hu : pieces u with
    | nil => exact absurd hu (pieces_ne_nil u)
    | cons p ps => simp only [prepend, List.map_cons, trim_blanks_append hb]
  have hback := map_trim_pieces_append hb' [] (trim t)
  rw [prepend_nil (pieces_ne_nil _), prepend_nil (pieces_ne_nil _)] at hback
  conv_rhs => rw [he, List.append_assoc]
  rw [hfront, hback]

theorem readScalars_map_writeScalar {vs : List Scalar} (hv : ∀ v ∈ vs, v.IsPlain) :
    readScalars (vs.map writeScalar) = .ok (vs.map Scalar.asRead) := by
  induction vs with
  | nil => rfl
  | cons v vs ih =>
    simp only [List.map_cons, readScalars, readScalar_writeScalar (hv v List.mem_cons_self),
      ih fun w hw => hv w (List.mem_cons_of_mem _ hw)]

/-- **What is written for the values of a key is read back.** -/
theorem readValues_writeValues {vs : List Scalar} (hv : ∀ v ∈ vs, v.IsPlain) :
    readValues (writeValues vs) = .ok (valuesAsRead vs) := by
  cases vs with
  | nil => rfl
  | cons v vs =>
    rw [readValues, pieces_writeValues (List.cons_ne_nil _ _) hv]
    exact readScalars_map_writeScalar hv

theorem isReadable_of_readScalars {ps : List Text} {vs : List Scalar} (hp : ∀ p ∈ ps, '\n' ∉ p)
    (h : readScalars ps = .ok vs) : vs.length = ps.length ∧ ∀ v ∈ vs, v.IsReadable := by
  induction ps generalizing vs with
  | nil =>
    cases h
    exact ⟨rfl, by simp⟩
  | cons p ps ih =>
    rw [readScalars] at h
    split at h
    · cases h
    · next v hv =>
      split at h
      · cases h
      · next ws hws =>
        cases h
        obtain ⟨hlen, hall⟩ := ih (fun q hq => hp q (List.mem_cons_of_mem _ hq)) hws
        refine ⟨by simp [hlen], fun w hw => ?_⟩
        rcases List.mem_cons.mp hw with rfl | hw
        · exact isReadable_of_readScalar (hp p List.mem_cons_self) hv
        · exact hall w hw

/-- What can be read from the values of a line. -/
theorem isReadable_of_readValues {t : Text} {vs : List Scalar} (ht : '\n' ∉ t)
    (h : readValues t = .ok vs) : vs ≠ [] ∧ ∀ v ∈ vs, v.IsReadable := by
  obtain ⟨hlen, hall⟩ := isReadable_of_readScalars
    (fun p hp hm => ht (mem_of_mem_pieces hp hm)) h
  refine ⟨fun he => ?_, hall⟩
  rw [he] at hlen
  exact pieces_ne_nil t (List.eq_nil_of_length_eq_zero hlen.symm)

end Document

end FormalGrammar
