import FormalGrammar.Text.Blank
import Mathlib.Data.List.DropRight

/-!
# Taking apart what was put together

Splitting undoes joining if no piece holds the mark (`splitOn_intercalate`), cutting undoes
putting a separator between two texts if the first does not hold the beginning of the
separator (`cut_append`), and trimming leaves a text alone that has no blank at its ends. Every
text is its trimmed form between blanks (`exists_surround`), and blanks around a trimmed text
are all that trimming takes away (`trim_surround`).
-/

namespace FormalGrammar.Text

/-! ## Splitting and cutting -/

theorem splitOn_eq_list_splitOn (c : Char) (t : Text) : splitOn c t = List.splitOn c t := by
  induction t with
  | nil => rfl
  | cons x r ih =>
    rw [splitOn, List.splitOn_cons_eq_if_modifyHead, ih]
    by_cases hx : x = c
    · simp [hx]
    · have hne := List.splitOn_ne_nil c r
      cases hs : List.splitOn c r with
      | nil => exact absurd hs hne
      | cons p ps => simp [hx]

theorem splitOn_of_notMem {c : Char} {t : Text} (h : c ∉ t) : splitOn c t = [t] := by
  rw [splitOn_eq_list_splitOn]
  exact List.splitOn_eq_singleton h

theorem splitOn_intercalate {c : Char} {ps : List Text} (hne : ps ≠ []) (h : ∀ p ∈ ps, c ∉ p) :
    splitOn c ([c].intercalate ps) = ps := by
  rw [splitOn_eq_list_splitOn]
  exact List.splitOn_intercalate c h hne

theorem splitOn_append_cons (c : Char) (t t' : Text) :
    splitOn c (t ++ c :: t') = splitOn c t ++ splitOn c t' := by
  induction t with
  | nil => simp [splitOn]
  | cons x r ih =>
    rw [List.cons_append, splitOn, splitOn, ih]
    split
    · rfl
    · cases hs : splitOn c r with
      | nil => exact absurd hs (splitOn_ne_nil c r)
      | cons p ps => rfl

theorem mem_of_mem_intercalate {c : Char} {sep : Text} {ps : List Text}
    (h : c ∈ sep.intercalate ps) : c ∈ sep ∨ ∃ p ∈ ps, c ∈ p := by
  induction ps with
  | nil => cases h
  | cons p ps ih =>
    cases ps with
    | nil =>
      rw [List.intercalate_singleton] at h
      exact .inr ⟨p, List.mem_cons_self, h⟩
    | cons q qs =>
      rw [List.intercalate_cons_cons, List.mem_append, List.mem_append] at h
      rcases h with (h | h) | h
      · exact .inr ⟨p, List.mem_cons_self, h⟩
      · exact .inl h
      · rcases ih h with h | ⟨r, hr, h⟩
        · exact .inl h
        · exact .inr ⟨r, List.mem_cons_of_mem _ hr, h⟩

theorem cut_append {a : Char} {sep before : Text} (h : a ∉ before) (after : Text) :
    cut (a :: sep) (before ++ (a :: sep ++ after)) = some (before, after) := by
  induction before with
  | nil =>
    have hp : (a :: sep).isPrefixOf? (a :: (sep ++ after)) = some after :=
      List.isPrefixOf?_eq_some_iff_append_eq.mpr rfl
    simp only [List.nil_append, List.cons_append, cut, hp]
  | cons x before ih =>
    simp only [List.mem_cons, not_or] at h
    have hp : (a :: sep).isPrefixOf? (x :: (before ++ (a :: sep ++ after))) = none := by
      simp [List.isPrefixOf?, h.1]
    rw [List.cons_append, cut, hp, ih h.2]
    rfl

/-- A cut at a single character is a cut at its first occurrence. -/
theorem eq_of_cut {a : Char} {t before after : Text} (h : cut [a] t = some (before, after)) :
    t = before ++ a :: after ∧ a ∉ before := by
  induction t generalizing before with
  | nil => cases h
  | cons x r ih =>
    rw [cut] at h
    split at h
    · next rest hp =>
      have hx : a :: rest = x :: r := List.isPrefixOf?_eq_some_iff_append_eq.mp hp
      cases h
      exact ⟨hx.symm, List.not_mem_nil⟩
    · next hp =>
      obtain ⟨⟨b, r'⟩, hc, he⟩ := Option.map_eq_some_iff.mp h
      cases he
      obtain ⟨rfl, hb⟩ := ih hc
      have hx : a ≠ x := by
        rintro rfl
        simp [List.isPrefixOf?] at hp
      exact ⟨rfl, by simp [hx, hb]⟩

/-- `pieces` are what stands between the occurrences of `c` in `t`. -/
structure Splits (c : Char) (t : Text) (pieces : List Text) : Prop where
  joined : [c].intercalate pieces = t
  ne_nil : pieces ≠ []
  notMem : ∀ p ∈ pieces, c ∉ p

/-- `sep` stands in `t` between `before` and `after`, and nowhere before that. -/
structure Cuts (sep t before after : Text) : Prop where
  eq : t = before ++ (sep ++ after)
  first : ∀ b a, t = b ++ (sep ++ a) → before.length ≤ b.length

theorem splitOn_eq_iff {c : Char} {t : Text} {pieces : List Text} :
    splitOn c t = pieces ↔ Splits c t pieces := by
  constructor
  · rintro rfl
    exact ⟨intercalate_splitOn c t, splitOn_ne_nil c t, fun _ => notMem_of_mem_splitOn⟩
  · rintro ⟨rfl, hne, hc⟩
    exact splitOn_intercalate hne hc

/-- **A cut is made at the first occurrence** of the separator. -/
theorem cut_eq_some_iff {sep t before after : Text} (hsep : sep ≠ []) :
    cut sep t = some (before, after) ↔ Cuts sep t before after := by
  induction t generalizing before with
  | nil =>
    refine ⟨nofun, fun h => ?_⟩
    have hnil := h.eq
    simp [hsep] at hnil
  | cons x r ih =>
    rw [cut]
    cases hp : sep.isPrefixOf? (x :: r) with
    | some rest =>
      have he : sep ++ rest = x :: r := List.isPrefixOf?_eq_some_iff_append_eq.mp hp
      constructor
      · rintro ⟨⟩
        exact ⟨he.symm, fun _ _ _ => Nat.zero_le _⟩
      · rintro ⟨heq, hfirst⟩
        have hb : before = [] := List.eq_nil_of_length_eq_zero (Nat.le_zero.mp (hfirst [] rest he.symm))
        subst hb
        rw [← he, List.nil_append, List.append_cancel_left_eq] at heq
        rw [heq]
    | none =>
      have hnot : ∀ a, x :: r ≠ sep ++ a := by
        intro a ha
        rw [List.isPrefixOf?_eq_some_iff_append_eq.mpr ha.symm] at hp
        cases hp
      cases before with
      | nil =>
        constructor
        · intro h
          simp at h
        · exact fun h => absurd h.eq (hnot after)
      | cons y before =>
        have hmap : (cut sep r).map (fun p => (x :: p.1, p.2)) = some (y :: before, after) ↔
            x = y ∧ cut sep r = some (before, after) := by
          cases cut sep r <;> simp [Prod.ext_iff, and_assoc]
        rw [hmap, ih]
        constructor
        · rintro ⟨rfl, heq, hfirst⟩
          refine ⟨by rw [heq, List.cons_append], fun b a hb => ?_⟩
          cases b with
          | nil => exact absurd hb (hnot a)
          | cons z b => exact Nat.succ_le_succ (hfirst b a (List.cons.inj hb).2)
        · rintro ⟨heq, hfirst⟩
          rw [List.cons_append, List.cons.injEq] at heq
          refine ⟨heq.1, heq.2, fun b a hb => ?_⟩
          exact Nat.le_of_succ_le_succ (hfirst (x :: b) a (by rw [hb, List.cons_append]))

/-! ## Trimming -/

theorem dropWhile_eq_self {p : Char → Bool} {t : Text} (h : ∀ c ∈ t, p c = false) :
    t.dropWhile p = t :=
  List.dropWhile_eq_self_iff.mpr fun hl => by simp [h _ (List.getElem_mem hl)]

theorem dropEndWhile_eq_self {p : Char → Bool} {t : Text} (h : ∀ c ∈ t, p c = false) :
    dropEndWhile p t = t := by
  rw [dropEndWhile, dropWhile_eq_self fun c hc => h c (List.mem_reverse.mp hc), List.reverse_reverse]

theorem trimEnd_append_of_not_blank {c : Char} (h : isBlank c = false) (t : Text) :
    trimEnd (t ++ [c]) = t ++ [c] := by
  simp [trimEnd, dropEndWhile, h]

theorem trimEnd_eq_self {t : Text} (h : ∀ c ∈ t, isBlank c = false) : trimEnd t = t := by
  rcases List.eq_nil_or_concat t with rfl | ⟨t, c, rfl⟩
  · rfl
  · rw [List.concat_eq_append] at h ⊢
    exact trimEnd_append_of_not_blank (h c (by simp)) t

theorem trim_cons_of_blank {c : Char} (h : isBlank c = true) (t : Text) :
    trim (c :: t) = trim t := by
  simp [trim, h]

theorem trim_cons_of_not_blank {c : Char} (h : isBlank c = false) (t : Text) :
    trim (c :: t) = trimEnd (c :: t) := by
  simp [trim, h]

theorem trim_eq_self {t : Text} (h : ∀ c ∈ t, isBlank c = false) : trim t = t := by
  cases t with
  | nil => rfl
  | cons c t => rw [trim_cons_of_not_blank (h c List.mem_cons_self), trimEnd_eq_self h]

theorem allBlank_eq_false {c : Char} {t : Text} (hc : c ∈ t) (h : isBlank c = false) :
    allBlank t = false := by
  rw [allBlank, List.all_eq_false]
  exact ⟨c, hc, by simp [h]⟩

/-- That a text has no blank is found by going through it. -/
theorem forall_not_blank_iff {t : Text} :
    (∀ c ∈ t, isBlank c = false) ↔ (t.all fun c => !isBlank c) = true := by
  simp

/-! ## Trimmed texts -/

/-- Neither the first nor the last character is a blank. -/
structure IsTight (t : Text) : Prop where
  head : ∀ c r, t = c :: r → isBlank c = false
  last : ∀ r c, t = r ++ [c] → isBlank c = false

theorem trimEnd_append_blanks {bs : Text} (h : ∀ c ∈ bs, isBlank c = true) (t : Text) :
    trimEnd (t ++ bs) = trimEnd t := by
  have hr : ∀ c ∈ bs.reverse, isBlank c = true := fun c hc => h c (List.mem_reverse.mp hc)
  rw [trimEnd, dropEndWhile, List.reverse_append, List.dropWhile_append_of_pos hr]
  rfl

theorem IsTight.trim_eq {t : Text} (h : IsTight t) : trim t = t := by
  cases t with
  | nil => rfl
  | cons c r =>
    rw [trim_cons_of_not_blank (h.head c r rfl)]
    obtain ⟨front, d, he⟩ := (List.eq_nil_or_concat' (c :: r)).resolve_left (List.cons_ne_nil _ _)
    rw [he]
    exact trimEnd_append_of_not_blank (h.last front d he) front

theorem exists_trimEnd (t : Text) : ∃ bs, (∀ c ∈ bs, isBlank c = true) ∧ t = trimEnd t ++ bs := by
  refine ⟨(t.reverse.takeWhile isBlank).reverse, fun c hc => ?_, ?_⟩
  · exact List.mem_takeWhile_imp (List.mem_reverse.mp hc)
  · rw [trimEnd, dropEndWhile, ← List.reverse_append, List.takeWhile_append_dropWhile,
      List.reverse_reverse]

theorem isTight_trim (t : Text) : IsTight (trim t) where
  head c r he := by
    obtain ⟨bs, -, hbs⟩ := exists_trimEnd (t.dropWhile isBlank)
    change t.dropWhile isBlank = trim t ++ bs at hbs
    rw [he] at hbs
    have hc := List.head?_dropWhile_not isBlank t
    rw [hbs] at hc
    simpa using hc
  last r c he := by
    have hne : trim t ≠ [] := by simp [he]
    have hc := List.rdropWhile_last_not isBlank (t.dropWhile isBlank) hne
    have hl : (List.rdropWhile isBlank (t.dropWhile isBlank)).getLast hne = c := by
      have hg : ∀ h, (trim t).getLast h = c := by
        rw [he]
        simp
      exact hg hne
    rw [hl] at hc
    simpa using hc

theorem trim_eq_self_iff {t : Text} : trim t = t ↔ IsTight t :=
  ⟨fun h => h ▸ isTight_trim t, IsTight.trim_eq⟩

theorem trim_trim (t : Text) : trim (trim t) = trim t := (isTight_trim t).trim_eq

/-- **Trimming takes off the blanks around a trimmed text** and nothing else. -/
theorem trim_surround {bs t bs' : Text} (hb : ∀ c ∈ bs, isBlank c = true) (ht : trim t = t)
    (hb' : ∀ c ∈ bs', isBlank c = true) : trim (bs ++ t ++ bs') = t := by
  rw [List.append_assoc, trim, List.dropWhile_append_of_pos hb]
  cases t with
  | nil =>
    have hn : bs'.dropWhile isBlank = [] := List.dropWhile_eq_nil_iff.mpr hb'
    rw [List.nil_append, hn]
    rfl
  | cons c r =>
    have hc : isBlank c = false := (trim_eq_self_iff.mp ht).head c r rfl
    rw [List.cons_append, List.dropWhile_cons_of_neg (by simp [hc]), ← List.cons_append,
      trimEnd_append_blanks hb', ← trim_cons_of_not_blank hc, ht]

/-- **Every text is its trimmed form between blanks.** -/
theorem exists_surround (t : Text) : ∃ bs bs', (∀ c ∈ bs, isBlank c = true) ∧
    (∀ c ∈ bs', isBlank c = true) ∧ t = bs ++ trim t ++ bs' := by
  obtain ⟨bs', hb', he⟩ := exists_trimEnd (t.dropWhile isBlank)
  refine ⟨t.takeWhile isBlank, bs', fun c hc => List.mem_takeWhile_imp hc, hb', ?_⟩
  rw [List.append_assoc, trim, ← he, List.takeWhile_append_dropWhile]

theorem mem_of_mem_trim {t : Text} {c : Char} (h : c ∈ trim t) : c ∈ t := by
  obtain ⟨bs, bs', -, -, he⟩ := exists_surround t
  rw [he]
  exact List.mem_append_left _ (List.mem_append_right _ h)

theorem trim_blanks_append {bs : Text} (hb : ∀ c ∈ bs, isBlank c = true) (t : Text) :
    trim (bs ++ t) = trim t := by
  rw [trim, List.dropWhile_append_of_pos hb, ← trim]

theorem trim_append_blanks {bs : Text} (hb : ∀ c ∈ bs, isBlank c = true) (t : Text) :
    trim (t ++ bs) = trim t := by
  obtain ⟨as, as', ha, ha', he⟩ := exists_surround t
  have hb' : ∀ c ∈ as' ++ bs, isBlank c = true := by
    intro c hc
    rcases List.mem_append.mp hc with hc | hc
    · exact ha' c hc
    · exact hb c hc
  calc trim (t ++ bs) = trim (as ++ trim t ++ (as' ++ bs)) := by rw [← List.append_assoc, ← he]
    _ = trim t := trim_surround ha (trim_trim t) hb'

theorem trim_trimEnd (t : Text) : trim (trimEnd t) = trim t := by
  obtain ⟨bs, hb, he⟩ := exists_trimEnd t
  calc trim (trimEnd t) = trim (trimEnd t ++ bs) := (trim_append_blanks hb _).symm
    _ = trim t := by rw [← he]

theorem intercalate_concat_append (sep last bs : Text) (front : List Text) :
    sep.intercalate (front ++ [last]) ++ bs = sep.intercalate (front ++ [last ++ bs]) := by
  induction front with
  | nil => simp
  | cons p front ih =>
    rw [List.cons_append, List.cons_append, List.intercalate_cons_of_ne_nil (by simp),
      List.intercalate_cons_of_ne_nil (by simp), ← ih, List.append_assoc]

/-- Blanks at the end of a text go to the last piece, and are trimmed there. -/
theorem map_trim_splitOn_append {c : Char} (hc : isBlank c = false) {bs : Text}
    (hb : ∀ b ∈ bs, isBlank b = true) (t : Text) :
    (splitOn c (t ++ bs)).map trim = (splitOn c t).map trim := by
  have hcb : c ∉ bs := by
    intro hm
    rw [hb c hm] at hc
    cases hc
  obtain ⟨hjoin, hne, hfree⟩ := splitOn_eq_iff.mp (rfl : splitOn c t = splitOn c t)
  obtain ⟨front, last, he⟩ := (List.eq_nil_or_concat' (splitOn c t)).resolve_left hne
  rw [he] at hjoin hfree
  have hsplit : splitOn c (t ++ bs) = front ++ [last ++ bs] := by
    refine splitOn_eq_iff.mpr ⟨?_, by simp, fun p hp => ?_⟩
    · rw [← intercalate_concat_append, hjoin]
    · rcases List.mem_append.mp hp with hp | hp
      · exact hfree p (List.mem_append_left _ hp)
      · rw [List.mem_singleton.mp hp, List.mem_append, not_or]
        exact ⟨hfree last (by simp), hcb⟩
  rw [hsplit, he, List.map_append, List.map_append, List.map_singleton, List.map_singleton,
    trim_append_blanks hb]

theorem map_trim_splitOn_trimEnd {c : Char} (hc : isBlank c = false) (t : Text) :
    (splitOn c (trimEnd t)).map trim = (splitOn c t).map trim := by
  obtain ⟨bs, hb, he⟩ := exists_trimEnd t
  rw [← map_trim_splitOn_append hc hb (trimEnd t), ← he]

/-- Trimming at the end stops at the first character that is no blank. -/
theorem trimEnd_append_cons {c : Char} (h : isBlank c = false) (front back : Text) :
    trimEnd (front ++ c :: back) = front ++ c :: trimEnd back := by
  have hc : (c :: front.reverse).dropWhile isBlank = c :: front.reverse :=
    List.dropWhile_cons_of_neg (by simp [h])
  simp only [trimEnd, dropEndWhile, List.reverse_append, List.reverse_cons, List.append_assoc,
    List.singleton_append, List.dropWhile_append, hc]
  split
  · next he => simp [List.isEmpty_iff.mp he]
  · simp

theorem IsTight.trimEnd_eq {t : Text} (h : IsTight t) : trimEnd t = t := by
  cases t with
  | nil => rfl
  | cons c r => rw [← trim_cons_of_not_blank (h.head c r rfl), h.trim_eq]

end FormalGrammar.Text
