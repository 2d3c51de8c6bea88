import FormalGrammar.Proofs.ValueTexts

/-!
# The units of a text of values

Read from left to right, a text of values consists of escapes, which are a `%` with the character
that it makes stand for itself, and of single characters. The scanners that take such a text apart
go through it on their own, each with its own state. In units each of them is a plain operation on
a list: the pieces lie between the units `;` (`pieces_eq`), the format is what follows the last
unit `&` (`splitFormat_of_units`), and an escape is resolved to its last character
(`unescape_eq`).
-/

namespace FormalGrammar.Document

open Text

/-- The units of a text, from left to right. -/
def units : Text → List Text
  | [] => []
  | '%' :: c :: r => if isEscapable c then ['%', c] :: units r else ['%'] :: units (c :: r)
  | c :: r => [c] :: units r

/-- The text that units stand for. -/
def plain (us : List Text) : Text := us.filterMap List.getLast?

theorem flatten_units (t : Text) : (units t).flatten = t := by
  fun_induction units t with
  | case1 => rfl
  | case2 c r hc ih => simp [ih]
  | case3 c r hc ih => simp [ih]
  | case4 c r hp ih => simp [ih]

theorem ne_nil_of_mem_units {t u : Text} (h : u ∈ units t) : u ≠ [] := by
  fun_induction units t with
  | case1 => cases h
  | case2 c r hc ih | case3 c r hc ih | case4 c r hp ih =>
    rcases List.mem_cons.mp h with rfl | h
    · exact List.cons_ne_nil _ _
    · exact ih h

theorem plain_eq_nil_iff {us : List Text} (h : ∀ u ∈ us, u ≠ []) : plain us = [] ↔ us = [] := by
  cases us with
  | nil => simp [plain]
  | cons u us => simp [plain, h u List.mem_cons_self]

theorem unescape_eq (t : Text) : unescape t = plain (units t) := by
  fun_induction units t with
  | case1 => rfl
  | case2 c r hc ih => rw [unescape, if_pos hc, ih]; rfl
  | case3 c r hc ih => rw [unescape, if_neg hc, ih]; rfl
  | case4 c r hp ih => rw [unescape, ih]; exacts [rfl, hp]

/-- The first units of a text make up its beginning. -/
theorem flatten_prefix {t : Text} {us : List Text} (h : us <+: units t) : us.flatten <+: t := by
  obtain ⟨vs, h⟩ := h
  refine ⟨vs.flatten, ?_⟩
  rw [← List.flatten_append, h, flatten_units]

/-! ## Pieces -/

/-- A unit that separates nothing stands in front of the first piece. -/
theorem map_flatten_splitOn_cons {u sep : Text} (h : u ≠ sep) (us : List Text) :
    ((u :: us).splitOn sep).map List.flatten = prepend u ((us.splitOn sep).map List.flatten) := by
  rw [List.splitOn_cons_eq_if_modifyHead, if_neg (by simpa using h)]
  cases hs : us.splitOn sep with
  | nil => exact absurd hs (List.splitOn_ne_nil sep us)
  | cons p ps => rfl

/-- **The pieces lie between the units `;`.** -/
theorem pieces_eq (t : Text) : pieces t = ((units t).splitOn [';']).map List.flatten := by
  fun_induction pieces t with
  | case1 => rfl
  | case2 c r hc ih => rw [units, if_pos hc, map_flatten_splitOn_cons (by simp), ih]
  | case3 c r hc ih => rw [units, if_neg hc, map_flatten_splitOn_cons (by decide), ih]
  | case4 r ih =>
    rw [units, List.splitOn_cons_eq_if_modifyHead, if_pos (by simp), ih]
    · rfl
    · intro _ _ he
      exact absurd he (by decide)
  | case5 c r hp hs ih =>
    rw [units, map_flatten_splitOn_cons (by simpa using hs), ih]
    exact hp

/-! ## Formats -/

theorem splitFormat_of_notMem {t : Text} (h : ['&'] ∉ units t) : splitFormat t = none := by
  fun_induction splitFormat t with
  | case1 => rfl
  | case2 c r hc ih =>
    rw [units, if_pos hc] at h
    rw [ih fun hm => h (List.mem_cons_of_mem _ hm)]
    rfl
  | case3 c r hc ih =>
    rw [units, if_neg hc] at h
    rw [ih fun hm => h (List.mem_cons_of_mem _ hm)]
    rfl
  | case4 r | case5 r =>
    rw [units] at h
    · exact absurd List.mem_cons_self h
    · intro _ _ he
      exact absurd he (by decide)
  | case6 c r hp ha ih =>
    rw [units] at h
    · rw [ih fun hm => h (List.mem_cons_of_mem _ hm)]
      rfl
    · exact hp

/-- **The format is what follows the last unit `&`.** -/
theorem splitFormat_of_units {t : Text} {before after : List Text}
    (h : units t = before ++ ['&'] :: after) (hl : ['&'] ∉ after) :
    splitFormat t = some (before.flatten, after.flatten) := by
  fun_induction units t generalizing before with
  | case1 => simp at h
  | case2 c r hc ih =>
    cases before with
    | nil => simp at h
    | cons u before =>
      obtain ⟨rfl, hr⟩ := List.cons.inj h
      rw [splitFormat, if_pos hc, ih hr]
      rfl
  | case3 c r hc ih =>
    cases before with
    | nil => simp at h
    | cons u before =>
      obtain ⟨rfl, hr⟩ := List.cons.inj h
      rw [splitFormat, if_neg hc, ih hr]
      rfl
  | case4 c r hp ih =>
    cases before with
    | nil =>
      obtain ⟨hc, rfl⟩ := List.cons.inj h
      cases hc
      rw [splitFormat, splitFormat_of_notMem hl, flatten_units]
      rfl
    | cons u before =>
      obtain ⟨rfl, hr⟩ := List.cons.inj h
      by_cases hc : c = '&'
      · subst hc
        rw [splitFormat, ih hr]
        rfl
      · rw [splitFormat, ih hr]
        · rfl
        · exact hp
        · exact hc

/-- The first units of a text are units of their own. -/
theorem units_flatten {t : Text} {us : List Text} (h : us <+: units t) : units us.flatten = us := by
  fun_induction units t generalizing us with
  | case1 =>
    rw [List.prefix_nil] at h
    rw [h]
    rfl
  | case2 c r hc ih =>
    cases us with
    | nil => rfl
    | cons u us =>
      obtain ⟨rfl, hr⟩ := List.cons_prefix_cons.mp h
      rw [List.flatten_cons, List.cons_append, List.cons_append, units, if_pos hc,
        List.nil_append, ih hr]
  | case3 c r hc ih =>
    cases us with
    | nil => rfl
    | cons u us =>
      obtain ⟨rfl, hr⟩ := List.cons_prefix_cons.mp h
      have hf : us.flatten <+: c :: r := flatten_prefix hr
      rw [List.flatten_cons, List.singleton_append]
      cases hus : us.flatten with
      | nil =>
        have hnil := ih hr
        rw [hus] at hnil
        rw [← hnil]
        rfl
      | cons d s =>
        -- the `%` is followed by the same character as in the whole text
        have hd : d = c := (List.cons_prefix_cons.mp (hus ▸ hf)).1
        rw [hd] at hus
        rw [hd, units, if_neg hc, ← hus, ih hr]
  | case4 c r hp ih =>
    cases us with
    | nil => rfl
    | cons u us =>
      obtain ⟨rfl, hr⟩ := List.cons_prefix_cons.mp h
      have hf : us.flatten <+: r := flatten_prefix hr
      rw [List.flatten_cons, List.singleton_append, units, ih hr]
      intro d s hc hs
      obtain ⟨s', rfl⟩ := hs ▸ hf
      exact hp _ _ hc rfl

end FormalGrammar.Document
