/-!
# Text

A text is the list of its code points. This module holds the ways of taking a text
apart that the readers of grammars and documents share: at every occurrence of a
character (`splitOn`), and at the first occurrence of a separator (`cut`).
Putting the pieces of `splitOn` together again gives the text back
(`intercalate_splitOn`), and no piece holds the character it was split at
(`notMem_of_mem_splitOn`).
-/

namespace FormalGrammar

/-- A text is the list of its code points. -/
abbrev Text := List Char

namespace Text

def str (t : Text) : String := String.ofList t

/-- The pieces between the occurrences of `c`; there is always at least one. -/
def splitOn (c : Char) : Text → List Text
  | [] => [[]]
  | x :: r =>
    if x = c then [] :: splitOn c r
    else
      match splitOn c r with
      | [] => [[x]]
      | p :: ps => (x :: p) :: ps

/-- The parts before and after the first occurrence of a nonempty `sep`. -/
def cut (sep : Text) : Text → Option (Text × Text)
  | [] => none
  | x :: r =>
    match sep.isPrefixOf? (x :: r) with
    | some rest => some ([], rest)
    | none => (cut sep r).map fun (before, after) => (x :: before, after)

def startsWith (start t : Text) : Bool := start.isPrefixOf t

/-! ## Splitting loses nothing -/

theorem splitOn_ne_nil (c : Char) (t : Text) : splitOn c t ≠ [] := by
  cases t with
  | nil => simp [splitOn]
  | cons x r => simp only [splitOn]; split <;> (try split) <;> simp

theorem intercalate_splitOn (c : Char) (t : Text) :
    [c].intercalate (splitOn c t) = t := by
  induction t with
  | nil => simp [splitOn, List.intercalate]
  | cons x r ih =>
    have hne := splitOn_ne_nil c r
    simp only [splitOn]
    cases h : splitOn c r with
    | nil => exact absurd h hne
    | cons p ps =>
      rw [h] at ih
      by_cases hx : x = c
      · subst hx
        rw [if_pos rfl, ← ih]
        simp [List.intercalate, List.intersperse]
      · rw [if_neg hx, ← ih]
        cases ps <;> simp [List.intercalate, List.intersperse]

theorem notMem_of_mem_splitOn {c : Char} {t p : Text} (h : p ∈ splitOn c t) : c ∉ p := by
  induction t generalizing p with
  | nil => simp_all [splitOn]
  | cons x r ih =>
    simp only [splitOn] at h
    split at h
    · rcases List.mem_cons.mp h with rfl | h
      · simp
      · exact ih h
    · next hx =>
      cases hs : splitOn c r with
      | nil => exact absurd hs (splitOn_ne_nil c r)
      | cons q qs =>
        rw [hs] at h ih
        rcases List.mem_cons.mp h with rfl | h
        · have := ih (List.mem_cons_self)
          simp_all [eq_comm]
        · exact ih (List.mem_cons_of_mem _ h)

end Text

end FormalGrammar
