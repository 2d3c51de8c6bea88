import FormalGrammar.Proofs.ReadBack
import FormalGrammar.Search.Explore

/-!
# The lines of a trace

A line shows a depth, a form and perhaps a mark. The depth ends at the first period, a form has no
blank and is never shown as nothing, and a mark begins with a blank, so each of the three can be
told from the line, whatever the symbols are (`Step.eq_of_line_eq`): a form may begin with a
period, and it may spell `(match)`.
-/

namespace FormalGrammar

/-- A form of usable symbols is told by its text, for the mark of the empty word is none. -/
theorem Form.text_inj {f f' : Form} (hf : ∀ c ∈ f, Symbol.isUsable c = true)
    (hf' : ∀ c ∈ f', Symbol.isUsable c = true) (h : f.text = f'.text) : f = f' := by
  have notMark {f : Form} (hf : ∀ c ∈ f, Symbol.isUsable c = true) : f ≠ [Symbol.epsilon] := by
    rintro rfl
    exact absurd (hf Symbol.epsilon List.mem_cons_self) (by decide)
  rcases Grammar.formText_cases f with ⟨hnil, ht⟩ | ⟨-, ht⟩ <;>
    rcases Grammar.formText_cases f' with ⟨hnil', ht'⟩ | ⟨-, ht'⟩
  · exact hnil.trans hnil'.symm
  · exact absurd (ht.symm.trans (h.trans ht')).symm (notMark hf')
  · exact absurd (ht.symm.trans (h.trans ht')) (notMark hf)
  · exact ht.symm.trans (h.trans ht')

namespace Search

/-- The symbols of the form can be declared. -/
def Step.Usable (s : Step) : Prop := ∀ c ∈ s.form, Symbol.isUsable c = true

/-- What follows the form in a line. -/
def Step.mark (s : Step) : Text :=
  if s.isMatch then [' ', '(', 'm', 'a', 't', 'c', 'h', ')'] else []

theorem Step.line_eq (s : Step) :
    s.line = Nat.toDigits 10 s.depth ++ (['.', ' '] ++ (s.form.text ++ s.mark)) := by
  simp only [Step.line, Step.mark, List.append_assoc, List.cons_append, List.nil_append]

theorem Step.mark_of_match {s : Step} (h : s.isMatch = true) :
    s.mark = [' ', '(', 'm', 'a', 't', 'c', 'h', ')'] := if_pos h

theorem Step.mark_of_not_match {s : Step} (h : s.isMatch = false) : s.mark = [] :=
  if_neg (by simp [h])

theorem Step.Usable.notMem_text {s : Step} (hs : s.Usable) : ' ' ∉ s.form.text := by
  intro hm
  rcases Grammar.mem_formText hm with hm | hm
  · have hb := Symbol.isBlank_of_isUsable (hs _ hm)
    exact absurd hb (by decide)
  · exact absurd hm (by decide)

/-- The mark stands after the first blank, for a form has none. -/
theorem Step.isMatch_iff_mem {s : Step} (hs : s.Usable) :
    s.isMatch = true ↔ ' ' ∈ s.form.text ++ s.mark := by
  cases hm : s.isMatch with
  | false => simpa [mark_of_not_match hm] using hs.notMem_text
  | true => simp [mark_of_match hm]

/-- The depth ends at the first period of a line. -/
theorem Step.parts_of_line_eq {s s' : Step} (h : s.line = s'.line) :
    s.depth = s'.depth ∧ s.form.text ++ s.mark = s'.form.text ++ s'.mark := by
  have hdot (n : Nat) : '.' ∉ Nat.toDigits 10 n := fun hm =>
    absurd (Nat.isDigit_of_mem_toDigits (by decide) (by decide) hm) (by decide)
  have hcut (s : Step) :
      Text.cut ['.', ' '] s.line = some (Nat.toDigits 10 s.depth, s.form.text ++ s.mark) := by
    rw [Step.line_eq]
    exact Text.cut_append (hdot s.depth) _
  have hparts := (hcut s).symm.trans ((congrArg (Text.cut ['.', ' ']) h).trans (hcut s'))
  rw [Option.some.injEq, Prod.mk.injEq] at hparts
  refine ⟨?_, hparts.2⟩
  rw [← Nat.ofDigitChars_ten_toDigits (n := s.depth), hparts.1, Nat.ofDigitChars_ten_toDigits]

/-- **A line tells its step**, if the symbols of the form can be declared: a blank after the form
can only begin the mark. -/
theorem Step.eq_of_line_eq {s s' : Step} (hs : s.Usable) (hs' : s'.Usable)
    (h : s.line = s'.line) : s = s' := by
  obtain ⟨hdepth, hrest⟩ := parts_of_line_eq h
  have hmatch : s.isMatch = s'.isMatch := by
    rw [Bool.eq_iff_iff, isMatch_iff_mem hs, isMatch_iff_mem hs', hrest]
  have hmark : s.mark = s'.mark := by rw [mark, mark, hmatch]
  rw [hmark] at hrest
  have hform := Form.text_inj hs hs' (List.append_cancel_right hrest)
  cases s
  cases s'
  simp_all only

/-- The lines of a trace tell these steps, each a depth, a form and whether there is a mark. -/
def Tells (trace : List Text) (steps : List Step) : Prop :=
  (∀ s ∈ steps, s.Usable) ∧ trace = steps.map Step.line

/-- **A trace can be read in one way only.** -/
theorem Tells.unique {trace : List Text} {steps steps' : List Step} (h : Tells trace steps)
    (h' : Tells trace steps') : steps = steps' := by
  obtain ⟨hu, rfl⟩ := h
  obtain ⟨hu', hmap⟩ := h'
  induction steps generalizing steps' with
  | nil => exact (List.map_eq_nil_iff.mp hmap.symm).symm
  | cons s steps ih =>
    cases steps' with
    | nil => cases hmap
    | cons s' steps' =>
      obtain ⟨hline, hrest⟩ := List.cons.inj hmap
      rw [List.forall_mem_cons] at hu hu'
      rw [Step.eq_of_line_eq hu.1 hu'.1 hline, ih hu.2 hu'.2 hrest]

end Search

end FormalGrammar
