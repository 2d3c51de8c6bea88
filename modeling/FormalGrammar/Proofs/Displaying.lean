import FormalGrammar.Grammar.Edit
import FormalGrammar.Proofs.Computations

/-!
# Values with a text

A value has a text unless it is an integer of too many digits, or has one inside
(`Value.failsWith_display`). An edit is put into words with the texts of its values
(`Edit.exists_words`), and those of an edit that is accepted have texts (`Edit.hasText_of_outcome?`).
-/

namespace FormalGrammar

/-- Why a value has no text. -/
def Fault.IsTooLong (f : Fault) : Prop := f = .numeralTooLong

open Fault

theorem failsWith_numeral (n : Int) : FailsWith IsTooLong (numeral n) := by
  unfold numeral
  split
  · exact .ok _
  · exact .error rfl

/-! ## Values -/

namespace Value

def HasText (v : Value) : Prop := ∃ t, v.display = .ok t

theorem hasText_text (t : Text) : (text t).HasText := ⟨t, display_text t⟩

mutual

theorem failsWith_quoted : ∀ v : Value, FailsWith IsTooLong v.quoted
  | int n => by
    rw [quoted]
    exact failsWith_numeral n
  | list vs => by
    rw [quoted]
    exact (failsWith_quotedAll vs).bind fun _ _ => .ok _
  | tuple vs => by
    rw [quoted]
    refine (failsWith_quotedAll vs).bind fun shown _ => ?_
    split
    · exact .ok _
    · exact .ok _
  | map ps => by
    rw [quoted]
    exact (failsWith_quotedPairs ps).bind fun _ _ => .ok _
  | absent | bool _ | real _ | text _ | bytes _ | opaqueObject | document _ | tree _ | node _
  | verdict _ | level _ | zone _ | fault _ | grammar _ | log _ => by
    rw [quoted]
    exact .ok _

theorem failsWith_quotedAll : ∀ vs : List Value, FailsWith IsTooLong (quotedAll vs)
  | [] => by
    rw [quotedAll]
    exact .ok _
  | v :: vs => by
    rw [quotedAll]
    exact (failsWith_quoted v).bind fun _ _ => (failsWith_quotedAll vs).bind fun _ _ => .ok _

theorem failsWith_quotedPairs : ∀ ps : List (Value × Value), FailsWith IsTooLong (quotedPairs ps)
  | [] => by
    rw [quotedPairs]
    exact .ok _
  | (k, v) :: rest => by
    rw [quotedPairs]
    exact (failsWith_quoted k).bind fun _ _ => (failsWith_quoted v).bind fun _ _ =>
      (failsWith_quotedPairs rest).bind fun _ _ => .ok _

end

/-- **Only an integer of too many digits keeps a value from having a text.** -/
theorem failsWith_display (v : Value) : FailsWith IsTooLong v.display := by
  unfold display
  split
  case h_8 => exact failsWith_quoted v
  all_goals exact .ok _

end Value

/-- A scalar has a text unless it is an integer of too many digits itself. -/
theorem Scalar.hasText_iff {v : Scalar} :
    (Value.ofScalar v).HasText ↔ ∀ n, v = .int n → Numeral.Integer.IsShort n := by
  cases v with
  | int n =>
    by_cases hn : Numeral.Integer.IsShort n <;>
      simp [Value.HasText, Value.ofScalar, numeral, hn]
  | none | bool _ | level _ | real _ | text _ =>
    exact ⟨fun _ _ => nofun, fun _ => ⟨_, rfl⟩⟩

/-! ## Edits -/

namespace Edit

theorem failsWith_text (e : Edit) : FailsWith IsTooLong e.text := by
  cases e with
  | terminal v | nonterminal v | start v => exact v.failsWith_display.bind fun _ _ => .ok _
  | production lhs rhs =>
    exact lhs.failsWith_display.bind fun _ _ => rhs.failsWith_display.bind fun _ _ => .ok _

def values : Edit → List Value
  | terminal v | nonterminal v | start v => [v]
  | production lhs rhs => [lhs, rhs]

variable {e : Edit}

/-- Both what an edit is about and its refusal are put into words with the texts of its values. -/
theorem exists_words (h : ∀ v ∈ e.values, v.HasText) :
    (∃ t, e.text = .ok t) ∧ ∃ f, e.refusal = .ok f := by
  cases e with
  | terminal v | nonterminal v | start v =>
    obtain ⟨t, ht⟩ := h v List.mem_cons_self
    simp only [text, refusal, ht]
    exact ⟨⟨_, rfl⟩, _, rfl⟩
  | production lhs rhs =>
    obtain ⟨left, hl⟩ := h lhs List.mem_cons_self
    obtain ⟨right, hr⟩ := h rhs (List.mem_cons_of_mem _ List.mem_cons_self)
    simp only [text, refusal, hl, hr]
    exact ⟨⟨_, rfl⟩, _, rfl⟩

/-- An accepted edit names texts. -/
theorem hasText_of_outcome? {g g' : Grammar} (h : e.outcome? g = some g') :
    ∀ v ∈ e.values, v.HasText := by
  unfold outcome? at h
  split at h
  case h_5 => cases h
  all_goals simp [values, Value.hasText_text]

end Edit

end FormalGrammar
