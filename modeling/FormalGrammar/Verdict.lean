import FormalGrammar.Text.Basic

/-! # The outcome of an analysis, and its texts -/

namespace FormalGrammar

inductive Verdict where
  /-- A derivation of the word was found. -/
  | member
  /-- No derivation exists. -/
  | nonMember
  /-- No derivation was found within the bound, and the bound was the reason. -/
  | inconclusive
  | invalidGrammar
  /-- The search was broken off by a fault. -/
  | error
  deriving DecidableEq, Repr

namespace Verdict

def text : Verdict → String
  | member => "member"
  | nonMember => "non-member"
  | inconclusive => "inconclusive"
  | invalidGrammar => "invalid grammar"
  | error => "error"

def name : Verdict → String
  | member => "MEMBER"
  | nonMember => "NON_MEMBER"
  | inconclusive => "INCONCLUSIVE"
  | invalidGrammar => "INVALID_GRAMMAR"
  | error => "ERROR"

def all : List Verdict := [member, nonMember, inconclusive, invalidGrammar, error]

def ofName? (s : String) : Option Verdict := all.find? fun v => v.name = s

end Verdict

end FormalGrammar
