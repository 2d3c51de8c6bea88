import FormalGrammar.Text.Basic

/-! # Line endings -/

namespace FormalGrammar.Text

/-- End every line with a line feed, whichever of the three usual line endings it has. -/
def normalizeNewlines : Text → Text
  | '\r' :: '\n' :: r => '\n' :: normalizeNewlines r
  | '\r' :: r => '\n' :: normalizeNewlines r
  | c :: r => c :: normalizeNewlines r
  | [] => []

end FormalGrammar.Text
