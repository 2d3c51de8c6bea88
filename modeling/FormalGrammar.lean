import FormalGrammar.Fault.Describe
import FormalGrammar.Log.Open
import FormalGrammar.Main
import FormalGrammar.Proofs.Accepting
import FormalGrammar.Proofs.Backtracking
import FormalGrammar.Proofs.Blaming
import FormalGrammar.Proofs.Bounds
import FormalGrammar.Proofs.Composing
import FormalGrammar.Proofs.Cropping
import FormalGrammar.Proofs.Cuts
import FormalGrammar.Proofs.Lengths
import FormalGrammar.Proofs.Levels
import FormalGrammar.Proofs.Loading
import FormalGrammar.Proofs.Logging
import FormalGrammar.Proofs.PlainSearch
import FormalGrammar.Proofs.Preorder
import FormalGrammar.Proofs.Reading
import FormalGrammar.Proofs.Repeating
import FormalGrammar.Proofs.Restoring
import FormalGrammar.Proofs.Saving
import FormalGrammar.Tree.Build
import FormalGrammar.Value.Symbol
