import Unroll.Checker.Actions
import Unroll.Main
import Unroll.Proofs.Check.Steps
import Unroll.Proofs.Accepted
import Unroll.Proofs.Check.Onward
import Unroll.Proofs.Check.Outline
import Unroll.Proofs.Check.Passes
import Unroll.Proofs.Check.Whole
import Unroll.Proofs.Grammar.Reading
import Unroll.Proofs.Machine.Steps
import Unroll.Proofs.Reference
import Unroll.Proofs.Reference.Expressions
import Unroll.Proofs.Reference.Program
import Unroll.Proofs.Check.SpelledBack
import Unroll.Proofs.Grammar.Printed
import Unroll.Proofs.Check.Depths
import Unroll.Proofs.Check.OneMeaning
import Unroll.Proofs.Check.Order
import Unroll.Proofs.Check.Limits
import Unroll.Proofs.Check.Extraction
import Unroll.Proofs.Check.Placeholders
import Unroll.Proofs.Machine.Reuse
import Unroll.Proofs.Machine.CallDepth
import Unroll.Proofs.Machine.Soundness
import Unroll.Proofs.Grammar.Lines
import Unroll.Proofs.Token.Structure
import Unroll.Proofs.Check.Broadcasts
import Unroll.Proofs.Check.Registered
import Unroll.Proofs.Check.Diagnostics
import Unroll.Proofs.Token.Located
import Unroll.Proofs.Token.Trivia
import Unroll.Proofs.Token.Spelled
import Unroll.Proofs.Machine.Constants
import Unroll.Proofs.Token.Escapes
import Unroll.Proofs.Grammar.Placed
import Unroll.Proofs.Printing.Program
import Unroll.Proofs.Mangling
import Unroll.Proofs.Check.Decided
import Unroll.Proofs.Check.Deduction
import Unroll.Proofs.Stepwise
import Unroll.Proofs.Check.Reachable
import Unroll.Proofs.Grammar.Ending
import Unroll.Proofs.Token.Literals
