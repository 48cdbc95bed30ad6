import SymbolicCalculus.Demonstration
import SymbolicCalculus.Json.Reader
import SymbolicCalculus.Json.Writer
import SymbolicCalculus.Main
import SymbolicCalculus.Proofs.Derivative.Collectors
import SymbolicCalculus.Proofs.Derivative.Dispatch
import SymbolicCalculus.Proofs.Derivative.Growth
import SymbolicCalculus.Proofs.Derivative.Introduced
import SymbolicCalculus.Proofs.Derivative.Location
import SymbolicCalculus.Proofs.Derivative.Parametricity
import SymbolicCalculus.Proofs.Derivative.Records
import SymbolicCalculus.Proofs.Derivative.Repetition
import SymbolicCalculus.Proofs.Derivative.Soundness
import SymbolicCalculus.Proofs.Derivative.Trace
import SymbolicCalculus.Proofs.Diagnostic.Pointing
import SymbolicCalculus.Proofs.Expr.Nesting
import SymbolicCalculus.Proofs.Expr.Parentheses
import SymbolicCalculus.Proofs.Expr.Reading
import SymbolicCalculus.Proofs.Expr.Replacement
import SymbolicCalculus.Proofs.Expr.SharedText
import SymbolicCalculus.Proofs.Json.TaggedForm
import SymbolicCalculus.Session
import SymbolicCalculus.TaggedForm
