import SymbolicCalculus.Proofs.Derivative.Location
import SymbolicCalculus.Proofs.Derivative.Trace

/-! # Log records

The log of a run is aligned with the steps that it collects. Each finished node
leaves one step and one record, and the record shows the derivative that the node
has on its own. A run that fails ends its log with a record of the failure.
-/

namespace SymbolicCalculus

namespace Settlement

variable {p : Position}

end Settlement

namespace Expr

variable {e : Expr} {path : Path}

section Settlements

end Settlements

section Log

example :
    ((multiply (apply .sin var) (apply .ln var)).derivativeWithSteps ()).2.log.toList.map
        Record.message =
      ["Variable: (x)' = 1", "Sin: (sin(x))' = cos(x)",
        "cannot differentiate `ln` in `sin(x) * ln(x)` (path [1])"] := by
  decide +kernel

end Log

end Expr

end SymbolicCalculus
