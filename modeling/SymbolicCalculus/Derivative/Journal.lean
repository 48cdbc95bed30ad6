import SymbolicCalculus.Derivative.Rules
import SymbolicCalculus.Diagnostic.Basic

/-! # Log records

A run of the rules is logged node by node. Records hold the expressions they
speak of; texts are made only when a record is read.
-/

namespace SymbolicCalculus

/-- The severity of a record, from the gravest down. -/
inductive Level where
  | error
  | warn
  | info
  | debug
  | trace
deriving DecidableEq

namespace Level

def name : Level → String
  | error => "ERROR"
  | warn => "WARN"
  | info => "INFO"
  | debug => "DEBUG"
  | trace => "TRACE"

/-- How much must be asked for to see records of this level. -/
def verbosity : Level → Nat
  | error => 1
  | warn => 2
  | info => 3
  | debug => 4
  | trace => 5

end Level

/-- What the log says of a run. -/
inductive Record where
  /-- A node was settled by a rule. -/
  | finished (step : Step) (node : Expr) (derivative : Derivative)
  /-- The run ended at a node of `root` that has no derivative. -/
  | failed (root : Expr) (node : Unimplemented)
deriving DecidableEq

namespace Record

def level : Record → Level
  | finished _ _ _ => .trace
  | failed _ _ => .debug

def message : Record → String
  | finished step node derivative =>
      step.name ++ ": (" ++ node.text ++ ")' = " ++ derivative.text
  | failed root node =>
      "cannot differentiate `" ++ node.tag.word ++ "` in `" ++ root.text ++ "` (path " ++
        pathText node.path ++ ")"

end Record

end SymbolicCalculus
