/-! # Node tags

The operators and functions that an expression may apply, and the tags that
name kinds of nodes.
-/

namespace SymbolicCalculus

/-- The operators with two operands. -/
inductive Operator where
  | add
  | subtract
  | multiply
  | divide
  | power
deriving DecidableEq

/-- The named functions of one argument. -/
inductive NamedFunction where
  | sin
  | cos
  | tan
  | exp
  | ln
  | sqrt
deriving DecidableEq

/-- The kind of a node. No node has the tag `null`, which stands for a
derivative that is exactly zero. -/
inductive Tag where
  | null
  | constant
  | var
  | negate
  | operator (operator : Operator)
  | function (function : NamedFunction)
deriving DecidableEq

namespace Operator

/-- The name of the operator's nodes in data. -/
def name : Operator → String
  | add => "Add"
  | subtract => "Subtract"
  | multiply => "Multiply"
  | divide => "Divide"
  | power => "Power"

/-- The word for the operator in messages. -/
def word : Operator → String
  | add => "add"
  | subtract => "subtract"
  | multiply => "multiply"
  | divide => "divide"
  | power => "power"

/-- The operator between its operands. -/
def symbol : Operator → String
  | add => " + "
  | subtract => " - "
  | multiply => " * "
  | divide => " / "
  | power => "^"

end Operator

namespace NamedFunction

/-- The name of the function's nodes in data. -/
def name : NamedFunction → String
  | sin => "Sin"
  | cos => "Cos"
  | tan => "Tan"
  | exp => "Exp"
  | ln => "Ln"
  | sqrt => "Sqrt"

/-- The name of the function in an expression. -/
def symbol : NamedFunction → String
  | sin => "sin"
  | cos => "cos"
  | tan => "tan"
  | exp => "exp"
  | ln => "ln"
  | sqrt => "sqrt"

end NamedFunction

namespace Tag

/-- All tags. -/
def all : List Tag :=
  [null, constant, var, negate,
    operator .add, operator .subtract, operator .multiply, operator .divide, operator .power,
    function .sin, function .cos, function .tan, function .exp, function .ln, function .sqrt]

theorem mem_all (tag : Tag) : tag ∈ all := by
  rcases tag with _ | _ | _ | _ | operator | function
  all_goals first | decide | (cases operator <;> decide) | (cases function <;> decide)

/-- The name of the tag in data. -/
def name : Tag → String
  | null => "Null"
  | constant => "Constant"
  | var => "Variable"
  | negate => "Negate"
  | operator o => o.name
  | function f => f.name

/-- The word for the tag in messages. -/
def word : Tag → String
  | null => "null"
  | constant => "constant"
  | var => "variable"
  | negate => "negate"
  | operator o => o.word
  | function f => f.symbol

/-- The tag with the given name. -/
def ofName? (name : String) : Option Tag := all.find? (·.name == name)

/-- The number of children of a node with this tag. -/
def arity : Tag → Nat
  | null | constant | var => 0
  | negate | function _ => 1
  | operator _ => 2

/-- The name under which the tag's nodes are applied, if it is a function's. -/
def functionName? : Tag → Option String
  | function f => some f.symbol
  | _ => none

end Tag

end SymbolicCalculus
