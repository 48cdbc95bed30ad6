import SymbolicCalculus.Expr.Basic
import SymbolicCalculus.Number.Layout

/-! # Constructor text

The text that spells out the tree of an expression, each node by the name of
its tag with its children in parentheses: `Add(Variable, Constant(1.0))`.
-/

namespace SymbolicCalculus

namespace Expr

/-- Write the constructor text of an expression in front of `rest`. -/
def constructorChars : Expr → List Char → List Char
  | constant value, rest =>
      "Constant(".toList ++ NumberLayout.explicit.number value ++ ')' :: rest
  | var, rest => "Variable".toList ++ rest
  | negate f, rest => "Negate(".toList ++ f.constructorChars (')' :: rest)
  | apply function f, rest =>
      function.name.toList ++ '(' :: f.constructorChars (')' :: rest)
  | binary operator f g, rest =>
      operator.name.toList ++ '(' ::
        f.constructorChars (',' :: ' ' :: g.constructorChars (')' :: rest))

def constructorText (e : Expr) : String := String.ofList (e.constructorChars [])

end Expr

end SymbolicCalculus
