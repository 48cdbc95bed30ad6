import SymbolicCalculus.Expr.Rendering

/-! # Diagnostics

A diagnostic is a cause together with the spans of the source text that it
points at. The cause alone decides the message, the labels of the spans and the
help.
-/

namespace SymbolicCalculus

/-- The node that has no symbolic derivative. -/
structure Unimplemented where
  tag : Tag
  path : Path
deriving DecidableEq

/-- Why a diagnostic arises. -/
inductive Cause where
  /-- A node of an expression has no symbolic derivative. -/
  | unimplemented (node : Unimplemented)
  /-- A fault that a message alone describes. -/
  | bare (message : String)
  /-- A fault with a label for each span and advice. -/
  | full (message : String) (labels : List String) (help : Option String)
deriving DecidableEq

/-- Text between the escape sequences that show it in a colour on a terminal. -/
def colored (red green blue : Nat) (text : String) : String :=
  "\x1b[38;2;" ++ toString red ++ ";" ++ toString green ++ ";" ++ toString blue ++ "m" ++
    text ++ "\x1b[0m"

namespace Cause

/-- The headline of a diagnostic. -/
def message : Cause → String
  | unimplemented node => "cannot differentiate `" ++ node.tag.word ++ "` symbolically"
  | bare message => message
  | full message _ _ => message

/-- The labels of the spans, in their order. -/
def labels : Cause → List String
  | unimplemented node => ["this `" ++ node.tag.word ++ "` node"]
  | bare _ => []
  | full _ labels _ => labels

/-- What can be done about the fault. -/
def help? : Cause → Option String
  | unimplemented node =>
      some ("differentiation is not implemented for " ++
        colored 52 235 152 (node.tag.word ++ "(...)") ++ "; remove it from the expression")
  | bare _ => none
  | full _ _ help => help

def isBare : Cause → Bool
  | bare _ => true
  | _ => false

def isFull : Cause → Bool
  | full _ _ _ => true
  | _ => false

/-- The node without a derivative, if that is the cause. -/
def unimplemented? : Cause → Option Unimplemented
  | unimplemented node => some node
  | _ => none

end Cause

/-- A fault in a source text. -/
structure Diagnostic where
  spans : List Span
  cause : Cause
deriving DecidableEq

def Diagnostic.message (d : Diagnostic) : String := d.cause.message

/-- Items in square brackets. -/
def bracketed (items : List String) : String := "[" ++ ", ".intercalate items ++ "]"

/-- A path in messages. -/
def pathText (path : Path) : String := bracketed (path.map toString)

/-- All fields of a diagnostic about this node. -/
def Unimplemented.fieldText (spans : List Span) (node : Unimplemented) : String :=
  "Error \x7b spans: " ++
    bracketed (spans.map fun span => toString span.start ++ ".." ++ toString span.stop) ++
    ", kind: UnimplementedOperation \x7b tag: " ++ node.tag.name ++
    ", path: " ++ pathText node.path ++ " \x7d \x7d"

end SymbolicCalculus
