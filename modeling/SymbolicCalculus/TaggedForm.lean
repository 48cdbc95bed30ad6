import SymbolicCalculus.Derivative.Step
import SymbolicCalculus.Expr.Basic
import SymbolicCalculus.Json.Basic

/-! # Tagged form

Expressions, tags and steps as JSON values. A value without content is the
string of its name; one with content is an object whose only member has that
name. Two children are an array of two. A name without content may also be
written as an object whose member is null.
-/

namespace SymbolicCalculus

/-- The name in a value that has no content. -/
def Json.unitName? : Json → Option String
  | .string name => some name
  | .object [(name, .null)] => some name
  | _ => none

def Tag.toJson (tag : Tag) : Json := .string tag.name

def Tag.ofJson? (value : Json) : Option Tag := value.unitName?.bind Tag.ofName?

def Step.toJson (step : Step) : Json := .string step.name

def Step.ofJson? (value : Json) : Option Step := value.unitName?.bind Step.ofName?

namespace Expr

/-- JSON has no infinities and NaNs: they become null and cannot be read. -/
def toJson : Expr → Json
  | constant value =>
      .object [(Tag.constant.name, if value.isFinite then .number value else .null)]
  | var => .string Tag.var.name
  | negate f => .object [(Tag.negate.name, f.toJson)]
  | apply function f => .object [(function.name, f.toJson)]
  | binary operator f g => .object [(operator.name, .array [f.toJson, g.toJson])]

/-- The expression with the given tag and two children. -/
def ofPair? (tag : Option Tag) (f g : Option Expr) : Option Expr :=
  match tag, f, g with
  | some (.operator operator), some f, some g => some (.binary operator f g)
  | _, _, _ => none

/-- The expression with the given tag and one child. -/
def ofChild? (tag : Option Tag) (f : Option Expr) : Option Expr :=
  match tag, f with
  | some .negate, some f => some (.negate f)
  | some (.function function), some f => some (.apply function f)
  | _, _ => none

/-- The constant of a JSON number, if the tag is that of constants. -/
def ofNumber? (tag : Option Tag) (value : Json) : Option Expr :=
  match tag with
  | some .constant => value.binary64?.map .constant
  | _ => none

/-- The variable, if the tag is its. -/
def ofUnit? (tag : Option Tag) : Option Expr :=
  match tag with
  | some .var => some .var
  | _ => none

/-- The expression that a JSON value stands for. -/
def ofJson? : Json → Option Expr
  | .string name => ofUnit? (Tag.ofName? name)
  | .object [(name, .null)] => ofUnit? (Tag.ofName? name)
  | .object [(name, .integer value)] => ofNumber? (Tag.ofName? name) (.integer value)
  | .object [(name, .number value)] => ofNumber? (Tag.ofName? name) (.number value)
  | .object [(name, .array [f, g])] => ofPair? (Tag.ofName? name) (ofJson? f) (ofJson? g)
  | .object [(name, content)] => ofChild? (Tag.ofName? name) (ofJson? content)
  | _ => none

end Expr

end SymbolicCalculus
