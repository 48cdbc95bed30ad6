import SymbolicCalculus.Number.Rounding

/-! # JSON values

JSON trees. A number is an integer, or a binary64 number where its text has a
fraction or an exponent.
-/

namespace SymbolicCalculus

/-- A JSON value. Objects keep the order of their members. -/
inductive Json where
  | null
  | bool (value : Bool)
  | integer (value : Int)
  | number (value : Binary64)
  | string (value : String)
  | array (elements : List Json)
  | object (members : List (String × Json))
deriving Inhabited

namespace Json

/-- The member of an object with the given name. -/
def member? (name : String) : Json → Option Json
  | object members => members.lookup name
  | _ => none

def string? : Json → Option String
  | string value => some value
  | _ => none

def array? : Json → Option (List Json)
  | array elements => some elements
  | _ => none

/-- A nonnegative integer. -/
def nat? : Json → Option Nat
  | integer (.ofNat value) => some value
  | _ => none

/-- The number nearest to a JSON number, if it has one in range. -/
def binary64? : Json → Option Binary64
  | integer value => if (Binary64.ofInt value).isFinite then some (.ofInt value) else none
  | number value => if value.isFinite then some value else none
  | _ => none

end Json

end SymbolicCalculus
