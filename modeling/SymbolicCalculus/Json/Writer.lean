import SymbolicCalculus.Json.Basic
import SymbolicCalculus.Number.Layout

/-! # Writing JSON

The text of a JSON value without blanks.
-/

namespace SymbolicCalculus.Json

/-- A character inside a string. Quotes, backslashes and control characters are
escaped. -/
def escaped (c : Char) : List Char :=
  if c == '"' then ['\\', '"']
  else if c == '\\' then ['\\', '\\']
  else if c.toNat < 0x20 then
    '\\' :: 'u' :: paddedDigits 16 4 c.toNat
  else [c]

/-- A text as a JSON string. -/
def quoted (text : String) : String :=
  String.ofList ('"' :: text.toList.flatMap escaped ++ ['"'])

mutual

/-- Write a value after `out`. -/
def writeAfter (out : String) : Json → String
  | null => out ++ "null"
  | bool value => out ++ (if value then "true" else "false")
  | integer value => out ++ toString value
  | number value =>
      out ++ (if value.isFinite then String.ofList (NumberLayout.explicit.number value)
        else "null")
  | string value => out ++ quoted value
  | array [] => out ++ "[]"
  | array (first :: rest) => writeElements (writeAfter (out ++ "[") first) rest ++ "]"
  | object [] => out ++ "\x7b\x7d"
  | object ((name, value) :: rest) =>
      writeMembers (writeAfter (out ++ "\x7b" ++ quoted name ++ ":") value) rest ++ "\x7d"

/-- Write elements after a first one. -/
def writeElements (out : String) : List Json → String
  | [] => out
  | value :: rest => writeElements (writeAfter (out ++ ",") value) rest

/-- Write members after a first one. -/
def writeMembers (out : String) : List (String × Json) → String
  | [] => out
  | (name, value) :: rest =>
      writeMembers (writeAfter (out ++ "," ++ quoted name ++ ":") value) rest

end

/-- The text of a value. -/
def write (value : Json) : String := writeAfter "" value

end SymbolicCalculus.Json
