import SymbolicCalculus.Derivative.Differentiate
import SymbolicCalculus.Expr.PostOrder
import SymbolicCalculus.Expr.ReversePolish

/-! # Sessions

A session works on a stack of expressions and collects the steps of every
derivative it takes. A command that cannot run is rejected and changes nothing.
-/

namespace SymbolicCalculus

inductive Command where
  | build (builder : Builder)
  | constant (word : String)
  | load (text : String)
  | copy
  | over
  | swap
  | drop
  | equals
  | tag
  | complexity
  | get (path : Path)
  | differentiate
  | unknown (name : String)
deriving DecidableEq

/-- The command of the given name; `text` and `path` are its argument if it
takes one of that kind. -/
def Command.named (name text : String) (path : Path) : Command :=
  match Builder.ofWord? name with
  | some builder => .build builder
  | none =>
      match name with
      | "const" | "from" => .constant text
      | "load" => .load text
      | "copy" => .copy
      | "over" => .over
      | "swap" => .swap
      | "drop" => .drop
      | "eq" => .equals
      | "tag" => .tag
      | "complexity" => .complexity
      | "get" => .get path
      | "diff" => .differentiate
      | _ => .unknown name

/-- Why a command is rejected. -/
inductive Rejection where
  | reading (error : ReadingError)
  | unknownCommand (name : String)
deriving DecidableEq

def Rejection.message : Rejection → String
  | reading error => error.message
  | unknownCommand name => "unknown command `" ++ name ++ "`"

/-- What a command answers. -/
inductive Response where
  | done
  | truth (value : Bool)
  | word (text : String)
  | count (value : Nat)
  | failed (diagnostic : Diagnostic)
  | rejected (reason : Rejection)
deriving DecidableEq

/-- The stack, its top first, and the steps collected so far. -/
structure Session where
  stack : List Expr := []
  steps : Array Step := #[]
deriving DecidableEq

namespace Session

/-- Replace the stack. -/
def withStack (session : Session) (stack : List Expr) : Session := { session with stack }

/-- Run one command. Missing operands are noticed before anything else; an
unknown command counts as one with a single operand. -/
def run (session : Session) (command : Command) : Response × Session :=
  let underflow := (.rejected (.reading .stackUnderflow), session)
  match command, session.stack with
  | .build builder, stack =>
      match builder.run? stack with
      | some stack => (.done, session.withStack stack)
      | none => underflow
  | .constant word, stack =>
      match Binary64.ofWord? word with
      | some value => (.done, session.withStack (.constant value :: stack))
      | none => (.rejected (.reading (.unknownToken word)), session)
  | .load text, stack =>
      match Expr.ofReversePolish text with
      | .ok e => (.done, session.withStack (e :: stack))
      | .error error => (.rejected (.reading error), session)
  | .copy, e :: rest => (.done, session.withStack (e :: e :: rest))
  | .over, e :: second :: rest => (.done, session.withStack (second :: e :: second :: rest))
  | .swap, e :: second :: rest => (.done, session.withStack (second :: e :: rest))
  | .drop, _ :: rest => (.done, session.withStack rest)
  | .equals, e :: second :: _ => (.truth (e.equals second), session)
  | .tag, e :: _ => (.word e.tag.word, session)
  | .complexity, e :: _ => (.count e.complexity, session)
  | .get path, e :: rest =>
      match e.get? path with
      | some node => (.truth true, session.withStack (node :: e :: rest))
      | none => (.truth false, session)
  | .differentiate, e :: rest =>
      let (result, progress) := e.derivativeWithSteps session.steps
      match result with
      | .ok derivative =>
          (.word derivative.tag.name, ⟨derivative.toExpr :: rest, progress.collector⟩)
      | .error diagnostic => (.failed diagnostic, ⟨e :: rest, progress.collector⟩)
  | .unknown name, _ :: _ => (.rejected (.unknownCommand name), session)
  | _, _ => underflow

/-- Run commands in order, with the response to each and the session after it. -/
def runAll (session : Session) : List Command → List (Response × Session)
  | [] => []
  | command :: rest =>
      let answer := session.run command
      answer :: answer.2.runAll rest

end Session

end SymbolicCalculus
