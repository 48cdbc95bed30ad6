import SymbolicCalculus.Derivative.Differentiate
import SymbolicCalculus.Diagnostic.Report
import SymbolicCalculus.Expr.PostOrder

/-! # Demonstration

The program differentiates a fixed list of expressions, prints the derivatives
with the rules applied, and reports the one that has none. How much of the log
it prints between the results is chosen by the first argument.
-/

namespace SymbolicCalculus.Demonstration

open SymbolicCalculus.Expr

/-- The expressions shown, in order. -/
def expressions : List Expr :=
  [add (add (power var (integer 3)) (multiply (integer 5) var)) (integer 6),
    multiply (apply .sin var) var,
    divide (apply .sin var) var,
    apply .cos (multiply var var),
    apply .sqrt (add (apply .exp var) (integer 1)),
    power var var,
    multiply (integer 2) (integer 3),
    multiply var (apply .ln var)]

/-- The verbosity chosen by the arguments. Without a known level it is that of
information. -/
def verbosity : List String → Nat
  | "trace" :: _ => Level.trace.verbosity
  | "debug" :: _ => Level.debug.verbosity
  | "warn" :: _ => Level.warn.verbosity
  | "error" :: _ => Level.error.verbosity
  | "off" :: _ => 0
  | _ => Level.info.verbosity

/-- The lines that a program has printed. -/
structure Transcript where
  output : List String := []
  errors : List String := []
deriving DecidableEq

def Transcript.append (a b : Transcript) : Transcript :=
  ⟨a.output ++ b.output, a.errors ++ b.errors⟩

/-- A log line, if the verbosity admits its level. -/
def logLine (verbosity : Nat) (level : Level) (message : String) : List String :=
  if level.verbosity ≤ verbosity then ["[" ++ level.name ++ "] " ++ message] else []

/-- What is printed for one expression. -/
def display (verbosity : Nat) (e : Expr) : Transcript :=
  let input := e.text
  let (result, progress) := e.derivativeWithSteps (#[] : Array Step)
  let records := progress.log.toList.flatMap fun record =>
    logLine verbosity record.level record.message
  let rules := "  rules applied: " ++ bracketed (progress.collector.toList.map Step.name)
  match result with
  | .ok .zero => { output := records ++ ["(" ++ input ++ ")' = 0", rules] }
  | .ok (.expr derivative) =>
      let sizes := toString e.complexity ++ " nodes in, " ++ toString derivative.complexity ++
        " nodes out"
      { output := records ++ ["(" ++ input ++ ")' = " ++ derivative.text] ++
          logLine verbosity .info sizes ++ [rules] }
  | .error diagnostic =>
      { output := records ++ logLine verbosity .warn ("skipping `" ++ input ++ "`")
        errors := diagnostic.report "input" input }

/-- What the program prints when it is started with the given arguments. -/
def transcript (arguments : List String) : Transcript :=
  (expressions.map (display (verbosity arguments))).foldl .append {}

end SymbolicCalculus.Demonstration
