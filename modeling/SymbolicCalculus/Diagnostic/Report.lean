import SymbolicCalculus.Diagnostic.Basic

/-! # Reports

A report shows a diagnostic on a terminal: the headline, and for a single span
a frame with the source line, the span underlined in it, its label and the
help. Reports are given line by line as they look, without colours and without
blanks at the ends of lines.
-/

namespace SymbolicCalculus

/-- The length of a colour sequence after its escape character: an opening
bracket, numbers separated by semicolons, and the letter `m`. -/
def colorLength? : List Char → Option Nat
  | '[' :: rest =>
      let parameters := rest.takeWhile fun c => c.isDigit || c == ';'
      if rest[parameters.length]? = some 'm' then some (parameters.length + 2) else none
  | _ => none

/-- Remove the colour sequences of a text, of which the first `skipped`
characters belong to one. Any other escape character stays. -/
def dropColors : Nat → List Char → List Char
  | _, [] => []
  | skipped + 1, _ :: rest => dropColors skipped rest
  | 0, c :: rest =>
      match if c == '\x1b' then colorLength? rest else none with
      | some length => dropColors length rest
      | none => c :: dropColors 0 rest

/-- Cut a text at its line feeds. -/
def cutLines : List Char → List (List Char)
  | [] => [[]]
  | c :: rest =>
      match cutLines rest with
      | line :: lines => if c == '\n' then [] :: line :: lines else (c :: line) :: lines
      | [] => []

/-- A line as it looks: without the carriage return that ends it and without
blanks before that. -/
def trimLine (line : List Char) : List Char :=
  let line := if line.getLast? = some '\r' then line.dropLast else line
  (line.reverse.dropWhile (· == ' ')).reverse

/-- The lines of a text as they look. -/
def visibleLines (text : String) : List String :=
  (cutLines text.toList).map fun line => String.ofList (trimLine line)

/-- The lines of a text as they look once its colours are gone. -/
def plainLines (text : String) : List String :=
  visibleLines (String.ofList (dropColors 0 text.toList))

/-- A character repeated. -/
def row (count : Nat) (c : Char) : String := String.ofList (List.replicate count c)

namespace Span

/-- The place within a span where the connector of its label starts. -/
def connector (span : Span) : Nat := span.length / 2

/-- The two rows below a source line. With a label, the underline has a
connector in its middle, from which the second row leads to the label. -/
def annotation (span : Span) : Option String → String × String
  | some label =>
      let before := span.connector
      let after := span.length - before - 1
      (row span.start ' ' ++ row before '─' ++ "┬" ++ row after '─',
        row (span.start + before) ' ' ++ "╰" ++ row (after + 2) '─' ++ " " ++ label)
  | none => (row span.start ' ' ++ row span.length '─', "")

end Span

namespace Diagnostic

/-- The label of the first span. Empty labels are not shown. -/
def firstLabel? (d : Diagnostic) : Option String :=
  match d.cause.labels with
  | label :: _ => if label.isEmpty then none else some label
  | [] => none

/-- The lines of the report on a one-line source text called `id`. Without a
span only the headline is left. With several spans the report is cut after its
second line. The source is written one character at a time, so colour sequences
in it are not effective and stay; all other texts may bring colours and lines
of their own. -/
def report (id source : String) (d : Diagnostic) : List String :=
  let headline := "Error: " ++ d.message
  let place (span : Span) := "   ╭─[" ++ id ++ ":1:" ++ toString (span.start + 1) ++ "]"
  match d.spans with
  | [] => plainLines headline
  | [span] =>
      let (underline, second) := span.annotation d.firstLabel?
      let help :=
        match d.cause.help? with
        | some help => ["   │", "   │ Help: " ++ help]
        | none => []
      [headline, place span, "   │"].flatMap plainLines ++ visibleLines (" 1 │ " ++ source) ++
        (["   │ " ++ underline, "   │ " ++ second] ++ help ++ ["───╯"]).flatMap plainLines
  | span :: _ => ([headline, place span].flatMap plainLines).take 2

end Diagnostic

end SymbolicCalculus
