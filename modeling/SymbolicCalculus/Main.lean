import SymbolicCalculus.Demonstration

/-! # Command line

The demonstration as a program. It always succeeds.
-/

def main (arguments : List String) : IO UInt32 := do
  let transcript := SymbolicCalculus.Demonstration.transcript arguments
  for line in transcript.output do
    IO.println line
  for line in transcript.errors do
    IO.eprintln line
  return 0
