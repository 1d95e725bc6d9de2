import TypedGrammar.Demo.Arithmetic
import TypedGrammar.Demo.Pruning

/-!
# The command line

The first argument names a demonstration, `arith` or `constraints`; the others are its own. Warnings
carry the time since the program started.
-/

namespace TypedGrammar.Program

open TypedGrammar.Demo

/-- A number below 100 with two digits. -/
def twoDigits (n : Nat) : String := if n < 10 then "0" ++ toString n else toString n

/-- A number of milliseconds in hours, minutes and seconds. -/
def clockText (milliseconds : Nat) : String :=
  let seconds := milliseconds / 1000
  twoDigits (seconds / 3600) ++ ":" ++ twoDigits (seconds / 60 % 60) ++ ":" ++ twoDigits (seconds % 60)

/-- What the demonstration that the first argument names does with the others. -/
def planNamed : List String → Plan
  | "arith" :: args => Arithmetic.plan args
  | "constraints" :: args => Pruning.plan args
  | _ => .refuse

/-- Print a line with the time since the program started. -/
def printLine (started : Nat) (line : OutputLine) : IO Unit := do
  let elapsed := (← IO.monoMsNow) - started
  IO.println (line.render (clockText elapsed) (toString elapsed ++ "ms"))

/-- Carry out actions up to the first name that refuses its lines, and answer with the status. -/
def perform (started : Nat) : List Action → IO Nat
  | [] => return 0
  | .print line :: rest => do
    printLine started line
    perform started rest
  | .write name lines :: rest => do
    (← IO.getStdout).flush
    match ← (IO.FS.writeFile name (fileText lines)).toBaseIO with
    | .ok () => perform started rest
    | .error e => do
      IO.eprintln (toString e)
      return Run.brokenStatus

end TypedGrammar.Program

open TypedGrammar.Program in
/-- Run a demonstration and end with its status. -/
def main (args : List String) : IO UInt32 := do
  let started ← IO.monoMsNow
  match planNamed args with
  | .refuse => do
    IO.eprintln "usage: (arith | constraints) [options]"
    return TypedGrammar.Demo.Run.refusedStatus.toUInt32
  | .act actions => return (← perform started actions).toUInt32
