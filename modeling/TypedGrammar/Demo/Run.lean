import TypedGrammar.Outcome

/-!
# Runs of the demonstrations

A demonstration is a list of actions: lines to print, and lines to write under a name. A name that
refuses them ends the run. `Run.perform` carries the actions out without touching a file system:
where a name leads is a parameter, which the file system of a machine would give.
-/

namespace TypedGrammar.Demo

/-- Where a text goes that is written under a name. -/
inductive Destination where
  /-- Nothing can be written under the name. -/
  | refused
  /-- A file, or a device that takes what is written to it. -/
  | file
  /-- The lines that the program prints. -/
  | output
deriving DecidableEq

/-- One line that a demonstration prints. -/
inductive OutputLine where
  /-- A line as it is. -/
  | plain (text : String)
  /-- A warning, which is written behind the time of day. -/
  | warning (text : String)
  /-- A line that ends with the time that the work took. -/
  | timed (text : String)

/-- The text of a line, given the time of day and the time that the work took. -/
def OutputLine.render (clock duration : String) : OutputLine → String
  | plain text => text
  | warning text => clock ++ " [WARN] " ++ text
  | timed text => text ++ duration

/-- Lines as the contents of a file, each with its end. -/
def fileText (lines : List String) : String := String.join (lines.map (· ++ "\n"))

/-- One thing that a demonstration does. -/
inductive Action where
  /-- Print a line. -/
  | print (line : OutputLine)
  /-- Write lines under a name. -/
  | write (name : String) (lines : List String)

/-- What a demonstration does with a command line. -/
inductive Plan where
  /-- The command line is refused. -/
  | refuse
  /-- The actions, one after the other. -/
  | act (actions : List Action)

/-- The plan that a result describes; a demonstration that fails does nothing. -/
def Plan.ofResult : Except Failure (List Action) → Plan
  | .ok actions => act actions
  | .error _ => act []

/-- What a run leaves behind: its status, its lines, and the files with their contents. -/
structure Run where
  status : Nat
  lines : List OutputLine
  files : List (String × String)

namespace Run

/-- The status of a command line that is refused. -/
def refusedStatus : Nat := 2

/-- The status of a run that could not write a file. -/
def brokenStatus : Nat := 1

/-- The run that prints some lines first. -/
def afterLines (lines : List OutputLine) (r : Run) : Run := { r with lines := lines ++ r.lines }

/-- The run that writes a file first. -/
def afterFile (name contents : String) (r : Run) : Run :=
  { r with files := (name, contents) :: r.files }

/-- Carry out actions up to the first name that refuses its lines, where `destination` says what is
written under a name. -/
def performAll (destination : String → Destination) : List Action → Run
  | [] => ⟨0, [], []⟩
  | .print line :: rest => (performAll destination rest).afterLines [line]
  | .write name lines :: rest =>
    match destination name with
    | .refused => ⟨brokenStatus, [], []⟩
    | .file => (performAll destination rest).afterFile name (fileText lines)
    | .output => (performAll destination rest).afterLines (lines.map .plain)

/-- Carry out a plan. -/
def perform (destination : String → Destination) : Plan → Run
  | .refuse => ⟨refusedStatus, [], []⟩
  | .act actions => performAll destination actions

end Run

end TypedGrammar.Demo
