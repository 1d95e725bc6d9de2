import TypedGrammar.Outcome

/-!
# Command lines of the demonstrations

A demonstration takes at most one number, flags, and options with a value. A command line is refused
as a whole when it has anything else: an unknown option, an option given twice, a missing or empty
value, or a number that does not fit 64 bits. After two dashes alone nothing counts as an option.
-/

namespace TypedGrammar.Demo

/-- The options that a demonstration knows. -/
structure OptionNames where
  /-- Options without a value. -/
  flags : List String
  /-- Options with a value. -/
  valued : List String

/-- What a command line says. -/
structure Arguments where
  number : Option Nat
  flags : List String
  values : List (String × String)

/-- The arguments of an empty command line. -/
def Arguments.empty : Arguments := ⟨none, [], []⟩

/-- The value of an option. -/
def Arguments.value? (a : Arguments) (name : String) : Option String := a.values.lookup name

/-- Was the option given? -/
def Arguments.has (a : Arguments) (name : String) : Bool :=
  a.flags.contains name || (a.value? name).isSome

/-- A number of 64 bits in decimal digits; a plus sign may come first. -/
def readNumber? (s : String) : Option Nat :=
  let chars := match s.toList with
    | '+' :: rest => rest
    | chars => chars
  if chars.isEmpty || !chars.all Char.isDigit then none
  else
    let n := chars.foldl (fun n c => 10 * n + (c.toNat - '0'.toNat)) 0
    if n < Nat.pow 2 64 then some n else none

/-- Note the one number of a command line. -/
def Arguments.addNumber (a : Arguments) (s : String) : Option Arguments := do
  if a.number.isSome then failure
  else return { a with number := some (← readNumber? s) }

/-- Note an option without a value. -/
def Arguments.addFlag (a : Arguments) (name : String) : Option Arguments :=
  if a.has name then none else some { a with flags := name :: a.flags }

/-- Note an option with its value. -/
def Arguments.addValue (a : Arguments) (name value : String) : Option Arguments :=
  if a.has name || value = "" then none else some { a with values := (name, value) :: a.values }

/-- Does the argument look like an option? A single dash does not. -/
def looksLikeOption (s : String) : Bool :=
  match s.toList with
  | '-' :: _ :: _ => true
  | _ => false

/-- An argument cut at its first equals sign. -/
def splitValue (s : String) : String × Option String :=
  let name := s.toList.takeWhile (· ≠ '=')
  match s.toList.drop name.length with
  | _ :: value => (String.ofList name, some (String.ofList value))
  | [] => (s, none)

/-- Read the arguments behind two dashes: none of them is an option. -/
def readPlain (a : Arguments) : List String → Option Arguments
  | [] => some a
  | s :: rest => do readPlain (← a.addNumber s) rest

/-- Read the arguments of a command line, or refuse them all. An option takes the value behind its
equals sign or else the next argument, unless that looks like an option itself. -/
def readArguments (known : OptionNames) (a : Arguments) : List String → Option Arguments
  | [] => some a
  | s :: rest =>
    if s = "--" then readPlain a rest
    else if looksLikeOption s then
      let (name, attached?) := splitValue s
      match attached? with
      | some value =>
        if known.valued.contains name then
          (a.addValue name value).bind fun a' => readArguments known a' rest
        else none
      | none =>
        if known.flags.contains name then
          (a.addFlag name).bind fun a' => readArguments known a' rest
        else if known.valued.contains name then
          match rest with
          | value :: rest' =>
            if looksLikeOption value then none
            else (a.addValue name value).bind fun a' => readArguments known a' rest'
          | [] => none
        else none
    else (a.addNumber s).bind fun a' => readArguments known a' rest

end TypedGrammar.Demo
