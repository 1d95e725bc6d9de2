import TypedGrammar.Ascending
import TypedGrammar.NameMap
import TypedGrammar.Value

/-!
# Symbols of rule bodies

A bare symbol in the body of a rule is a place for a child of some type, a named constant, or a
variable of the host. Names of types come first, then the constants of a symbol table.
-/

namespace TypedGrammar

/-- What a bare symbol stands for. -/
inductive SymbolKind where
  /-- A place for a child of the type. -/
  | nonterminal (type : String)
  /-- A constant with its value. -/
  | constant (value : Value)
  /-- A name that the host binds. -/
  | variable
deriving DecidableEq

/-- The type that a symbol asks a child of. -/
def SymbolKind.childType? : SymbolKind → Option String
  | .nonterminal type => some type
  | _ => none

/-- The named constants. -/
abbrev SymbolTable := NameMap Value

namespace SymbolTable

/-- Name a constant; the answer is the value that the name had before. -/
def define (table : SymbolTable) (name : String) (value : Value) : Option Value × SymbolTable :=
  (table.get? name, table.insert name value)

/-- The value of a constant. -/
def constant (table : SymbolTable) (name : String) : Option Value := table.get? name

/-- What a name stands for, where a test tells the names of types. -/
def classify (table : SymbolTable) (isType : String → Bool) (name : String) : SymbolKind :=
  if isType name then .nonterminal name
  else match table.get? name with
    | some value => .constant value
    | none => .variable

end SymbolTable

/-- The ascending list of the distinct type names of a list. -/
def distinctNames (names : List String) : List String := Ascending.ofList names

end TypedGrammar
