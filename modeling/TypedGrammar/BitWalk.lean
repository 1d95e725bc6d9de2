import TypedGrammar.BitWords

/-!
# Walking over set bits

`BitWalk` yields the numbers of the set bits one at a time, lowest first. It stands in a word and keeps
the bits of it that are left. Each answer takes the lowest one out, and a word without bits left is
passed for the next word, until there is none.
-/

namespace TypedGrammar

/-- A walk over the set bits of several words. -/
structure BitWalk where
  /-- The number of the word in which the walk stands. -/
  index : Nat
  /-- What is left of this word. -/
  current : BitVec 64
  /-- The words behind it. -/
  ahead : List (BitVec 64)

namespace BitWalk

/-- The walk over all set bits. -/
def start (words : Array (BitVec 64)) : BitWalk :=
  ⟨0, BitSet.wordAt words 0, words.toList.drop 1⟩

/-- The number of zeros below the lowest set bit of a word; 64 for the empty word. -/
def trailingZeros (w : BitVec 64) : Nat := (List.range 64).findIdx w.getLsbD

/-- A word without its lowest set bit. -/
def withoutLowest (w : BitVec 64) : BitVec 64 := w &&& (w - 1#64)

/-- The next number from what is left of a word and the words behind it. -/
def search (index : Nat) (current : BitVec 64) (ahead : List (BitVec 64)) : Option Nat × BitWalk :=
  if current = 0#64 then
    match ahead with
    | [] => (none, ⟨index, current, []⟩)
    | w :: rest => search (index + 1) w rest
  else (some (64 * index + trailingZeros current), ⟨index, withoutLowest current, ahead⟩)

/-- The next number, with the walk over those behind it. Behind the last word the walk is over: it
answers nothing from then on. -/
def next (walk : BitWalk) : Option Nat × BitWalk := search walk.index walk.current walk.ahead

/-- The answers of a walk until it is over, if there are no more than so many. -/
def answers (walk : BitWalk) : Nat → List Nat
  | 0 => []
  | bound + 1 =>
    match walk.next with
    | (some i, left) => i :: answers left bound
    | (none, _) => []

/-- The answers of a walk, until it is over. There are no more answers than bits. -/
def collect (walk : BitWalk) : List Nat := walk.answers (64 * (walk.ahead.length + 1))

end BitWalk

end TypedGrammar
