import TypedGrammar.BitWalk
import TypedGrammar.RuleId

/-!
# Bit sets

A finite set of natural numbers kept as words of 64 bits. Every set of rules that may fill a place is
a bit set in which the bit `r.number` stands for the rule `r`; bit 0 stands for no rule.

The number of members is kept beside the words, and its agreement with them is part of the set: what
takes one number in or out changes it by one, and what works on whole words counts again.

The number of words is visible through `capacity`: it grows exactly as far as a new member needs and
never shrinks. It has no part in what the set contains, so `same` and `isSubset` do not look at it.
The view of a bit set is `contains`.
-/

namespace TypedGrammar

/-- A finite set of natural numbers: the number `64 * k + b` is a member when bit `b` of word `k` is set. -/
structure BitSet where
  /-- The words, lowest numbers first. -/
  words : Array (BitVec 64)
  /-- The number of members. -/
  count : Nat
  /-- The count is that of the set bits. -/
  counted : count = BitSet.sizeOfWords words.toList

namespace BitSet

/-- The set without members and without words. -/
def empty : BitSet := ⟨#[], 0, rfl⟩

instance : Inhabited BitSet := ⟨empty⟩

/-- The set without members, with words for as many bits as asked for. -/
def withCapacity (bits : Nat) : BitSet :=
  ⟨Array.replicate ((bits + 63) / 64) 0#64, 0, by
    rw [Array.toList_replicate, sizeOfWords_eq_zero fun _ hw => List.eq_of_mem_replicate hw]⟩

/-- The set with the given words, the members counted from the start. -/
def recount (words : Array (BitVec 64)) : BitSet := ⟨words, sizeOfWords words.toList, rfl⟩

/-- The number of bits for which there are words. -/
def capacity (s : BitSet) : Nat := 64 * s.words.size

/-- A word of the set; words that are not there are empty. -/
def word (s : BitSet) (k : Nat) : BitVec 64 := wordAt s.words k

/-- Is the number a member? -/
def contains (s : BitSet) (i : Nat) : Bool := (s.word (i / 64)).getLsbD (i % 64)

/-- Is the rule a member? -/
def containsRule (s : BitSet) (r : RuleId) : Bool := s.contains r.number

/-- The same set with at least the given number of words. -/
def grow (s : BitSet) (size : Nat) : BitSet :=
  ⟨growWords s.words size, s.count, by rw [sizeOfWords_growWords, s.counted]⟩

/-- The set with one more member, in as many words as it needs, and whether the number is new. -/
def add (s : BitSet) (i : Nat) : Bool × BitSet :=
  match hin : s.contains i with
  | true => (false, s)
  | false =>
    (true, ⟨setBit (growWords s.words (i / 64 + 1)) i, s.count + 1, by
      rw [sizeOfWords_setBit (div_lt_size_growWords s.words i) ((bitAt_growWords ..).trans hin),
        sizeOfWords_growWords, s.counted]⟩)

/-- The set without a number, and whether it was a member. -/
def remove (s : BitSet) (i : Nat) : Bool × BitSet :=
  match hin : s.contains i with
  | true =>
    (true, ⟨clearBit s.words i, s.count - 1, by
      rw [s.counted, ← sizeOfWords_clearBit hin, Nat.add_sub_cancel]⟩)
  | false => (false, s)

/-- The set without a rule, and whether it was a member. -/
def removeRule (s : BitSet) (r : RuleId) : Bool × BitSet := s.remove r.number

/-- The set with one more member, in as many words as it needs. -/
def insert (s : BitSet) (i : Nat) : BitSet := (s.add i).2

/-- The set without a number. -/
def erase (s : BitSet) (i : Nat) : BitSet := (s.remove i).2

/-- The set without a rule. -/
def eraseRule (s : BitSet) (r : RuleId) : BitSet := s.erase r.number

/-- The set without all its members; the words stay. -/
def clear (s : BitSet) : BitSet :=
  ⟨s.words.map fun _ => 0#64, 0, by
    rw [sizeOfWords_eq_zero]
    intro w hw
    rw [Array.toList_map, List.mem_map] at hw
    obtain ⟨_, -, rfl⟩ := hw
    rfl⟩

/-- The set with all the numbers of a list, inserted one after the other. -/
def insertAll (s : BitSet) (numbers : List Nat) : BitSet := numbers.foldl insert s

/-- The set of the numbers of a list. -/
def ofList (numbers : List Nat) : BitSet := empty.insertAll numbers

/-- The set of the rules of a list. -/
def ofRules (rules : List RuleId) : BitSet := ofList (rules.map RuleId.number)

/-- The numbers from `low` to `high`, both included; none if `high` is below `low`. -/
def ofRange (low high : Nat) : BitSet := ofList (List.range' low (high + 1 - low))

/-- The members of both sets, in the words of the first. -/
def inter (s other : BitSet) : BitSet := recount (s.words.mapIdx fun k w => w &&& other.word k)

/-- The members of either set, in the words of the longer. -/
def union (s other : BitSet) : BitSet :=
  recount ((s.grow other.words.size).words.mapIdx fun k w => w ||| other.word k)

/-- The members of the first set that the second lacks, in the words of the first. -/
def diff (s other : BitSet) : BitSet := recount (s.words.mapIdx fun k w => w &&& ~~~ other.word k)

/-- The walk over the members, from the smallest on. -/
def walk (s : BitSet) : BitWalk := .start s.words

/-- The members, ascending. -/
def members (s : BitSet) : List Nat := s.walk.collect

/-- The number of members, as it is kept. -/
def size (s : BitSet) : Nat := s.count

/-- Has the set no member? -/
def isEmpty (s : BitSet) : Bool := s.size = 0

/-- Has the set exactly one member? -/
def isSingleton (s : BitSet) : Bool := s.size = 1

/-- The smallest member. -/
def first? (s : BitSet) : Option Nat := s.walk.next.1

/-- The rules of the set, ascending. Bit 0 stands for none. -/
def rules (s : BitSet) : List RuleId := s.members.filterMap RuleId.ofNumber?

/-- The rule of the set with the smallest number. -/
def firstRule? (s : BitSet) : Option RuleId := s.rules.head?

/-- Is every member also a member of the other set? -/
def isSubset (s other : BitSet) : Bool :=
  (List.range s.words.size).all fun k => s.word k &&& ~~~ other.word k = 0#64

/-- Have the two sets the same members? The number of words does not matter. -/
def same (s other : BitSet) : Bool :=
  s.count = other.count &&
    (List.range (max s.words.size other.words.size)).all fun k => s.word k = other.word k

/-- The members between braces, ascending. -/
def text (s : BitSet) : String :=
  "\x7b" ++ ", ".intercalate (s.members.map toString) ++ "\x7d"

/-- Containing a number is having its bit set. -/
theorem contains_eq_bitAt (s : BitSet) (i : Nat) : s.contains i = bitAt s.words i := rfl

/-- After an insertion the members are the former ones and the new one. -/
theorem contains_insert (s : BitSet) (i j : Nat) :
    (s.insert i).contains j = (j = i || s.contains j) := by
  simp only [insert, add]
  split
  · rename_i hin
    by_cases hji : j = i
    · simp [hji, hin]
    · simp [hji]
  · rw [contains_eq_bitAt, bitAt_setBit (div_lt_size_growWords s.words i), bitAt_growWords,
      ← contains_eq_bitAt]

/-- After a removal the members are the former ones without the one removed. -/
theorem contains_erase (s : BitSet) (i j : Nat) :
    (s.erase i).contains j = (s.contains j && j ≠ i) := by
  simp only [erase, remove]
  split
  · exact bitAt_clearBit s.words i j
  · rename_i hout
    by_cases hji : j = i
    · simp [hji, hout]
    · simp [hji]

/-- The empty set has no number. -/
theorem contains_empty (j : Nat) : empty.contains j = false := by
  simp [contains, word, wordAt, empty]

/-- A set with room for numbers has none of them. -/
theorem contains_withCapacity (bits j : Nat) : (withCapacity bits).contains j = false := by
  have zero : (withCapacity bits).word (j / 64) = 0#64 := by
    simp only [word, wordAt, withCapacity, Array.getD_eq_getD_getElem?, Array.getElem?_replicate]
    split <;> rfl
  simp [contains, zero]

/-- A cleared set has no number. -/
theorem contains_clear (s : BitSet) (j : Nat) : s.clear.contains j = false := by
  have zero : s.clear.word (j / 64) = 0#64 := by
    simp only [word, wordAt, clear, Array.getD_eq_getD_getElem?, Array.getElem?_map]
    cases s.words[j / 64]? <;> rfl
  simp [contains, zero]

/-- After several insertions the members are the former ones and the new ones. -/
theorem contains_insertAll (s : BitSet) (numbers : List Nat) (j : Nat) :
    (s.insertAll numbers).contains j = (numbers.contains j || s.contains j) := by
  unfold insertAll
  induction numbers generalizing s with
  | nil => simp
  | cons i rest ih =>
    rw [List.foldl_cons, ih, contains_insert, List.contains_cons]
    by_cases h : j = i
    · simp [h]
    · simp [h, beq_eq_false_iff_ne.2 h]

/-- The set of a list has the numbers of the list. -/
theorem contains_ofList (numbers : List Nat) (j : Nat) :
    (ofList numbers).contains j = numbers.contains j := by
  simp [ofList, contains_insertAll, contains_empty]

/-- The intersection contains what both sets contain. -/
theorem contains_inter (s other : BitSet) (j : Nat) :
    (s.inter other).contains j = (s.contains j && other.contains j) := by
  simp only [contains, inter]
  have meet : (recount (s.words.mapIdx fun k w => w &&& other.word k)).word (j / 64)
      = s.word (j / 64) &&& other.word (j / 64) := by
    simp only [word, wordAt, recount, Array.getD_eq_getD_getElem?, Array.getElem?_mapIdx]
    cases s.words[j / 64]? <;> simp
  rw [meet, BitVec.getLsbD_and]

/-- The union contains what either set contains. -/
theorem contains_union (s other : BitSet) (j : Nat) :
    (s.union other).contains j = (s.contains j || other.contains j) := by
  simp only [contains, union]
  have join : (recount ((s.grow other.words.size).words.mapIdx fun k w => w ||| other.word k)).word
      (j / 64) = s.word (j / 64) ||| other.word (j / 64) := by
    have grown : (s.grow other.words.size).word (j / 64) = s.word (j / 64) :=
      wordAt_growWords s.words other.words.size (j / 64)
    rw [← grown]
    by_cases room : j / 64 < (s.grow other.words.size).words.size
    · simp [word, wordAt, recount, Array.getD_eq_getD_getElem?, room]
    · have absent : other.words[j / 64]? = none := by
        rw [grow, size_growWords] at room
        exact Array.getElem?_eq_none (by omega)
      simp [word, wordAt, recount, Array.getD_eq_getD_getElem?, room, absent]
  rw [join, BitVec.getLsbD_or]

/-- The difference contains what the first set contains and the second does not. -/
theorem contains_diff (s other : BitSet) (j : Nat) :
    (s.diff other).contains j = (s.contains j && !other.contains j) := by
  simp only [contains, diff]
  have minus : (recount (s.words.mapIdx fun k w => w &&& ~~~ other.word k)).word (j / 64)
      = s.word (j / 64) &&& ~~~ other.word (j / 64) := by
    simp only [word, wordAt, recount, Array.getD_eq_getD_getElem?, Array.getElem?_mapIdx]
    cases s.words[j / 64]? <;> simp
  have small : j % 64 < 64 := Nat.mod_lt _ (by decide)
  rw [minus, BitVec.getLsbD_and, BitVec.getLsbD_not]
  simp [small]

end BitSet

end TypedGrammar
