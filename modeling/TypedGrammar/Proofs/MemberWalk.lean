import TypedGrammar.BitSet
import TypedGrammar.Proofs.LowestBit

/-!
# The walk over the members

A walk over set bits stands for a list of numbers: what is left of its word, and then the words ahead.
A step answers the head of this list and leaves the tail, however many words without bits it has to
pass. So a walk comes to an end, its answers are that list, and at the start they are the numbers that
the words stand for.
-/

namespace TypedGrammar

namespace BitWalk

open BitSet (wordBits membersFrom)

variable {index : Nat} {current : BitVec 64} {ahead : List (BitVec 64)}

/-- The numbers that a walk has not answered yet. -/
def remaining (walk : BitWalk) : List Nat :=
  (wordBits walk.current).map (64 * walk.index + ·) ++ membersFrom (walk.index + 1) walk.ahead

/-- At the start all numbers are left that the words stand for. -/
theorem remaining_start (words : Array (BitVec 64)) :
    (start words).remaining = membersFrom 0 words.toList := by
  obtain ⟨list⟩ := words
  cases list with
  | nil => rfl
  | cons w rest => simp [remaining, start, BitSet.wordAt, membersFrom]

/-! What the three ways through a step do to the numbers that are left. -/

/-- Going on to the next word leaves out no number when the bits of the current one are used up. -/
theorem remaining_of_pass (w : BitVec 64) :
    remaining ⟨index, 0#64, w :: ahead⟩ = remaining ⟨index + 1, w, ahead⟩ := rfl

/-- Nothing is left behind the last word. -/
theorem remaining_of_last (index : Nat) : remaining ⟨index, 0#64, []⟩ = [] := rfl

/-- A word with bits answers its lowest one, and the others are left. -/
theorem remaining_of_answer (hleft : current ≠ 0#64) :
    remaining ⟨index, current, ahead⟩ = (64 * index + trailingZeros current) ::
      remaining ⟨index, withoutLowest current, ahead⟩ := by
  rw [remaining, BitSet.wordBits_eq_cons hleft]
  rfl

/-- A search answers the first number that is left, and leaves those behind it. -/
theorem search_refines (index : Nat) (current : BitVec 64) (ahead : List (BitVec 64)) :
    (search index current ahead).1 = (remaining ⟨index, current, ahead⟩).head? ∧
      (search index current ahead).2.remaining = (remaining ⟨index, current, ahead⟩).tail := by
  induction ahead generalizing index current with
  | nil =>
    by_cases hempty : current = 0#64
    · subst hempty
      rw [search, if_pos rfl, remaining_of_last]
      exact ⟨rfl, remaining_of_last index⟩
    · rw [search, if_neg hempty, remaining_of_answer hempty]
      exact ⟨rfl, rfl⟩
  | cons w rest ih =>
    by_cases hempty : current = 0#64
    · subst hempty
      rw [search, if_pos rfl, remaining_of_pass]
      exact ih (index + 1) w
    · rw [search, if_neg hempty, remaining_of_answer hempty]
      exact ⟨rfl, rfl⟩

/-- The next answer of a walk is the first number that is left. -/
theorem next_fst (walk : BitWalk) : walk.next.1 = walk.remaining.head? :=
  (search_refines walk.index walk.current walk.ahead).1

/-- The answer leaves the numbers behind the first one. -/
theorem remaining_next (walk : BitWalk) : walk.next.2.remaining = walk.remaining.tail :=
  (search_refines walk.index walk.current walk.ahead).2

/-- The walk after a number of steps. -/
def after (walk : BitWalk) : Nat → BitWalk
  | 0 => walk
  | n + 1 => after walk.next.2 n

/-- Each step of the walk answers one of the numbers, in order. -/
theorem next_after (walk : BitWalk) (n : Nat) : (walk.after n).next.1 = walk.remaining[n]? := by
  induction n generalizing walk with
  | zero => rw [after, next_fst, List.head?_eq_getElem?]
  | succ n ih => rw [after, ih, remaining_next, List.getElem?_tail]

/-- The answers within a bound are as many of the numbers that are left. -/
theorem answers_eq_take (walk : BitWalk) (bound : Nat) :
    walk.answers bound = walk.remaining.take bound := by
  induction bound generalizing walk with
  | zero => rfl
  | succ bound ih =>
    have hfirst := walk.next_fst
    have hbehind := walk.remaining_next
    rcases hnext : walk.next with ⟨answer, left⟩
    rw [hnext] at hfirst hbehind
    rw [answers, hnext]
    cases hremaining : walk.remaining with
    | nil =>
      rw [hremaining] at hfirst
      subst hfirst
      rfl
    | cons i rest =>
      rw [hremaining] at hfirst hbehind
      subst hfirst
      rw [List.take_succ_cons]
      exact congrArg (i :: ·) ((ih left).trans (congrArg (List.take bound) hbehind))

/-- A word has at most 64 bits. -/
theorem length_wordBits_le (w : BitVec 64) : (wordBits w).length ≤ 64 := by
  rw [BitSet.wordBits_eq]
  exact (List.length_filter_le _ _).trans (Nat.le_of_eq List.length_range)

/-- There are at most 64 numbers for each word. -/
theorem length_membersFrom_le (k : Nat) (words : List (BitVec 64)) :
    (membersFrom k words).length ≤ 64 * words.length := by
  induction words generalizing k with
  | nil => exact Nat.le_refl 0
  | cons w rest ih =>
    have hword := length_wordBits_le w
    have hrest := ih (k + 1)
    rw [membersFrom, List.length_append, List.length_map, List.length_cons]
    omega

/-- No more numbers are left than there are bits. -/
theorem length_remaining_le (walk : BitWalk) :
    walk.remaining.length ≤ 64 * (walk.ahead.length + 1) := by
  have hword := length_wordBits_le walk.current
  have hahead := length_membersFrom_le (walk.index + 1) walk.ahead
  rw [remaining, List.length_append, List.length_map]
  omega

/-- The answers of a walk until it is over are the numbers that are left. -/
theorem collect_eq (walk : BitWalk) : walk.collect = walk.remaining := by
  rw [collect, answers_eq_take, List.take_of_length_le walk.length_remaining_le]

end BitWalk

namespace BitSet

/-- At the start all members are left. -/
theorem remaining_walk (s : BitSet) : s.walk.remaining = s.members := by
  rw [members, BitWalk.collect_eq]

/-- The members are the numbers that the words stand for. -/
theorem members_eq (s : BitSet) : s.members = membersFrom 0 s.words.toList := by
  rw [← remaining_walk, walk, BitWalk.remaining_start]

/-- The smallest member is the first one listed. -/
theorem first?_eq (s : BitSet) : s.first? = s.members.head? := by
  rw [first?, BitWalk.next_fst, remaining_walk]

end BitSet

end TypedGrammar
