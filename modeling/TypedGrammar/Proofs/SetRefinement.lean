import Mathlib.Data.Finset.Card
import Mathlib.Order.Interval.Finset.Nat
import TypedGrammar.Proofs.SetComparison

/-!
# Bit sets as finite sets

A bit set stands for the finite set of the numbers that it contains. Each operation does to that set
what its name says, whatever the number of words of its operands, and keeps the count the number of
members. Hence a bit set that is made by any operations stands for the set that the same operations
make of finite sets, and every question about it is answered as for that set.
-/

namespace TypedGrammar.BitSet

variable {s s' : BitSet}

/-- The finite set that a bit set stands for. -/
def toFinset (s : BitSet) : Finset Nat := s.members.toFinset

/-- The finite set has the numbers that the set contains. -/
@[simp] theorem mem_toFinset {i : Nat} : i ∈ s.toFinset ↔ s.contains i = true := by
  rw [toFinset, List.mem_toFinset, mem_members]

/-! ### What the operations do to the set -/

/-- A set without numbers is the empty finite set. -/
theorem toFinset_eq_empty (h : ∀ i, s.contains i = false) : s.toFinset = ∅ := by
  ext i
  simp [h i]

/-- Inserting a number inserts it. -/
theorem toFinset_insert (s : BitSet) (i : Nat) :
    (s.insert i).toFinset = Insert.insert i s.toFinset := by
  ext j
  simp [contains_insert]

/-- Erasing a number erases it. -/
theorem toFinset_erase (s : BitSet) (i : Nat) : (s.erase i).toFinset = s.toFinset.erase i := by
  ext j
  simp [contains_erase, and_comm]

/-- Inserting several numbers is a union with them. -/
theorem toFinset_insertAll (s : BitSet) (numbers : List Nat) :
    (s.insertAll numbers).toFinset = s.toFinset ∪ numbers.toFinset := by
  ext j
  simp [contains_insertAll, or_comm]

/-- A set made from a list has the numbers of the list. -/
theorem toFinset_ofList (numbers : List Nat) : (ofList numbers).toFinset = numbers.toFinset := by
  ext j
  simp [contains_ofList]

/-- A set made from a range is the closed interval. -/
theorem toFinset_ofRange (low high : Nat) : (ofRange low high).toFinset = Finset.Icc low high := by
  ext j
  rw [ofRange, toFinset_ofList, List.mem_toFinset, List.mem_range'_1, Finset.mem_Icc]
  omega

/-- The intersection of sets is the intersection. -/
theorem toFinset_inter (s s' : BitSet) : (s.inter s').toFinset = s.toFinset ∩ s'.toFinset := by
  ext j
  simp [contains_inter]

/-- The union of sets is the union. -/
theorem toFinset_union (s s' : BitSet) : (s.union s').toFinset = s.toFinset ∪ s'.toFinset := by
  ext j
  simp [contains_union]

/-- The difference of sets is the difference. -/
theorem toFinset_diff (s s' : BitSet) : (s.diff s').toFinset = s.toFinset \ s'.toFinset := by
  ext j
  simp [contains_diff]

/-! ### What is said about the set -/

/-- The kept count is the number of members. -/
theorem size_eq_card (s : BitSet) : s.size = s.toFinset.card := by
  have hnodup : s.members.Nodup := s.members_pairwise.imp fun hlt => Nat.ne_of_lt hlt
  rw [toFinset, List.toFinset_card_of_nodup hnodup, size_eq_length_members]

/-- An insertion answers whether the number is new. -/
theorem add_fst (s : BitSet) (i : Nat) : (s.add i).1 = !s.contains i := by
  rw [add]
  split
  · rename_i hin
    simp [hin]
  · rename_i hout
    simp [hout]

/-- A removal answers whether the number was a member. -/
theorem remove_fst (s : BitSet) (i : Nat) : (s.remove i).1 = s.contains i := by
  rw [remove]
  split
  · rename_i hin
    simp [hin]
  · rename_i hout
    simp [hout]

/-- Adding answers whether the set is changed by it. -/
theorem add_fst_iff {i : Nat} : (s.add i).1 = true ↔ Insert.insert i s.toFinset ≠ s.toFinset := by
  rw [add_fst, Ne, Finset.insert_eq_self, mem_toFinset, Bool.not_eq_true', Bool.not_eq_true]

/-- Removing answers whether the set is changed by it. -/
theorem remove_fst_iff {i : Nat} : (s.remove i).1 = true ↔ s.toFinset.erase i ≠ s.toFinset := by
  rw [remove_fst, Ne, Finset.erase_eq_self, mem_toFinset, not_not]

/-- Sets are the same when they have the same numbers. -/
theorem same_iff_toFinset : s.same s' = true ↔ s.toFinset = s'.toFinset := by
  rw [same_iff, Finset.ext_iff]
  refine forall_congr' fun i => ?_
  rw [mem_toFinset, mem_toFinset, Bool.eq_iff_iff]

/-- The test for a subset is the one for finite sets. -/
theorem isSubset_iff_toFinset : s.isSubset s' = true ↔ s.toFinset ⊆ s'.toFinset := by
  rw [isSubset_iff, Finset.subset_iff]
  simp only [mem_toFinset]

/-! ### What the operations do to the words -/

/-- An insertion makes exactly the words that the number needs. -/
theorem size_words_insert (s : BitSet) (i : Nat) :
    (s.insert i).words.size = max s.words.size (i / 64 + 1) := by
  rw [insert, add]
  split
  · rename_i hin
    exact (Nat.max_eq_left (div_lt_of_contains hin)).symm
  · exact (Array.size_modify ..).trans (size_growWords ..)

/-- Inserting numbers takes no room away. -/
theorem size_words_le_insertAll (s : BitSet) (numbers : List Nat) :
    s.words.size ≤ (s.insertAll numbers).words.size := by
  rw [insertAll]
  induction numbers generalizing s with
  | nil => exact Nat.le_refl _
  | cons i rest ih =>
    refine Nat.le_trans ?_ (ih (s.insert i))
    rw [size_words_insert]
    exact Nat.le_max_left ..

/-- A cleared set keeps its room. -/
theorem size_words_clear (s : BitSet) : s.clear.words.size = s.words.size := Array.size_map ..

/-- A difference keeps the room of the first set. -/
theorem size_words_diff (s s' : BitSet) : (s.diff s').words.size = s.words.size :=
  Array.size_mapIdx ..

/-- A union has the room of the larger set. -/
theorem size_words_union (s s' : BitSet) :
    (s.union s').words.size = max s.words.size s'.words.size :=
  (Array.size_mapIdx ..).trans (size_growWords ..)

/-- Every member lies below the capacity. -/
theorem lt_capacity {i : Nat} (hi : s.contains i = true) : i < s.capacity := by
  have hword := div_lt_of_contains hi
  rw [capacity]
  omega

/-! ### Sets made by operations -/

/-- How a bit set is made: as a new one, or by an operation from others. Copying a set gives the same
value, so a copy is made as the set itself is. -/
inductive Construction where
  | withCapacity (bits : Nat)
  | empty
  | ofRules (rules : List RuleId)
  | ofRange (low high : Nat)
  | ofList (numbers : List Nat)
  | insert (c : Construction) (i : Nat)
  | remove (c : Construction) (i : Nat)
  | removeRule (c : Construction) (r : RuleId)
  | clear (c : Construction)
  | insertAll (c : Construction) (numbers : List Nat)
  | inter (c other : Construction)
  | union (c other : Construction)
  | diff (c other : Construction)

namespace Construction

/-- The bit set that is made. -/
def eval : Construction → BitSet
  | withCapacity bits => BitSet.withCapacity bits
  | empty => BitSet.empty
  | ofRules rules => BitSet.ofRules rules
  | ofRange low high => BitSet.ofRange low high
  | ofList numbers => BitSet.ofList numbers
  | insert c i => (c.eval.add i).2
  | remove c i => (c.eval.remove i).2
  | removeRule c r => (c.eval.removeRule r).2
  | clear c => c.eval.clear
  | insertAll c numbers => c.eval.insertAll numbers
  | inter c other => c.eval.inter other.eval
  | union c other => c.eval.union other.eval
  | diff c other => c.eval.diff other.eval

/-- The finite set that the same operations make. -/
def denote : Construction → Finset Nat
  | withCapacity _ => ∅
  | empty => ∅
  | ofRules rules => (rules.map RuleId.number).toFinset
  | ofRange low high => Finset.Icc low high
  | ofList numbers => numbers.toFinset
  | insert c i => Insert.insert i c.denote
  | remove c i => c.denote.erase i
  | removeRule c r => c.denote.erase r.number
  | clear _ => ∅
  | insertAll c numbers => c.denote ∪ numbers.toFinset
  | inter c other => c.denote ∩ other.denote
  | union c other => c.denote ∪ other.denote
  | diff c other => c.denote \ other.denote

/-- The set that the last operation changes, unless it makes a new one. -/
def receiver? : Construction → Option Construction
  | withCapacity _ | empty | ofRules _ | ofRange _ _ | ofList _ => none
  | insert c _ | remove c _ | removeRule c _ | clear c | insertAll c _ => some c
  | inter c _ | union c _ | diff c _ => some c

/-- The bit set that is made stands for the finite set that is made. -/
theorem toFinset_eval (c : Construction) : c.eval.toFinset = c.denote := by
  induction c with
  | withCapacity bits => exact toFinset_eq_empty (contains_withCapacity bits)
  | empty => exact toFinset_eq_empty contains_empty
  | ofRules rules => exact toFinset_ofList _
  | ofRange low high => exact toFinset_ofRange low high
  | ofList numbers => exact toFinset_ofList numbers
  | insert c i ih =>
    rw [denote, ← ih, ← toFinset_insert]
    rfl
  | remove c i ih =>
    rw [denote, ← ih, ← toFinset_erase]
    rfl
  | removeRule c r ih =>
    rw [denote, ← ih, ← toFinset_erase]
    rfl
  | clear c ih => exact toFinset_eq_empty (contains_clear c.eval)
  | insertAll c numbers ih => rw [eval, toFinset_insertAll, ih, denote]
  | inter c other ih ihother => rw [eval, toFinset_inter, ih, ihother, denote]
  | union c other ih ihother => rw [eval, toFinset_union, ih, ihother, denote]
  | diff c other ih ihother => rw [eval, toFinset_diff, ih, ihother, denote]

/-- No operation leaves a set with fewer words. -/
theorem size_words_receiver_le {c former : Construction} (h : c.receiver? = some former) :
    former.eval.words.size ≤ c.eval.words.size := by
  cases c with
  | withCapacity _ => cases h
  | empty => cases h
  | ofRules _ => cases h
  | ofRange _ _ => cases h
  | ofList _ => cases h
  | insert c i =>
    cases h
    exact Nat.le_trans (Nat.le_max_left ..) (Nat.le_of_eq (size_words_insert former.eval i).symm)
  | remove c i =>
    cases h
    exact Nat.le_of_eq (size_words_erase former.eval i).symm
  | removeRule c r =>
    cases h
    exact Nat.le_of_eq (size_words_erase former.eval r.number).symm
  | clear c =>
    cases h
    exact Nat.le_of_eq (size_words_clear former.eval).symm
  | insertAll c numbers =>
    cases h
    exact size_words_le_insertAll former.eval numbers
  | inter c other =>
    cases h
    exact Nat.le_of_eq (size_words_inter former.eval other.eval).symm
  | union c other =>
    cases h
    exact Nat.le_trans (Nat.le_max_left ..)
      (Nat.le_of_eq (size_words_union former.eval other.eval).symm)
  | diff c other =>
    cases h
    exact Nat.le_of_eq (size_words_diff former.eval other.eval).symm

/-- What a bit set and the finite set made by the same operations have to do with each other. -/
structure Refines (c : Construction) : Prop where
  /-- They have the same members. -/
  contains_iff : ∀ i, c.eval.contains i = true ↔ i ∈ c.denote
  /-- Inserting a number answers whether the set changes. -/
  add_iff : ∀ i, (c.eval.add i).1 = true ↔ (c.insert i).denote ≠ c.denote
  /-- Removing a number answers whether the set changes. -/
  remove_iff : ∀ i, (c.eval.remove i).1 = true ↔ (c.remove i).denote ≠ c.denote
  /-- Removing a rule answers whether the set changes. -/
  removeRule_iff : ∀ r, (c.eval.removeRule r).1 = true ↔ (c.removeRule r).denote ≠ c.denote
  /-- The size is the number of members. -/
  size_eq : c.eval.size = c.denote.card
  /-- The test for no member is right. -/
  isEmpty_iff : c.eval.isEmpty = true ↔ c.denote = ∅
  /-- The test for one member is right. -/
  isSingleton_iff : c.eval.isSingleton = true ↔ ∃ i, c.denote = {i}
  /-- The comparison with any other set that is made decides whether the members are the same. -/
  same_iff : ∀ other : Construction, c.eval.same other.eval = true ↔ c.denote = other.denote
  /-- The comparison with any other set that is made decides inclusion. -/
  isSubset_iff : ∀ other : Construction, c.eval.isSubset other.eval = true ↔ c.denote ⊆ other.denote
  /-- The last operation did not lower the capacity of the set that it changed. -/
  capacity_le : ∀ former, c.receiver? = some former → former.eval.capacity ≤ c.eval.capacity
  /-- Every member lies below the capacity. -/
  lt_capacity : ∀ i ∈ c.denote, i < c.eval.capacity

/-- Whatever operations make a bit set, it refines the finite set that they make. -/
theorem refines (c : Construction) : c.Refines where
  contains_iff i := by rw [← toFinset_eval, mem_toFinset]
  add_iff i := by rw [add_fst_iff, denote, toFinset_eval]
  remove_iff i := by rw [remove_fst_iff, denote, toFinset_eval]
  removeRule_iff r := by rw [BitSet.removeRule, remove_fst_iff, denote, toFinset_eval]
  size_eq := by rw [size_eq_card, toFinset_eval]
  isEmpty_iff := by
    rw [isEmpty, decide_eq_true_eq, size_eq_card, toFinset_eval, Finset.card_eq_zero]
  isSingleton_iff := by
    rw [isSingleton, decide_eq_true_eq, size_eq_card, toFinset_eval, Finset.card_eq_one]
  same_iff other := by rw [same_iff_toFinset, toFinset_eval, toFinset_eval]
  isSubset_iff other := by rw [isSubset_iff_toFinset, toFinset_eval, toFinset_eval]
  capacity_le _ h := Nat.mul_le_mul_left 64 (size_words_receiver_le h)
  lt_capacity i hi := by
    rw [← toFinset_eval, mem_toFinset] at hi
    exact BitSet.lt_capacity hi

end Construction

end TypedGrammar.BitSet
