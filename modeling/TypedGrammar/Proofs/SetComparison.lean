import TypedGrammar.Proofs.Members

/-!
# Comparing bit sets

The test for a subset and the test for the same members go word by word. Both decide what they say
about the members, whatever the number of words, and two sets of equally many words with the same
members are one and the same. A set that holds rules is known from bit 0, which stands for no rule, and
from its rules.
-/

namespace TypedGrammar.BitSet

variable {s s' : BitSet}

/-- A word has the members that it stands for. -/
theorem getLsbD_word (s : BitSet) (k : Nat) {b : Nat} (hb : b < 64) :
    (s.word k).getLsbD b = s.contains (64 * k + b) := by
  have hword : (64 * k + b) / 64 = k := by omega
  have hbit : (64 * k + b) % 64 = b := by omega
  rw [contains, hword, hbit]

/-- A word behind the last one is empty. -/
theorem word_of_size_le {k : Nat} (hk : s.words.size ≤ k) : s.word k = 0#64 := by
  rw [word, wordAt, Array.getD_eq_getD_getElem?, Array.getElem?_eq_none hk]
  rfl

/-- A member stands in one of the words. -/
theorem div_lt_of_contains {i : Nat} (hi : s.contains i = true) : i / 64 < s.words.size :=
  div_lt_of_bitAt hi

/-- The test for a subset decides whether every member is one of the other set. -/
theorem isSubset_iff :
    s.isSubset s' = true ↔ ∀ i, s.contains i = true → s'.contains i = true := by
  simp only [isSubset, List.all_eq_true, List.mem_range, decide_eq_true_eq]
  constructor
  · intro h i hi
    have hbit := congrArg (BitVec.getLsbD · (i % 64)) (h (i / 64) (div_lt_of_contains hi))
    have hsmall : i % 64 < 64 := Nat.mod_lt _ (by decide)
    simp only [BitVec.getLsbD_and, BitVec.getLsbD_not, BitVec.getLsbD_zero, hsmall, decide_true,
      Bool.true_and] at hbit
    change (s.contains i && !s'.contains i) = false at hbit
    simpa [hi] using hbit
  · intro h k _
    apply BitVec.eq_of_getLsbD_eq
    intro b hb
    have hmember := h (64 * k + b)
    rw [← getLsbD_word s k hb, ← getLsbD_word s' k hb] at hmember
    simp only [BitVec.getLsbD_and, BitVec.getLsbD_not, BitVec.getLsbD_zero, hb, decide_true,
      Bool.true_and]
    cases hbit : (s.word k).getLsbD b with
    | false => rfl
    | true => simp [hmember hbit]

/-- Sets with the same members have the same number of them, in however many words. -/
theorem count_eq_of_contains (h : ∀ i, s.contains i = s'.contains i) : s.count = s'.count := by
  have hmembers : s.members = s'.members := by
    refine s.members_pairwise.eq_of_mem_iff s'.members_pairwise fun i => ?_
    rw [mem_members, mem_members, h]
  calc s.count = s.members.length := s.size_eq_length_members
    _ = s'.members.length := by rw [hmembers]
    _ = s'.count := s'.size_eq_length_members.symm

/-- The test for the same members decides whether the members are the same. It looks at the words of the
longer set, behind which both sets are empty. -/
theorem same_iff : s.same s' = true ↔ ∀ i, s.contains i = s'.contains i := by
  simp only [same, Bool.and_eq_true, List.all_eq_true, List.mem_range, decide_eq_true_eq]
  constructor
  · intro hsame i
    obtain ⟨-, h⟩ := hsame
    by_cases hin : i / 64 < max s.words.size s'.words.size
    · rw [contains, contains, h (i / 64) hin]
    · rw [contains, contains, word_of_size_le (by omega), word_of_size_le (by omega)]
  · intro h
    refine ⟨count_eq_of_contains h, fun k _ => ?_⟩
    apply BitVec.eq_of_getLsbD_eq
    intro b hb
    rw [getLsbD_word s k hb, getLsbD_word s' k hb, h]

/-- Sets with the same members in equally many words are equal. -/
theorem eq_of_contains (hsize : s.words.size = s'.words.size)
    (h : ∀ i, s.contains i = s'.contains i) : s = s' := by
  have hwords : s.words = s'.words := by
    refine Array.ext hsize fun k hk hk' => ?_
    have hword : s.word k = s'.word k := by
      apply BitVec.eq_of_getLsbD_eq
      intro b hb
      rw [getLsbD_word s k hb, getLsbD_word s' k hb, h]
    simpa [word, wordAt, hk, hk'] using hword
  have hcount := count_eq_of_contains h
  cases s
  cases s'
  subst hwords hcount
  rfl

/-- What holds of bit 0 and of the number of every rule holds of every number. -/
theorem forall_number_iff {p : Nat → Prop} : (∀ i, p i) ↔ p 0 ∧ ∀ r : RuleId, p r.number := by
  constructor
  · intro h
    exact ⟨h 0, fun r => h r.number⟩
  · intro h i
    cases i with
    | zero => exact h.1
    | succ n => exact h.2 ⟨n⟩

/-- Erasing a number does not change the words that a set has room for. -/
@[simp] theorem size_words_erase (s : BitSet) (i : Nat) :
    (s.erase i).words.size = s.words.size := by
  simp only [erase, remove]
  split
  · exact Array.size_modify ..
  · rfl

/-- An intersection keeps the room of the first set. -/
@[simp] theorem size_words_inter (s s' : BitSet) : (s.inter s').words.size = s.words.size :=
  Array.size_mapIdx ..

/-- Taking rules out leaves the words in place. -/
theorem size_words_foldl_eraseRule (s : BitSet) (rules : List RuleId) :
    (rules.foldl eraseRule s).words.size = s.words.size := by
  induction rules generalizing s with
  | nil => rfl
  | cons r rest ih => rw [List.foldl_cons, ih, eraseRule, size_words_erase]

/-- Bit 0 stands for no rule, so it stays when rules are taken out. -/
theorem contains_zero_foldl_eraseRule (s : BitSet) (rules : List RuleId) :
    (rules.foldl eraseRule s).contains 0 = s.contains 0 := by
  induction rules generalizing s with
  | nil => rfl
  | cons r rest ih =>
    have hzero : (0 : Nat) ≠ r.number := (Nat.succ_ne_zero r.index).symm
    rw [List.foldl_cons, ih, eraseRule, contains_erase]
    simp [hzero]

end TypedGrammar.BitSet
