import Mathlib.Algebra.Group.Nat.Defs
import Mathlib.Data.List.Sort
import TypedGrammar.BitWalk

/-!
# The lowest bit of a word

A word with a set bit is an odd multiple of a power of two, and the exponent is the number of zeros at
its end. So subtracting one changes the lowest set bit and the zeros below it and nothing else, and the
conjunction with the word takes just this bit out. Hence the bits of a word are the lowest one and, in
the same order, those that are left without it.
-/

namespace TypedGrammar

namespace BitWalk

variable {w : BitVec 64}

/-- Below the lowest set bit no bit is set. -/
theorem getLsbD_of_lt_trailingZeros {b : Nat} (h : b < trailingZeros w) : w.getLsbD b = false := by
  have hrange : b < (List.range 64).length := Nat.lt_of_lt_of_le h List.findIdx_le_length
  have hnot := List.not_of_lt_findIdx h
  rwa [List.getElem_range] at hnot

/-- The lowest set bit is set. -/
theorem getLsbD_trailingZeros (h : w ≠ 0#64) : w.getLsbD (trailingZeros w) = true := by
  have hexists : ∃ b ∈ List.range 64, w.getLsbD b = true := by
    by_contra hnone
    push Not at hnone
    refine h (BitVec.eq_of_getLsbD_eq fun b hb => ?_)
    rw [BitVec.getLsbD_zero]
    exact Bool.eq_false_of_not_eq_true (hnone b (List.mem_range.mpr hb))
  have hset := List.findIdx_getElem (w := List.findIdx_lt_length_of_exists hexists)
  rwa [List.getElem_range] at hset

/-- A word with a set bit is an odd multiple of the power of two that its lowest bit stands for. -/
theorem toNat_eq_of_ne_zero (h : w ≠ 0#64) :
    ∃ q, w.toNat = 2 ^ (trailingZeros w + 1) * q + 2 ^ trailingZeros w := by
  have hlow : w.toNat % 2 ^ (trailingZeros w + 1) = 2 ^ trailingZeros w := by
    apply Nat.eq_of_testBit_eq
    intro b
    rw [Nat.testBit_mod_two_pow, Nat.testBit_two_pow, BitVec.testBit_toNat]
    rcases Nat.lt_trichotomy b (trailingZeros w) with hlt | rfl | hgt
    · rw [getLsbD_of_lt_trailingZeros hlt, Bool.and_false, decide_eq_false (Nat.ne_of_gt hlt)]
    · rw [getLsbD_trailingZeros h, Bool.and_true, decide_eq_true (Nat.lt_succ_self _),
        decide_eq_true rfl]
    · rw [decide_eq_false (by omega), decide_eq_false (Nat.ne_of_lt hgt), Bool.false_and]
  refine ⟨w.toNat / 2 ^ (trailingZeros w + 1), ?_⟩
  have hdiv := Nat.div_add_mod w.toNat (2 ^ (trailingZeros w + 1))
  rw [hlow] at hdiv
  exact hdiv.symm

/-- Subtracting one from an odd multiple of a power of two leaves the bits of the multiple, and sets all
below the power. -/
theorem testBit_oddMultiple_sub_one (q t b : Nat) :
    (2 ^ (t + 1) * q + 2 ^ t - 1).testBit b =
      if b < t + 1 then decide (b < t) else q.testBit (b - (t + 1)) := by
  have hpos : 1 ≤ 2 ^ t := Nat.one_le_two_pow
  have hlt : 2 ^ t - 1 < 2 ^ (t + 1) := by
    rw [Nat.pow_succ]
    omega
  rw [Nat.add_sub_assoc hpos, Nat.testBit_two_pow_mul_add _ hlt, Nat.testBit_two_pow_sub_one]

/-- Without its lowest set bit a word has its other bits. -/
theorem getLsbD_withoutLowest (h : w ≠ 0#64) (b : Nat) :
    (withoutLowest w).getLsbD b = (w.getLsbD b && b ≠ trailingZeros w) := by
  obtain ⟨q, hq⟩ := toNat_eq_of_ne_zero h
  have hone : 1#64 ≤ w := Nat.pos_of_ne_zero fun hzero => h (BitVec.eq_of_toNat_eq hzero)
  have hless : (w - 1#64).getLsbD b =
      if b < trailingZeros w + 1 then decide (b < trailingZeros w) else q.testBit (b - (trailingZeros w + 1)) := by
    rw [← BitVec.testBit_toNat, BitVec.toNat_sub_of_le hone, hq]
    exact testBit_oddMultiple_sub_one q _ b
  have hword : trailingZeros w + 1 ≤ b → w.getLsbD b = q.testBit (b - (trailingZeros w + 1)) := by
    intro hle
    have hpow : 2 ^ trailingZeros w < 2 ^ (trailingZeros w + 1) := Nat.pow_lt_pow_succ Nat.one_lt_two
    rw [← BitVec.testBit_toNat, hq, Nat.testBit_two_pow_mul_add _ hpow, if_neg (Nat.not_lt.mpr hle)]
  rw [withoutLowest, BitVec.getLsbD_and, hless]
  rcases Nat.lt_trichotomy b (trailingZeros w) with hlt | rfl | hgt
  · rw [getLsbD_of_lt_trailingZeros hlt, Bool.false_and, Bool.false_and]
  · simp
  · rw [if_neg (by omega), hword hgt, Bool.and_self, decide_eq_true (Nat.ne_of_gt hgt), Bool.and_true]

end BitWalk

namespace BitSet

open BitWalk

variable {w : BitVec 64}

/-- The bits of a word are listed below 64. -/
theorem mem_wordBits {b : Nat} : b ∈ wordBits w ↔ b < 64 ∧ w.getLsbD b = true := by
  rw [wordBits_eq, List.mem_filter, List.mem_range]

/-- The bits of a word ascend. -/
theorem wordBits_pairwise (w : BitVec 64) : (wordBits w).Pairwise (· < ·) := by
  rw [wordBits_eq]
  exact List.pairwise_lt_range.filter _

/-- The lowest set bit comes first, and then those that are left without it. -/
theorem wordBits_eq_cons (h : w ≠ 0#64) :
    wordBits w = trailingZeros w :: wordBits (withoutLowest w) := by
  have hset : w.getLsbD (trailingZeros w) = true := getLsbD_trailingZeros h
  have hrest : ∀ b, b ∈ wordBits (withoutLowest w) ↔ b ∈ wordBits w ∧ b ≠ trailingZeros w := by
    intro b
    rw [mem_wordBits, mem_wordBits, getLsbD_withoutLowest h]
    simp [and_assoc]
  have hascending : (trailingZeros w :: wordBits (withoutLowest w)).Pairwise (· < ·) := by
    refine List.pairwise_cons.mpr ⟨fun b hb => ?_, wordBits_pairwise _⟩
    obtain ⟨hmem, hne⟩ := (hrest b).mp hb
    apply Nat.lt_of_le_of_ne _ hne.symm
    apply Nat.le_of_not_lt
    intro hlt
    exact Bool.false_ne_true ((getLsbD_of_lt_trailingZeros hlt).symm.trans (mem_wordBits.mp hmem).2)
  refine (wordBits_pairwise w).eq_of_mem_iff hascending fun b => ?_
  rw [List.mem_cons, hrest]
  by_cases hb : b = trailingZeros w
  · subst hb
    exact iff_of_true (mem_wordBits.mpr ⟨BitVec.lt_of_getLsbD hset, hset⟩) (.inl rfl)
  · simp [hb]

end BitSet

end TypedGrammar
