/-!
# Words of bits

The words behind a bit set: bit `b` of word `k` stands for the number `64 * k + b`. Their set bits can
be listed and counted. The bit set keeps the count beside the words, so what one set bit more or less
does to the count is shown here.
-/

namespace TypedGrammar.BitSet

/-- A word of several; words that are not there are empty. -/
def wordAt (words : Array (BitVec 64)) (k : Nat) : BitVec 64 := words.getD k 0#64

/-- Is the bit that stands for the number set? -/
def bitAt (words : Array (BitVec 64)) (i : Nat) : Bool := (wordAt words (i / 64)).getLsbD (i % 64)

/-- The words with the bit that stands for the number set. -/
def setBit (words : Array (BitVec 64)) (i : Nat) : Array (BitVec 64) :=
  words.modify (i / 64) (· ||| BitVec.twoPow 64 (i % 64))

/-- The words with the bit that stands for the number cleared. -/
def clearBit (words : Array (BitVec 64)) (i : Nat) : Array (BitVec 64) :=
  words.modify (i / 64) (· &&& ~~~ BitVec.twoPow 64 (i % 64))

/-- The same words and as many empty ones as are missing. -/
def growWords (words : Array (BitVec 64)) (size : Nat) : Array (BitVec 64) :=
  words ++ Array.replicate (size - words.size) 0#64

/-- The set bits of a word, lowest first. An empty word is not searched. -/
def wordBits (w : BitVec 64) : List Nat :=
  if w = 0#64 then [] else (List.range 64).filter w.getLsbD

/-- The numbers that the words of a list stand for, if it starts with word `k`, ascending. -/
def membersFrom (k : Nat) : List (BitVec 64) → List Nat
  | [] => []
  | w :: rest => (wordBits w).map (64 * k + ·) ++ membersFrom (k + 1) rest

/-- The number of set bits among the lowest `n` bits of a word. -/
def countBits (w : BitVec 64) : Nat → Nat
  | 0 => 0
  | n + 1 => countBits w n + if w.getLsbD n then 1 else 0

/-- The number of set bits of a word. An empty word is not searched. -/
def wordSize (w : BitVec 64) : Nat := if w = 0#64 then 0 else countBits w 64

/-- The number of set bits of several words. -/
def sizeOfWords : List (BitVec 64) → Nat
  | [] => 0
  | w :: rest => wordSize w + sizeOfWords rest

/-- The bits of a word are the positions below 64 where it has a one. -/
theorem wordBits_eq (w : BitVec 64) : wordBits w = (List.range 64).filter w.getLsbD := by
  unfold wordBits
  split
  · rename_i h
    simp [h]
  · rfl

/-- The word without ones has no bits to count. -/
theorem countBits_zero (n : Nat) : countBits 0#64 n = 0 := by
  induction n with
  | zero => rfl
  | succ n ih => simp [countBits, ih]

/-- The size of a word is the number of ones among its 64 bits. -/
theorem wordSize_eq (w : BitVec 64) : wordSize w = countBits w 64 := by
  unfold wordSize
  split
  · rename_i h
    rw [h, countBits_zero]
  · rfl

/-! ### Reading words -/

/-- Growing gives a list of words the size that is asked for, if it was smaller. -/
theorem size_growWords (words : Array (BitVec 64)) (size : Nat) :
    (growWords words size).size = max words.size size := by
  simp only [growWords, Array.size_append, Array.size_replicate]
  omega

/-- Growing for a number makes room for it. -/
theorem div_lt_size_growWords (words : Array (BitVec 64)) (i : Nat) :
    i / 64 < (growWords words (i / 64 + 1)).size := by
  rw [size_growWords]
  omega

/-- Growing adds empty words only. -/
theorem wordAt_growWords (words : Array (BitVec 64)) (size k : Nat) :
    wordAt (growWords words size) k = wordAt words k := by
  simp only [wordAt, growWords, Array.getD_eq_getD_getElem?, Array.getElem?_append,
    Array.getElem?_replicate]
  split
  · rfl
  · rename_i h
    rw [Array.getElem?_eq_none (Nat.not_lt.1 h)]
    split <;> rfl

/-- Changing a word leaves the others. A word behind the end is unchanged, so the change has to keep the
zero word there. -/
theorem wordAt_modify (words : Array (BitVec 64)) (j k : Nat) (f : BitVec 64 → BitVec 64)
    (zero : f 0#64 = 0#64 ∨ j < words.size) :
    wordAt (words.modify j f) k = if j = k then f (wordAt words k) else wordAt words k := by
  simp only [wordAt, Array.getD_eq_getD_getElem?, Array.getElem?_modify]
  split
  · rename_i h
    subst h
    cases hw : words[j]? with
    | some w => rfl
    | none =>
      rcases zero with hz | hz
      · simp [hz]
      · exact absurd (Array.getElem?_eq_none_iff.1 hw) (Nat.not_le.2 hz)
  · rfl

/-- Growing adds no bit. -/
theorem bitAt_growWords (words : Array (BitVec 64)) (size i : Nat) :
    bitAt (growWords words size) i = bitAt words i := by
  rw [bitAt, wordAt_growWords, bitAt]

/-- Setting a bit adds that bit and no other one. -/
theorem bitAt_setBit {words : Array (BitVec 64)} {i : Nat} (room : i / 64 < words.size) (j : Nat) :
    bitAt (setBit words i) j = (j = i || bitAt words j) := by
  simp only [bitAt, setBit]
  rw [wordAt_modify _ _ _ _ (Or.inr room)]
  split
  · rename_i h
    rw [BitVec.getLsbD_or, BitVec.getLsbD_twoPow]
    have small : i % 64 < 64 := Nat.mod_lt _ (by decide)
    by_cases hji : j = i
    · subst hji
      simp [small]
    · have : i % 64 ≠ j % 64 := by omega
      simp [hji, this]
  · rename_i h
    have : j ≠ i := by
      rintro rfl
      exact h rfl
    simp [this]

/-- Clearing a bit takes that bit away and no other one. -/
theorem bitAt_clearBit (words : Array (BitVec 64)) (i j : Nat) :
    bitAt (clearBit words i) j = (bitAt words j && j ≠ i) := by
  simp only [bitAt, clearBit]
  rw [wordAt_modify _ _ _ _ (Or.inl (by simp))]
  have small : i % 64 < 64 := Nat.mod_lt _ (by decide)
  have smallj : j % 64 < 64 := Nat.mod_lt _ (by decide)
  split
  · rename_i h
    rw [BitVec.getLsbD_and, BitVec.getLsbD_not, BitVec.getLsbD_twoPow]
    by_cases hji : j = i
    · subst hji
      simp [small]
    · have : i % 64 ≠ j % 64 := by omega
      simp [hji, this, smallj]
  · rename_i h
    have : j ≠ i := by
      rintro rfl
      exact h rfl
    simp [this]

/-- A set bit stands in one of the words. -/
theorem div_lt_of_bitAt {words : Array (BitVec 64)} {i : Nat} (h : bitAt words i = true) :
    i / 64 < words.size := by
  apply Nat.lt_of_not_le
  intro hout
  rw [bitAt, wordAt, Array.getD_eq_getD_getElem?, Array.getElem?_eq_none hout] at h
  simp at h

/-! ### Counting set bits -/

/-- The bits of two lists of words add up. -/
theorem sizeOfWords_append (words more : List (BitVec 64)) :
    sizeOfWords (words ++ more) = sizeOfWords words + sizeOfWords more := by
  induction words with
  | nil => rw [List.nil_append, sizeOfWords, Nat.zero_add]
  | cons w rest ih => rw [List.cons_append, sizeOfWords, sizeOfWords, ih, Nat.add_assoc]

/-- Words without a set bit count nothing. -/
theorem sizeOfWords_eq_zero {words : List (BitVec 64)} (h : ∀ w ∈ words, w = 0#64) :
    sizeOfWords words = 0 := by
  induction words with
  | nil => rfl
  | cons w rest ih =>
    rw [List.forall_mem_cons] at h
    rw [sizeOfWords, ih h.2, wordSize, if_pos h.1]

/-- Growing does not change the number of bits. -/
theorem sizeOfWords_growWords (words : Array (BitVec 64)) (size : Nat) :
    sizeOfWords (growWords words size).toList = sizeOfWords words.toList := by
  have hmissing : sizeOfWords (List.replicate (size - words.size) 0#64) = 0 :=
    sizeOfWords_eq_zero fun _ hw => List.eq_of_mem_replicate hw
  rw [growWords, Array.toList_append, Array.toList_replicate, sizeOfWords_append, hmissing,
    Nat.add_zero]

/-- Changing one word changes the sum by what it counts before and after. -/
theorem sizeOfWords_modify {words : List (BitVec 64)} {k : Nat} (hk : k < words.length)
    (f : BitVec 64 → BitVec 64) :
    sizeOfWords (words.modify k f) + wordSize (words.getD k 0#64) =
      sizeOfWords words + wordSize (f (words.getD k 0#64)) := by
  induction words generalizing k with
  | nil => exact absurd hk (Nat.not_lt_zero k)
  | cons w rest ih =>
    cases k with
    | zero =>
      rw [List.modify_zero_cons, List.getD_cons_zero, sizeOfWords, sizeOfWords]
      omega
    | succ k =>
      have hrest := ih (Nat.lt_of_succ_lt_succ hk)
      rw [List.modify_succ_cons, List.getD_cons_succ, sizeOfWords, sizeOfWords]
      omega

/-- Setting a clear bit makes one more set bit, if it is among the bits that are counted. -/
theorem countBits_or_twoPow {w : BitVec 64} {b n : Nat} (hclear : w.getLsbD b = false)
    (hn : n ≤ 64) :
    countBits (w ||| BitVec.twoPow 64 b) n = countBits w n + if b < n then 1 else 0 := by
  induction n with
  | zero => rfl
  | succ n ih =>
    rw [countBits, countBits, ih (Nat.le_of_succ_le hn), BitVec.getLsbD_or, BitVec.getLsbD_twoPow]
    rcases Nat.lt_trichotomy b n with hlt | rfl | hgt
    · simp [hlt, Nat.ne_of_lt hlt, Nat.lt_succ_of_lt hlt]
      omega
    · rw [hclear]
      simp [Nat.lt_of_succ_le hn]
    · have hnot : ¬ b < n + 1 := by omega
      simp [hnot, Nat.ne_of_gt hgt, Nat.lt_asymm hgt]

/-- Clearing a set bit makes one set bit less, if it is among the bits that are counted. -/
theorem countBits_and_not_twoPow {w : BitVec 64} {b n : Nat} (hset : w.getLsbD b = true)
    (hn : n ≤ 64) :
    countBits (w &&& ~~~ BitVec.twoPow 64 b) n + (if b < n then 1 else 0) = countBits w n := by
  induction n with
  | zero => rfl
  | succ n ih =>
    have hin : n < 64 := Nat.lt_of_succ_le hn
    rw [countBits, countBits, ← ih (Nat.le_of_succ_le hn), BitVec.getLsbD_and, BitVec.getLsbD_not,
      BitVec.getLsbD_twoPow]
    rcases Nat.lt_trichotomy b n with hlt | rfl | hgt
    · simp [hlt, Nat.ne_of_lt hlt, Nat.lt_succ_of_lt hlt, hin]
      omega
    · rw [hset]
      simp [hin]
    · have hnot : ¬ b < n + 1 := by omega
      simp [hnot, Nat.ne_of_gt hgt, Nat.lt_asymm hgt, hin]

/-- Setting a clear bit makes the count one larger. -/
theorem sizeOfWords_setBit {words : Array (BitVec 64)} {i : Nat} (room : i / 64 < words.size)
    (hclear : bitAt words i = false) :
    sizeOfWords (setBit words i).toList = sizeOfWords words.toList + 1 := by
  have hword : words.toList.getD (i / 64) 0#64 = wordAt words (i / 64) := by
    rw [wordAt, Array.getD_eq_getD_getElem?, List.getD_eq_getElem?_getD, Array.getElem?_toList]
  have hroom : i / 64 < words.toList.length := by simpa using room
  have hsum := sizeOfWords_modify hroom (· ||| BitVec.twoPow 64 (i % 64))
  have hone := countBits_or_twoPow hclear (Nat.le_refl 64)
  rw [if_pos (Nat.mod_lt i (by decide))] at hone
  rw [hword, wordSize_eq, wordSize_eq, hone] at hsum
  rw [setBit, Array.toList_modify]
  omega

/-- Clearing a set bit makes the count one smaller. -/
theorem sizeOfWords_clearBit {words : Array (BitVec 64)} {i : Nat} (hset : bitAt words i = true) :
    sizeOfWords (clearBit words i).toList + 1 = sizeOfWords words.toList := by
  have hword : words.toList.getD (i / 64) 0#64 = wordAt words (i / 64) := by
    rw [wordAt, Array.getD_eq_getD_getElem?, List.getD_eq_getElem?_getD, Array.getElem?_toList]
  have hroom : i / 64 < words.toList.length := by simpa using div_lt_of_bitAt hset
  have hsum := sizeOfWords_modify hroom (· &&& ~~~ BitVec.twoPow 64 (i % 64))
  have hone := countBits_and_not_twoPow hset (Nat.le_refl 64)
  rw [if_pos (Nat.mod_lt i (by decide))] at hone
  rw [hword, wordSize_eq, wordSize_eq, ← hone] at hsum
  rw [clearBit, Array.toList_modify]
  omega

end TypedGrammar.BitSet
