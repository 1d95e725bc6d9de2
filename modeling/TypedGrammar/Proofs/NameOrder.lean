import TypedGrammar.NameMap
import Mathlib.Tactic.SplitIfs

/-!
# The order of names

The names of a map are listed in the order of their code points. This is also the order of their bytes:
the first byte of a character tells how many bytes it has, and each byte carries some binary digits of
the code point, the highest first. So the bytes of two characters compare as the characters do, whatever
comes behind them.
-/

namespace TypedGrammar

/-- The bytes of a name, first to last. -/
def bytesOf (name : String) : List UInt8 := name.toUTF8.data.toList

/-- The bytes of a name are those of its characters, one after the other. -/
theorem bytesOf_eq_flatMap (name : String) :
    bytesOf name = name.toList.flatMap String.utf8EncodeChar := by
  rw [bytesOf, String.toUTF8, ← String.utf8Encode_toList, List.utf8Encode, List.data_toByteArray]

/-- Lists that begin with small numbers as bytes compare by the numbers first. -/
theorem ofNat_cons_lt_iff {m n : Nat} {s t : List UInt8} (hm : m < 256) (hn : n < 256) :
    UInt8.ofNat m :: s < UInt8.ofNat n :: t ↔ m < n ∨ m = n ∧ s < t := by
  rw [List.cons_lt_cons_iff, UInt8.ofNat_lt_iff_lt hm hn, ← UInt8.toNat_inj,
    UInt8.toNat_ofNat_of_lt' hm, UInt8.toNat_ofNat_of_lt' hn]

/-- The digits of two numbers to the base 64 compare from the highest to the lowest. -/
theorem digits_lt {m n : Nat} (h : m < n) :
    m / 262144 < n / 262144 ∨ m / 262144 = n / 262144 ∧
      (m / 4096 % 64 < n / 4096 % 64 ∨ m / 4096 % 64 = n / 4096 % 64 ∧
        (m / 64 % 64 < n / 64 % 64 ∨ m / 64 % 64 = n / 64 % 64 ∧ m % 64 < n % 64)) := by
  omega

/-- The bytes of two characters compare as the characters do, whatever comes behind them. The leading digit
of a code point is below eight, since four bytes have room for more than there are. -/
theorem utf8EncodeChar_append_lt {c d : Char} (h : c < d) (s t : List UInt8) :
    String.utf8EncodeChar c ++ s < String.utf8EncodeChar d ++ t := by
  have hlt : c.val.toNat < d.val.toNat := h
  have hlast : d.val.toNat < 1114112 := by
    have hvalid := d.valid
    rcases hvalid with hbelow | habove <;> omega
  have hdigits := digits_lt hlt
  have hroom : c.val.toNat / 262144 % 8 = c.val.toNat / 262144 := by omega
  have hroom' : d.val.toNat / 262144 % 8 = d.val.toNat / 262144 := by omega
  simp only [String.utf8EncodeChar, hroom, hroom']
  generalize c.val.toNat = m at hlt hdigits
  generalize d.val.toNat = n at hlt hlast hdigits
  split_ifs <;>
    simp (disch := omega) only [List.cons_append, List.nil_append, ofNat_cons_lt_iff] <;> omega

/-- A character has at least one byte. -/
theorem utf8EncodeChar_ne_nil (c : Char) : String.utf8EncodeChar c ≠ [] := by
  simp only [String.utf8EncodeChar]
  split_ifs <;> exact List.cons_ne_nil _ _

/-- The bytes of two lists of characters compare as the lists do. -/
theorem flatMap_utf8EncodeChar_lt {cs ds : List Char} (h : cs < ds) :
    cs.flatMap String.utf8EncodeChar < ds.flatMap String.utf8EncodeChar := by
  induction h with
  | @nil d ds =>
    obtain ⟨first, rest, hbytes⟩ := List.exists_cons_of_ne_nil (utf8EncodeChar_ne_nil d)
    rw [List.flatMap_cons, hbytes]
    exact List.nil_lt_cons _ _
  | cons _ ih => exact List.append_left_lt ih
  | rel hlt => exact utf8EncodeChar_append_lt hlt _ _

/-- Names in the order of their code points are in the order of their bytes. -/
theorem bytesOf_lt {a b : String} (h : a < b) : bytesOf a < bytesOf b := by
  rw [bytesOf_eq_flatMap, bytesOf_eq_flatMap]
  exact flatMap_utf8EncodeChar_lt (String.lt_iff.mp h)

end TypedGrammar
