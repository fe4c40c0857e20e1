import Mathlib.Data.List.Basic
import Mathlib.Data.UInt

/-!
# Machine words

Unsigned words through their values, and the signed difference of two of them.
-/

namespace Word

variable {a b : UInt64}

/-- The smaller word has the smaller value. -/
theorem toNat_min (a b : UInt64) : (min a b).toNat = min a.toNat b.toNat := by
  rw [show min a b = if a ≤ b then a else b from rfl, Nat.min_def]
  simp only [UInt64.le_iff_toNat_le]
  split <;> rfl

/-- The smaller of two words is at most the first. -/
theorem min_le_left (a b : UInt64) : min a b ≤ a := by
  rw [UInt64.le_iff_toNat_le, toNat_min]
  exact Nat.min_le_left _ _

/-- The smaller of two words is at most the second. -/
theorem min_le_right (a b : UInt64) : min a b ≤ b := by
  rw [UInt64.le_iff_toNat_le, toNat_min]
  exact Nat.min_le_right _ _

/-- A word is the smaller one of itself and a larger word. -/
theorem min_eq_left (h : a ≤ b) : min a b = a := if_pos h

/-- Only zero has the value zero. -/
theorem toNat_eq_zero : a.toNat = 0 ↔ a = 0 := by
  rw [← UInt64.toNat_inj]
  rfl

/-- A word has a positive value iff it is not zero. -/
theorem toNat_pos : 0 < a.toNat ↔ a ≠ 0 := by
  rw [Nat.pos_iff_ne_zero, ne_eq, toNat_eq_zero]

/-- Subtraction leaves nothing iff the words are the same, wrap-around included. -/
theorem sub_eq_zero : a - b = 0 ↔ a = b := by
  grind

/-- Taking up to `b` of `a` leaves nothing iff `b` covers it. -/
theorem sub_min_eq_zero : a - min b a = 0 ↔ a ≤ b := by
  rw [sub_eq_zero, ← UInt64.toNat_inj, toNat_min, UInt64.le_iff_toNat_le]
  omega

/-- Without a borrow, subtraction is that of the values. -/
theorem toNat_sub (h : b ≤ a) : (a - b).toNat = a.toNat - b.toNat :=
  UInt64.toNat_sub_of_le a b h

/-- Without a carry, addition is that of the values. -/
theorem toNat_add (h : a.toNat + b.toNat < 2 ^ 64) : (a + b).toNat = a.toNat + b.toNat := by
  rw [UInt64.toNat_add, Nat.mod_eq_of_lt h]

/-- A product that fits is the product of the values. -/
theorem toNat_mul (h : a.toNat * b.toNat < 2 ^ 64) : (a * b).toNat = a.toNat * b.toNat := by
  rw [UInt64.toNat_mul, Nat.mod_eq_of_lt h]

/-- A sum that fits is the sum of the values. -/
theorem toNat_sum {xs : List UInt64} (h : (xs.map UInt64.toNat).sum < 2 ^ 64) :
    xs.sum.toNat = (xs.map UInt64.toNat).sum := by
  induction xs with
  | nil => rfl
  | cons x xs ih =>
    rw [List.map_cons, List.sum_cons] at h
    have hxs := ih (by omega)
    rw [List.sum_cons, toNat_add (by omega), hxs, List.map_cons, List.sum_cons]

/-- Below half the range a word keeps its value as a signed one. -/
theorem toInt_toInt64 (ha : a.toNat < 2 ^ 63) : a.toInt64.toInt = a.toNat := by
  change a.toBitVec.toInt = _
  rw [BitVec.toInt_eq_toNat_of_lt (by simpa using by omega)]
  rfl

/-- Below half the range a signed difference does not overflow. -/
theorem toInt_sub (ha : a.toNat < 2 ^ 63) (hb : b.toNat < 2 ^ 63) :
    (a.toInt64 - b.toInt64).toInt = (a.toNat : Int) - b.toNat := by
  rw [Int64.toInt_sub, toInt_toInt64 ha, toInt_toInt64 hb, Int.bmod_eq_of_le] <;> omega

/-- Below half the range a signed difference compares the words. -/
theorem sub_nonneg (ha : a.toNat < 2 ^ 63) (hb : b.toNat < 2 ^ 63) :
    0 ≤ a.toInt64 - b.toInt64 ↔ b ≤ a := by
  rw [Int64.le_iff_toInt_le, toInt_sub ha hb, UInt64.le_iff_toNat_le]
  simp

/-- A word is non-negative as a signed one below half the range. -/
theorem toInt64_nonneg (a : UInt64) : 0 ≤ a.toInt64 ↔ a.toNat < 2 ^ 63 := by
  rw [Int64.le_iff_toInt_le]
  change (0 : Int) ≤ a.toBitVec.toInt ↔ _
  have hlt := a.toNat_lt
  have hn : a.toBitVec.toNat = a.toNat := rfl
  rw [BitVec.toInt_eq_toNat_cond, hn]
  split <;> omega

/-- A signed difference, read as a word, is the difference of the words. -/
theorem toUInt64_sub (a b : UInt64) : (a.toInt64 - b.toInt64).toUInt64 = a - b := by
  simp

/-- A signed difference is non-negative iff the difference is below half the range. -/
theorem sub_toInt64_nonneg (a b : UInt64) : 0 ≤ a.toInt64 - b.toInt64 ↔ (a - b).toNat < 2 ^ 63 := by
  rw [← UInt64.toInt64_sub]
  exact toInt64_nonneg _

/-- Only zero reads as the word zero. -/
theorem toUInt64_eq_zero {d : Int64} : d.toUInt64 = 0 ↔ d = 0 := by
  constructor
  · intro h
    rw [← Int64.toInt64_toUInt64 d, h]
    rfl
  · rintro rfl
    rfl

/-- Negation keeps zero and nothing else. -/
theorem toUInt64_neg_eq_zero {d : Int64} : (-d).toUInt64 = 0 ↔ d = 0 := by
  rw [Int64.toUInt64_neg, ← toUInt64_eq_zero]
  grind

/-- The signed difference of two words is zero iff they are the same. -/
theorem toInt64_sub_eq_zero (a b : UInt64) : a.toInt64 - b.toInt64 = 0 ↔ a = b := by
  rw [← toUInt64_eq_zero, toUInt64_sub, sub_eq_zero]

/-- What is left of a word, less the word. -/
theorem toInt64_sub_self (a b : UInt64) : (a - b).toInt64 - a.toInt64 = -b.toInt64 := by
  rw [UInt64.toInt64_sub]
  grind

/-- Adding a negated word takes the word away. -/
theorem add_toUInt64_neg (a b : UInt64) : a + (-b.toInt64).toUInt64 = a - b := by
  rw [Int64.toUInt64_neg, UInt64.toUInt64_toInt64]
  grind

/-- The negated signed difference is the difference the other way. -/
theorem toUInt64_neg_sub (a b : UInt64) : (-(a.toInt64 - b.toInt64)).toUInt64 = b - a := by
  simp

end Word
