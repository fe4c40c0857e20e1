import Mathlib.Data.Nat.ModEq
import Mathlib.Data.UInt

/-!
# Positions in a ring

Positions count up without bound, and a ring of `c` slots keeps position `p` in
slot `p % c`. Counters that wrap at `2 ^ 64` still give the slot of a position
and the distance between two positions that are close enough.
-/

namespace Ring

/-- What a step of a call on a ring returns: nothing yet, `false`, or `true` with a value. -/
inductive Outcome (T : Type) where
  | running
  | refused
  | done (v : T)
  deriving DecidableEq, Repr

/-- The values that a step has returned `true` with. -/
def Outcome.values {T : Type} : Outcome T → List T
  | .running | .refused => []
  | .done v => [v]

/-- Positions less than a lap apart have slots of their own. -/
theorem pos_unique {c p q : Nat} (h : p % c = q % c) (hp : p < q + c) (hq : q < p + c) :
    p = q := by
  rcases Nat.le_total p q with hle | hle
  · have hd : c ∣ q - p := (Nat.modEq_iff_dvd' hle).mp h
    have hz := Nat.eq_zero_of_dvd_of_lt hd (by omega)
    omega
  · have hd : c ∣ p - q := (Nat.modEq_iff_dvd' hle).mp h.symm
    have hz := Nat.eq_zero_of_dvd_of_lt hd (by omega)
    omega

/-- Every slot has a position in every lap. -/
theorem exists_pos {c : Nat} (hc : 0 < c) (r p : Nat) :
    ∃ q, r ≤ q ∧ q < r + c ∧ q % c = p % c := by
  refine ⟨r + (p + (c - r % c)) % c, by omega, ?_, ?_⟩
  · have hlt := Nat.mod_lt (p + (c - r % c)) hc
    omega
  · have hr := Nat.mod_lt r hc
    rw [Nat.add_mod, Nat.mod_mod, ← Nat.add_mod]
    have he : r + (p + (c - r % c)) = p + c * (r / c + 1) := by
      have hdiv := Nat.div_add_mod r c
      rw [Nat.mul_add]
      omega
    rw [he, Nat.add_mul_mod_self_left]

/-- Masking a wrapped counter gives the slot of its position. -/
theorem toNat_mask {k : Nat} (hk : k < 64) (p : Nat) :
    (UInt64.ofNat p &&& (UInt64.ofNat (2 ^ k) - 1)).toNat = p % 2 ^ k := by
  have hpow : 2 ^ k < 2 ^ 64 := Nat.pow_lt_pow_right (by decide) hk
  have hpos : 0 < 2 ^ k := Nat.two_pow_pos k
  have hsize : (UInt64.ofNat (2 ^ k)).toNat = 2 ^ k := UInt64.toNat_ofNat_of_lt' hpow
  have hone : (1 : UInt64) ≤ UInt64.ofNat (2 ^ k) := by
    rw [UInt64.le_iff_toNat_le, hsize]
    exact hpos
  have hmask : (UInt64.ofNat (2 ^ k) - 1).toNat = 2 ^ k - 1 := by
    rw [UInt64.toNat_sub_of_le _ _ hone, hsize]
    rfl
  have hdvd : 2 ^ k ∣ 2 ^ 64 := Nat.pow_dvd_pow 2 (Nat.le_of_lt hk)
  rw [UInt64.toNat_and, hmask, Nat.and_two_pow_sub_one_eq_mod, UInt64.toNat_ofNat',
    Nat.mod_mod_of_dvd p hdvd]

/-- The distance of wrapped counters is the distance of their positions. -/
theorem toNat_distance {p q : Nat} (h : q ≤ p) (hlt : p - q < 2 ^ 64) :
    (UInt64.ofNat p - UInt64.ofNat q).toNat = p - q := by
  rw [UInt64.toNat_sub, UInt64.toNat_ofNat', UInt64.toNat_ofNat']
  omega

/-- Wrapped counters of close positions agree iff the positions do. -/
theorem ofNat_eq_iff {p q : Nat} (h : q ≤ p) (hlt : p - q < 2 ^ 64) :
    UInt64.ofNat p = UInt64.ofNat q ↔ p = q := by
  constructor
  · intro he
    have hd := toNat_distance h hlt
    rw [he, UInt64.sub_self] at hd
    change 0 = p - q at hd
    omega
  · exact congrArg UInt64.ofNat

/-- The signed distance of wrapped counters is that of positions less than half a turn apart. -/
theorem toInt_distance {p q : Nat} (hq : q < p + 2 ^ 63) (hp : p < q + 2 ^ 63) :
    ((UInt64.ofNat p).toInt64 - (UInt64.ofNat q).toInt64).toInt = (p : Int) - q := by
  have hword (n : Nat) : (UInt64.ofNat n).toInt64.toInt = Int.bmod n (2 ^ 64) := by
    change (BitVec.ofNat 64 n).toInt = _
    exact BitVec.toInt_ofNat n
  rw [Int64.toInt_sub, hword, hword, ← Int.sub_bmod, Int.bmod_eq_of_le] <;> omega

/-- The signed distance is zero iff the positions are the same. -/
theorem distance_eq_zero {p q : Nat} (hq : q < p + 2 ^ 63) (hp : p < q + 2 ^ 63) :
    (UInt64.ofNat p).toInt64 - (UInt64.ofNat q).toInt64 = 0 ↔ p = q := by
  rw [← Int64.toInt_inj, toInt_distance hq hp]
  change (p : Int) - q = 0 ↔ p = q
  omega

/-- The signed distance is negative iff the first position is behind. -/
theorem distance_neg {p q : Nat} (hq : q < p + 2 ^ 63) (hp : p < q + 2 ^ 63) :
    (UInt64.ofNat p).toInt64 - (UInt64.ofNat q).toInt64 < 0 ↔ p < q := by
  rw [Int64.lt_iff_toInt_lt, toInt_distance hq hp]
  change (p : Int) - q < 0 ↔ p < q
  omega

end Ring
