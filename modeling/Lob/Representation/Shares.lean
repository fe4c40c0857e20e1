import Mathlib.Algebra.Order.BigOperators.Group.List
import Mathlib.Algebra.Order.Ring.Nat
import Mathlib.Data.List.GetD
import Lob.Core.Apportion
import Lob.Core.Word
import Lob.Model.Engine

/-!
# The shares of the pro-rata policy

While totals and products fit into a word, the words `ProRataPolicy::match`
computes with are the numbers they stand for, and its shares are those of the
largest remainders.
-/

namespace Lob

namespace ProRata

/-- What `min_fill` leaves of a share. -/
def kept (minFill : Qty) (share : Nat) : Nat := if share < minFill.toNat then 0 else share

/-- The minimum only takes away. -/
theorem kept_le (minFill : Qty) (share : Nat) : kept minFill share ≤ share := by
  rw [kept]
  split <;> omega

/-- No share is lost when `min_fill` is one unit or none. -/
theorem kept_of_le_one {minFill : Qty} (h : minFill ≤ 1) (share : Nat) :
    kept minFill share = share := by
  have hle := UInt64.le_iff_toNat_le.mp h
  rw [UInt64.toNat_one] at hle
  rw [kept]
  split <;> omega

/-- The model's minimum is that of the shares. -/
theorem toNat_kept (minFill a : Qty) :
    (if a < minFill then 0 else a).toNat = kept minFill a.toNat := by
  rw [kept]
  split
  · next hlt => rw [if_pos (UInt64.lt_iff_toNat_lt.mp hlt), UInt64.toNat_zero]
  · next hge => rw [if_neg fun hlt => hge (UInt64.lt_iff_toNat_lt.mpr hlt)]

/-- The sizes of a level as numbers, labelled by order id. -/
def weights (ids : List Nat) (sizes : List Qty) : List (Nat × Nat) :=
  ids.zip (sizes.map UInt64.toNat)

variable {minFill qty total : Qty} {ids : List Nat} {sizes : List Qty}

/-- The base shares are the floors of the exact shares. -/
theorem map_toNat_baseAlloc (hprod : ∀ s ∈ sizes, s.toNat * qty.toNat < 2 ^ 64) :
    (baseAlloc total qty sizes).map UInt64.toNat =
      Apportion.floors qty.toNat total.toNat (sizes.map UInt64.toNat) := by
  unfold baseAlloc Apportion.floors
  rw [List.map_map, List.map_map]
  refine List.map_congr_left fun s hs => ?_
  simp only [Function.comp_apply]
  rw [UInt64.toNat_div, Word.toNat_mul (hprod s hs)]

/-- The positions ranked are those of the level. -/
theorem perm_ranking (rems : List (Qty × Nat)) : (ranking rems).Perm (List.range rems.length) :=
  List.perm_insertionSort _ _

/-- Every order is allocated something, possibly nothing. -/
theorem length_alloc (minFill qty : Qty) (ids : List Nat) (sizes : List Qty) :
    (alloc minFill qty ids sizes).length = sizes.length := by
  simp only [alloc, baseAlloc, List.length_map, List.length_mapIdx]

/-- The remainders with the ids that break their ties. -/
def keys (qty : Qty) (ids : List Nat) (sizes : List Qty) : List (Qty × Nat) :=
  (remainders sizes.sum qty sizes).zip ids

/-- The positions that get a leftover unit. -/
def lucky (qty : Qty) (ids : List Nat) (sizes : List Qty) : List Nat :=
  (ranking (keys qty ids sizes)).take
    (if (baseAlloc sizes.sum qty sizes).sum < qty then
      qty - (baseAlloc sizes.sum qty sizes).sum else 0).toNat

/-- The comparator of `std::sort` is a total preorder on positions. -/
theorem before_total (x y : Qty × Nat) : before x y = true ∨ before y x = true := by
  simp only [before]
  by_cases hne : x.1 ≠ y.1
  · rw [if_pos hne, if_pos (Ne.symm hne), decide_eq_true_eq, decide_eq_true_eq,
      UInt64.lt_iff_toNat_lt, UInt64.lt_iff_toNat_lt]
    rw [ne_eq, ← UInt64.toNat_inj] at hne
    omega
  · rw [if_neg hne, if_neg fun h => hne (Ne.symm h), decide_eq_true_eq, decide_eq_true_eq]
    exact Nat.le_total _ _

/-- The comparator: the larger remainder first, then the smaller id. -/
theorem before_iff (x y : Qty × Nat) :
    before x y = true ↔ y.1.toNat < x.1.toNat ∨ x.1.toNat = y.1.toNat ∧ x.2 ≤ y.2 := by
  simp only [before]
  by_cases he : x.1 = y.1
  · simp [he]
  · rw [if_pos he, decide_eq_true_eq, UInt64.lt_iff_toNat_lt]
    rw [← UInt64.toNat_inj] at he
    omega

/-- The positions are ranked in the order of the comparator. -/
theorem pairwise_ranking (rems : List (Qty × Nat)) :
    (ranking rems).Pairwise fun i j => before (rems.getD i (0, 0)) (rems.getD j (0, 0)) = true := by
  have : Std.Total fun i j => before (rems.getD i (0, 0)) (rems.getD j (0, 0)) = true :=
    ⟨fun i j => before_total _ _⟩
  have : IsTrans Nat fun i j => before (rems.getD i (0, 0)) (rems.getD j (0, 0)) = true := by
    refine ⟨fun i j k hij hjk => ?_⟩
    rw [before_iff] at hij hjk ⊢
    omega
  exact List.pairwise_insertionSort _ _

section Exact

variable (hlen : ids.length = sizes.length)
include hlen

/-- The weights are listed by id. -/
theorem map_fst_weights : (weights ids sizes).map Prod.fst = ids := by
  rw [weights, List.map_fst_zip]
  rw [List.length_map, hlen]

/-- The weights are the sizes. -/
theorem map_snd_weights : (weights ids sizes).map Prod.snd = sizes.map UInt64.toNat := by
  rw [weights, List.map_snd_zip]
  rw [List.length_map, hlen]

/-- There is a weight for each size. -/
theorem length_weights : (weights ids sizes).length = sizes.length := by
  rw [weights, List.length_zip, List.length_map, hlen, Nat.min_self]

/-- There is a key for each size. -/
theorem length_keys : (keys qty ids sizes).length = sizes.length := by
  rw [keys, List.length_zip, remainders, List.length_map, hlen, Nat.min_self]

section Sum

variable (htotal : (sizes.map UInt64.toNat).sum < 2 ^ 64)
include htotal

/-- A total that fits is the weight of the list. -/
theorem toNat_total : sizes.sum.toNat = Apportion.weight (weights ids sizes) := by
  rw [Word.toNat_sum htotal, Apportion.weight, map_snd_weights hlen]

end Sum

variable (hprod : ∀ s ∈ sizes, s.toNat * qty.toNat < 2 ^ 64)
include hprod

/-- The key of an order: its remainder, and its id. -/
theorem keys_getD {i : Nat} (hi : i < sizes.length) :
    ((keys qty ids sizes).getD i (0, 0)).1.toNat =
        ((weights ids sizes).getD i (0, 0)).2 * qty.toNat % sizes.sum.toNat ∧
      ((keys qty ids sizes).getD i (0, 0)).2 = ((weights ids sizes).getD i (0, 0)).1 := by
  have hk : i < (keys qty ids sizes).length := by rw [length_keys hlen]; exact hi
  have hw : i < (weights ids sizes).length := by rw [length_weights hlen]; exact hi
  rw [List.getD_eq_getElem _ _ hk, List.getD_eq_getElem _ _ hw]
  simp only [keys, weights, List.getElem_zip, remainders, List.getElem_map]
  rw [UInt64.toNat_mod, Word.toNat_mul (hprod _ (List.getElem_mem hi))]
  exact ⟨rfl, trivial⟩

variable (htotal : (sizes.map UInt64.toNat).sum < 2 ^ 64) (hnodup : ids.Nodup)
include htotal

/-- The units that the word arithmetic leaves over are those of the exact floors. -/
theorem toNat_leftover (hpos : 0 < Apportion.weight (weights ids sizes)) :
    (if (baseAlloc sizes.sum qty sizes).sum < qty then
      qty - (baseAlloc sizes.sum qty sizes).sum else 0).toNat =
      Apportion.leftover qty.toNat (weights ids sizes) := by
  have hfloors : (baseAlloc sizes.sum qty sizes).map UInt64.toNat =
      Apportion.floors qty.toNat (Apportion.weight (weights ids sizes))
        ((weights ids sizes).map Prod.snd) := by
    rw [map_toNat_baseAlloc hprod, toNat_total hlen htotal, map_snd_weights hlen]
  have hsum := Apportion.sum_floors_add_leftover (q := qty.toNat) hpos
  rw [← hfloors] at hsum
  have hbase : (baseAlloc sizes.sum qty sizes).sum.toNat =
      ((baseAlloc sizes.sum qty sizes).map UInt64.toNat).sum := by
    have hq := qty.toNat_lt
    exact Word.toNat_sum (by omega)
  split
  · next hlt =>
    rw [Word.toNat_sub (UInt64.le_of_lt hlt)]
    omega
  · next hge =>
    rw [UInt64.lt_iff_toNat_lt] at hge
    rw [UInt64.toNat_zero]
    omega

include hnodup

/-- The ranking lists the orders in the order in which they get units. -/
theorem ranked : ((ranking (keys qty ids sizes)).map
      fun i => (weights ids sizes).getD i (0, 0)).Perm (weights ids sizes) ∧
    ((ranking (keys qty ids sizes)).map fun i => (weights ids sizes).getD i (0, 0)).Pairwise
      (Apportion.Precedes qty.toNat (Apportion.weight (weights ids sizes))) := by
  have hperm := perm_ranking (keys qty ids sizes)
  rw [length_keys hlen] at hperm
  constructor
  · have hall : (List.range sizes.length).map (fun i => (weights ids sizes).getD i (0, 0)) =
        weights ids sizes := by
      refine List.ext_getElem ?_ fun i hi hi' => ?_
      · rw [List.length_map, List.length_range, length_weights hlen]
      · rw [List.getElem_map, List.getElem_range, List.getD_eq_getElem _ _ hi']
    exact (hperm.map _).trans (List.Perm.of_eq hall)
  · have hne : (ranking (keys qty ids sizes)).Pairwise (· ≠ ·) :=
      hperm.nodup_iff.mpr List.nodup_range
    have hsort := (pairwise_ranking (keys qty ids sizes)).and hne
    rw [List.pairwise_map]
    refine hsort.imp_of_mem fun {i j} hi hj hij => ?_
    have hi' := List.mem_range.mp (hperm.mem_iff.mp hi)
    have hj' := List.mem_range.mp (hperm.mem_iff.mp hj)
    obtain ⟨hri, hidi⟩ := keys_getD hlen hprod hi'
    obtain ⟨hrj, hidj⟩ := keys_getD hlen hprod hj'
    have hid : ((weights ids sizes).getD i (0, 0)).1 ≠ ((weights ids sizes).getD j (0, 0)).1 := by
      rw [List.getD_eq_getElem _ _ (by rw [length_weights hlen]; exact hi'),
        List.getD_eq_getElem _ _ (by rw [length_weights hlen]; exact hj')]
      simp only [weights, List.getElem_zip]
      exact fun he => hij.2 ((hnodup.getElem_inj_iff).mp he)
    have hb := (before_iff _ _).mp hij.1
    rw [hri, hrj, hidi, hidj, toNat_total hlen htotal] at hb
    rcases hb with hlt | ⟨he, hle⟩
    · exact Or.inl hlt
    · exact Or.inr ⟨he, Nat.lt_of_le_of_ne hle hid⟩

omit hprod htotal in
/-- Whatever `std::sort` returns, the positions are listed in one order. -/
theorem ranking_unique {ps : List Nat} (hperm : ps.Perm (List.range sizes.length))
    (hsort : ps.Pairwise fun i j =>
      before ((keys qty ids sizes).getD i (0, 0)) ((keys qty ids sizes).getD j (0, 0)) = true) :
    ps = ranking (keys qty ids sizes) := by
  have hrank := perm_ranking (keys qty ids sizes)
  rw [length_keys hlen] at hrank
  refine List.Perm.eq_of_pairwise ?_ hsort (pairwise_ranking _) (hperm.trans hrank.symm)
  intro i j hi hj hij hji
  have hi' := List.mem_range.mp (hperm.mem_iff.mp hi)
  have hj' := List.mem_range.mp (hrank.mem_iff.mp hj)
  rw [before_iff] at hij hji
  have hid : ((keys qty ids sizes).getD i (0, 0)).2 = ((keys qty ids sizes).getD j (0, 0)).2 := by
    omega
  rw [List.getD_eq_getElem _ _ (by rw [length_keys hlen]; exact hi'),
    List.getD_eq_getElem _ _ (by rw [length_keys hlen]; exact hj')] at hid
  simp only [keys, List.getElem_zip] at hid
  exact (hnodup.getElem_inj_iff).mp hid

/-- The positions that get a unit are those with less than the leftover before them. -/
theorem mem_lucky (hpos : 0 < Apportion.weight (weights ids sizes)) {i : Nat}
    (hi : i < (weights ids sizes).length) :
    i ∈ lucky qty ids sizes ↔ Apportion.rank qty.toNat (weights ids sizes) (weights ids sizes)[i] <
      Apportion.leftover qty.toNat (weights ids sizes) := by
  obtain ⟨hperm, hsorted⟩ := ranked hlen hprod htotal hnodup
  have hw : (weights ids sizes).Nodup := by
    refine List.Nodup.of_map Prod.fst ?_
    rw [map_fst_weights hlen]
    exact hnodup
  have hrange := perm_ranking (keys qty ids sizes)
  rw [length_keys hlen, ← length_weights hlen] at hrange
  rw [← Apportion.mem_take_leftover hperm hsorted (List.getElem_mem hi), lucky,
    toNat_leftover hlen hprod htotal hpos, ← List.map_take, List.mem_map]
  constructor
  · intro h
    exact ⟨i, h, List.getD_eq_getElem _ _ hi⟩
  · rintro ⟨j, hj, he⟩
    have hj' := List.mem_range.mp (hrange.mem_iff.mp (List.mem_of_mem_take hj))
    rw [List.getD_eq_getElem _ _ hj', hw.getElem_inj_iff] at he
    exact he ▸ hj

omit hprod htotal in
/-- No id is weighed twice. -/
theorem nodup_weights : ((weights ids sizes).map Prod.fst).Nodup := by
  rw [map_fst_weights hlen]
  exact hnodup

/-- A base share with its unit is the exact share. -/
theorem toNat_share (hpos : 0 < Apportion.weight (weights ids sizes)) {i : Nat}
    (hi : i < sizes.length) (hi' : i < (weights ids sizes).length) :
    (if i ∈ lucky qty ids sizes then sizes[i] * qty / sizes.sum + 1
      else sizes[i] * qty / sizes.sum).toNat =
      Apportion.share qty.toNat (weights ids sizes) (weights ids sizes)[i] := by
  have hsum := Apportion.sum_share (q := qty.toNat) hpos (nodup_weights hlen hnodup)
  have hle := List.le_sum_of_mem (List.mem_map_of_mem
    (f := Apportion.share qty.toNat (weights ids sizes)) (List.getElem_mem hi'))
  have hq := qty.toNat_lt
  have hbase : (sizes[i] * qty / sizes.sum).toNat = (weights ids sizes)[i].2 * qty.toNat /
      Apportion.weight (weights ids sizes) := by
    rw [UInt64.toNat_div, Word.toNat_mul (hprod _ (List.getElem_mem hi)), toNat_total hlen htotal]
    simp only [weights, List.getElem_zip, List.getElem_map]
  rw [hsum] at hle
  rw [Apportion.share, ← hbase] at hle ⊢
  have hlucky := mem_lucky hlen hprod htotal hnodup hpos hi'
  by_cases hl : i ∈ lucky qty ids sizes
  · rw [if_pos (hlucky.mp hl)] at hle ⊢
    rw [if_pos hl, Word.toNat_add, UInt64.toNat_one]
    rw [UInt64.toNat_one]
    omega
  · rw [if_neg hl, if_neg fun h => hl (hlucky.mpr h), Nat.add_zero]

/-- The allocation gives each order its share, if `min_fill` leaves it. -/
theorem map_toNat_alloc (minFill : Qty) (hpos : 0 < Apportion.weight (weights ids sizes)) :
    (alloc minFill qty ids sizes).map UInt64.toNat = (weights ids sizes).map fun x =>
      kept minFill (Apportion.share qty.toNat (weights ids sizes) x) := by
  refine List.ext_getElem ?_ fun i hi hi' => ?_
  · rw [List.length_map, List.length_map, length_alloc, length_weights hlen]
  · rw [List.length_map] at hi hi'
    rw [length_alloc] at hi
    rw [List.getElem_map, List.getElem_map, ← toNat_share hlen hprod htotal hnodup hpos hi hi',
      ← toNat_kept]
    simp only [alloc, List.getElem_map, List.getElem_mapIdx, baseAlloc, lucky, keys]
    rfl

/-- Someone gets a share when there is something to share out. -/
theorem exists_alloc_ne_zero (hpos : 0 < Apportion.weight (weights ids sizes)) (hqty : qty ≠ 0)
    (hmin : minFill ≤ 1) : ∃ a ∈ alloc minFill qty ids sizes, a ≠ 0 := by
  by_contra hall
  push Not at hall
  have hsum := Apportion.sum_share (q := qty.toNat) hpos (nodup_weights hlen hnodup)
  have hkept : (weights ids sizes).map (Apportion.share qty.toNat (weights ids sizes)) =
      (alloc minFill qty ids sizes).map UInt64.toNat := by
    rw [map_toNat_alloc hlen hprod htotal hnodup minFill hpos]
    exact List.map_congr_left fun x _ => (kept_of_le_one hmin _).symm
  rw [hkept, List.sum_eq_zero] at hsum
  · exact hqty (Word.toNat_eq_zero.mp hsum.symm)
  · intro v hv
    obtain ⟨a, ha, rfl⟩ := List.mem_map.mp hv
    rw [hall a ha]
    rfl

end Exact

end ProRata

end Lob
