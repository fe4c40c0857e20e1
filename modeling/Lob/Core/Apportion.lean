import Mathlib.Algebra.Order.BigOperators.Group.List
import Mathlib.Algebra.Order.Ring.Nat
import Mathlib.Data.List.Sort

/-!
# Apportionment by largest remainders

A quantity is split among weights in proportion. The floors of the shares and
the remainders of the divisions account for the whole, so the floors never
exceed it. What they leave over goes, one unit each, to the largest remainders;
labels break ties. The shares then add up, stay below the weights and follow
their order.
-/

namespace Apportion

/-- The floors of the shares of `q` that weights out of `total` have. -/
def floors (q total : Nat) (weights : List Nat) : List Nat :=
  weights.map fun w => w * q / total

/-- The remainders of the divisions. -/
def remainders (q total : Nat) (weights : List Nat) : List Nat :=
  weights.map fun w => w * q % total

variable {q total : Nat} {weights : List Nat}

/-- Floors and remainders make up the products. -/
theorem mul_sum_floors_add (q total : Nat) (weights : List Nat) :
    total * (floors q total weights).sum + (remainders q total weights).sum =
      weights.sum * q := by
  induction weights with
  | nil => simp [floors, remainders]
  | cons w ws ih =>
    have hw := Nat.div_add_mod (w * q) total
    simp only [floors, remainders, List.map_cons, List.sum_cons, Nat.mul_add, Nat.add_mul] at ih ⊢
    omega

/-- The floors of all shares do not exceed what is split. -/
theorem sum_floors_le (q : Nat) (htotal : 0 < total) (hsum : weights.sum = total) :
    (floors q total weights).sum ≤ q := by
  have h := mul_sum_floors_add q total weights
  rw [hsum] at h
  exact Nat.le_of_mul_le_mul_left (by omega) htotal

/-- The remainders are what the floors leave over, in units of the total. -/
theorem sum_remainders (q : Nat) (hsum : weights.sum = total) :
    (remainders q total weights).sum = (q - (floors q total weights).sum) * total := by
  have h := mul_sum_floors_add q total weights
  rw [hsum] at h
  rw [Nat.sub_mul, Nat.mul_comm q, Nat.mul_comm _ total]
  omega

theorem sum_remainders_add_length_le (q : Nat) (htotal : 0 < total) (weights : List Nat) :
    (remainders q total weights).sum + weights.length ≤ weights.length * total := by
  induction weights with
  | nil => simp [remainders]
  | cons w ws ih =>
    have hw := Nat.mod_lt (w * q) htotal
    simp only [remainders, List.map_cons, List.sum_cons, List.length_cons, Nat.add_mul] at ih ⊢
    omega

section Ranking

variable {α : Type*} {r : α → α → Prop} [DecidableRel r] {l : List α} {x : α}

/-- In a strictly ordered list, the first `k` are those with fewer than `k` others before them. -/
theorem mem_take_iff (hasymm : ∀ x y, r x y → ¬ r y x) (hl : l.Pairwise r) (hx : x ∈ l) (k : Nat) :
    x ∈ l.take k ↔ l.countP (fun y => r y x) < k := by
  induction l generalizing k with
  | nil => contradiction
  | cons y l ih =>
    rw [List.pairwise_cons] at hl
    cases k with
    | zero => simp
    | succ k =>
      rw [List.take_succ_cons, List.mem_cons, List.countP_cons]
      by_cases hxy : x = y
      · subst hxy
        have hself : ¬ r x x := fun h => hasymm x x h h
        have hzero : l.countP (fun z => r z x) = 0 := by
          rw [List.countP_eq_zero]
          intro z hz
          simpa using hasymm x z (hl.1 z hz)
        simp [hself, hzero]
      · have hmem := (List.mem_cons.mp hx).resolve_left hxy
        have hyx : r y x := hl.1 x hmem
        rw [ih hl.2 hmem, if_pos (decide_eq_true hyx), Nat.add_lt_add_iff_right]
        simp [hxy]

end Ranking

variable {κ : Type*} {xs ys : List (κ × Nat)} {x y : κ × Nat}

/-- The total of labelled weights. -/
def weight (xs : List (κ × Nat)) : Nat := (xs.map Prod.snd).sum

/-- What the floors leave over. -/
def leftover (q : Nat) (xs : List (κ × Nat)) : Nat :=
  q - (floors q (weight xs) (xs.map Prod.snd)).sum

theorem sum_floors_add_leftover (htotal : 0 < weight xs) :
    (floors q (weight xs) (xs.map Prod.snd)).sum + leftover q xs = q := by
  have h : (floors q (weight xs) (xs.map Prod.snd)).sum ≤ q := sum_floors_le q htotal rfl
  rw [leftover]
  omega

/-- There are more weights than units left over. -/
theorem leftover_lt_length (htotal : 0 < weight xs) : leftover q xs < xs.length := by
  have hsum : (remainders q (weight xs) (xs.map Prod.snd)).sum = leftover q xs * weight xs :=
    sum_remainders q rfl
  have hle := sum_remainders_add_length_le q htotal (xs.map Prod.snd)
  rw [hsum, List.length_map] at hle
  have hpos : 0 < xs.length := by
    cases xs with
    | nil => simp [weight] at htotal
    | cons x xs => simp
  have hlt : leftover q xs * weight xs < xs.length * weight xs := by omega
  exact Nat.lt_of_mul_lt_mul_right hlt

variable [LinearOrder κ]

/-- `x` comes before `y` when units are given out: larger remainder, then smaller label. -/
def Precedes (q total : Nat) (x y : κ × Nat) : Prop :=
  y.2 * q % total < x.2 * q % total ∨ x.2 * q % total = y.2 * q % total ∧ x.1 < y.1

instance (q total : Nat) : DecidableRel (@Precedes κ _ q total) :=
  fun _ _ => inferInstanceAs (Decidable (_ ∨ _))

/-- How many come before `x`. -/
def rank (q : Nat) (xs : List (κ × Nat)) (x : κ × Nat) : Nat :=
  xs.countP fun y => Precedes q (weight xs) y x

/-- The share of `x`: its floor, and a unit of the leftover if it is among the first. -/
def share (q : Nat) (xs : List (κ × Nat)) (x : κ × Nat) : Nat :=
  x.2 * q / weight xs + if rank q xs x < leftover q xs then 1 else 0

theorem precedes_asymm (x y : κ × Nat) (h : Precedes q total x y) : ¬ Precedes q total y x := by
  rintro (hlt | ⟨he, hlt⟩)
  · rcases h with hlt' | ⟨he', _⟩ <;> omega
  · rcases h with hlt' | ⟨_, hlt'⟩
    · omega
    · exact lt_asymm hlt hlt'

theorem precedes_trans (x y z : κ × Nat) (h : Precedes q total x y) (h' : Precedes q total y z) :
    Precedes q total x z := by
  rcases h with hlt | ⟨he, hlt⟩
  · rcases h' with hlt' | ⟨he', _⟩
    · exact Or.inl (hlt'.trans hlt)
    · exact Or.inl (he' ▸ hlt)
  · rcases h' with hlt' | ⟨he', hlt'⟩
    · exact Or.inl (he ▸ hlt')
    · exact Or.inr ⟨he.trans he', hlt.trans hlt'⟩

theorem precedes_total (hne : x.1 ≠ y.1) : Precedes q total x y ∨ Precedes q total y x := by
  unfold Precedes
  rcases lt_or_gt_of_ne hne with hlt | hlt
  · rcases Nat.lt_trichotomy (x.2 * q % total) (y.2 * q % total) with h | h | h <;> tauto
  · rcases Nat.lt_trichotomy (x.2 * q % total) (y.2 * q % total) with h | h | h <;> tauto

/-- Differently labelled weights can be listed in the order in which units are given out. -/
theorem exists_ranked (hnodup : (xs.map Prod.fst).Nodup) (q total : Nat) :
    ∃ ys : List (κ × Nat), ys.Perm xs ∧ ys.Pairwise (Precedes q total) := by
  induction xs with
  | nil => exact ⟨[], List.Perm.refl _, List.Pairwise.nil⟩
  | cons x xs ih =>
    rw [List.map_cons, List.nodup_cons] at hnodup
    obtain ⟨ys, hperm, hys⟩ := ih hnodup.2
    have hne (y : κ × Nat) (hy : y ∈ ys) : y.1 ≠ x.1 := by
      intro he
      exact hnodup.1 (he ▸ List.mem_map_of_mem (hperm.mem_iff.mp hy))
    -- `x` goes behind those that precede it
    refine ⟨ys.filter (fun y => Precedes q total y x) ++
      x :: ys.filter (fun y => ¬ Precedes q total y x), ?_, ?_⟩
    · refine List.perm_middle.trans (List.Perm.cons x ?_)
      have hsplit := List.filter_append_perm (fun y => decide (Precedes q total y x)) ys
      simp only [decide_not] at hsplit ⊢
      exact hsplit.trans hperm
    · rw [List.pairwise_append, List.pairwise_cons]
      refine ⟨hys.filter _, ⟨fun y hy => ?_, hys.filter _⟩, fun y hy z hz => ?_⟩
      · rw [List.mem_filter, decide_eq_true_eq] at hy
        exact (precedes_total (hne y hy.1)).resolve_left hy.2
      · rw [List.mem_filter, decide_eq_true_eq] at hy
        rcases List.mem_cons.mp hz with rfl | hz
        · exact hy.2
        · rw [List.mem_filter, decide_eq_true_eq] at hz
          exact precedes_trans _ _ _ hy.2 ((precedes_total (hne z hz.1)).resolve_left hz.2)

/-- The weights that get a unit are the first ones of the ranking. -/
theorem mem_take_leftover (hperm : ys.Perm xs) (hys : ys.Pairwise (Precedes q (weight xs)))
    (hx : x ∈ xs) (k : Nat) : x ∈ ys.take k ↔ rank q xs x < k := by
  rw [mem_take_iff precedes_asymm hys (hperm.mem_iff.mpr hx), hperm.countP_eq, rank]

section Total

variable (htotal : 0 < weight xs) (hnodup : (xs.map Prod.fst).Nodup)
include htotal hnodup

/-- A weight that gets a unit has a remainder. -/
theorem remainder_pos (hx : x ∈ xs) (hr : rank q xs x < leftover q xs) :
    0 < x.2 * q % weight xs := by
  obtain ⟨ys, hperm, hys⟩ := exists_ranked hnodup q (weight xs)
  rw [← mem_take_leftover hperm hys hx] at hr
  by_contra hz
  have hz' : x.2 * q % weight xs = 0 := by omega
  obtain ⟨i, hi, hxi⟩ := List.mem_iff_getElem.mp hr
  rw [List.length_take] at hi
  rw [List.getElem_take] at hxi
  -- from position `i` on all remainders are zero
  have hafter : ∀ y ∈ ys.drop i, y.2 * q % weight xs = 0 := by
    have hdrop : ys.drop i = x :: ys.drop (i + 1) := by
      rw [List.drop_eq_getElem_cons (by omega), hxi]
    have hpair := hys.sublist (List.drop_sublist i ys)
    rw [hdrop] at hpair ⊢
    intro y hy
    rcases List.mem_cons.mp hy with rfl | hy
    · exact hz'
    · rcases (List.pairwise_cons.mp hpair).1 y hy with hlt | ⟨he, _⟩ <;> omega
  have hsum : (remainders q (weight xs) (xs.map Prod.snd)).sum = leftover q xs * weight xs :=
    sum_remainders q rfl
  have hcut := sum_remainders_add_length_le q htotal ((ys.take i).map Prod.snd)
  have hwhole : (remainders q (weight xs) (xs.map Prod.snd)).sum =
      (remainders q (weight xs) ((ys.take i).map Prod.snd)).sum := by
    simp only [remainders, List.map_map]
    rw [← (hperm.map _).sum_eq]
    nth_rewrite 1 [← List.take_append_drop i ys]
    rw [List.map_append, List.sum_append, Nat.add_eq_left, List.sum_eq_zero]
    intro v hv
    obtain ⟨y, hy, rfl⟩ := List.mem_map.mp hv
    exact hafter y hy
  rw [List.length_map, List.length_take, Nat.min_eq_left (by omega)] at hcut
  have hlt : leftover q xs * weight xs ≤ i * weight xs := by omega
  have hle := Nat.le_of_mul_le_mul_right hlt htotal
  omega

/-- The shares add up to what is split. -/
theorem sum_share : (xs.map (share q xs)).sum = q := by
  obtain ⟨ys, hperm, hys⟩ := exists_ranked hnodup q (weight xs)
  have hunits : (xs.map fun x => if rank q xs x < leftover q xs then 1 else 0).sum =
      leftover q xs := by
    have hys' : ys.Nodup := by
      refine hys.imp fun {a b} hab => ?_
      rintro rfl
      exact precedes_asymm _ _ hab hab
    have hlen := leftover_lt_length (q := q) htotal
    rw [← (hperm.map _).sum_eq]
    nth_rewrite 1 [← List.take_append_drop (leftover q xs) ys]
    rw [List.map_append, List.sum_append]
    have htake : ((ys.take (leftover q xs)).map fun x =>
        if rank q xs x < leftover q xs then 1 else 0).sum = leftover q xs := by
      have hone : ((ys.take (leftover q xs)).map fun x =>
          if rank q xs x < leftover q xs then 1 else 0) =
          (ys.take (leftover q xs)).map fun _ => 1 := by
        refine List.map_congr_left fun y hy => if_pos ?_
        exact (mem_take_leftover hperm hys (hperm.mem_iff.mp (List.mem_of_mem_take hy)) _).mp hy
      rw [hone, List.map_const', List.sum_replicate, List.length_take, hperm.length_eq,
        Nat.min_eq_left hlen.le, Nat.nsmul_eq_mul, Nat.mul_one]
    have hdrop : ((ys.drop (leftover q xs)).map fun x =>
        if rank q xs x < leftover q xs then 1 else 0).sum = 0 := by
      rw [List.sum_eq_zero]
      intro v hv
      obtain ⟨y, hy, rfl⟩ := List.mem_map.mp hv
      refine if_neg fun hr => ?_
      rw [← mem_take_leftover hperm hys (hperm.mem_iff.mp (List.mem_of_mem_drop hy))] at hr
      exact List.disjoint_take_drop hys' (Nat.le_refl _) hr hy
    rw [htake, hdrop, Nat.add_zero]
  have hfloors := sum_floors_add_leftover (q := q) htotal
  simp only [floors, List.map_map] at hfloors
  have hshare : xs.map (share q xs) = xs.map fun x => x.2 * q / weight xs +
      if rank q xs x < leftover q xs then 1 else 0 := rfl
  rw [hshare, List.sum_map_add, hunits]
  exact hfloors

/-- No share exceeds its weight when no more than the total is split. -/
theorem share_le (hq : q ≤ weight xs) (hx : x ∈ xs) : share q xs x ≤ x.2 := by
  have hmul : x.2 * q ≤ x.2 * weight xs := Nat.mul_le_mul_left _ hq
  have hdiv := Nat.div_add_mod (x.2 * q) (weight xs)
  have hfloor : x.2 * q / weight xs ≤ x.2 :=
    Nat.div_le_of_le_mul (by rw [Nat.mul_comm (weight xs)]; exact hmul)
  rw [share]
  split
  · next hr =>
    have hpos := remainder_pos htotal hnodup hx hr
    by_contra hlt
    have heq : x.2 * q / weight xs = x.2 := by omega
    rw [heq, Nat.mul_comm (weight xs)] at hdiv
    omega
  · exact hfloor

omit htotal hnodup in
/-- A larger weight gets no smaller share. -/
theorem share_mono (hlt : x.2 < y.2) : share q xs x ≤ share q xs y := by
  have hmul : x.2 * q ≤ y.2 * q := Nat.mul_le_mul_right _ hlt.le
  have hfloor : x.2 * q / weight xs ≤ y.2 * q / weight xs := Nat.div_le_div_right hmul
  have hx := Nat.div_add_mod (x.2 * q) (weight xs)
  have hy := Nat.div_add_mod (y.2 * q) (weight xs)
  rw [share, share]
  by_cases hf : x.2 * q / weight xs < y.2 * q / weight xs
  · split <;> split <;> omega
  · have heq : x.2 * q / weight xs = y.2 * q / weight xs := by omega
    rw [heq] at hx ⊢
    refine Nat.add_le_add_left ?_ _
    by_cases hr : rank q xs x < leftover q xs
    · -- whoever comes before the larger weight comes before the smaller one
      have hqpos : 0 < q := by
        rw [leftover] at hr
        omega
      have hless : x.2 * q < y.2 * q := Nat.mul_lt_mul_of_pos_right hlt hqpos
      have hrank : rank q xs y ≤ rank q xs x := by
        refine List.countP_mono_left fun z _ hz => ?_
        rw [decide_eq_true_eq] at hz ⊢
        left
        rcases hz with hz | ⟨hz, _⟩ <;> omega
      rw [if_pos hr, if_pos (Nat.lt_of_le_of_lt hrank hr)]
    · rw [if_neg hr]
      exact Nat.zero_le _

end Total

end Apportion
