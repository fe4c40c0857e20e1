import Lob.Queue.Volume
import Lob.Resting.Positive

/-!
# Pro-rata allocation

What a call of the pro-rata policy executes, in numbers. While the total of the
best level and its products with the incoming quantity fit into a word, the
policy apportions the quantity by largest remainders, and `apply_fill` takes
from each order what it was given. The fills depend on what the level shows
only. Beyond a word a call may execute more than was asked for.
-/

namespace Lob

namespace ProRata

/-- What an order is filled for: its share, as far as `min_fill` leaves it and the order has it. -/
def given (minFill qty : Qty) (xs : List (Nat × Nat)) (x : Nat × Nat) : Nat :=
  min (kept minFill (Apportion.share qty.toNat xs x)) x.2

variable {minFill qty : Qty} {xs : List (Nat × Nat)} {x : Nat × Nat}

/-- The orders are given no more than there is. -/
theorem given_le_weight : (xs.map (given minFill qty xs)).sum ≤ Apportion.weight xs :=
  List.sum_le_sum fun x _ => Nat.min_le_right _ x.2

section Covered

variable (hnodup : (xs.map Prod.fst).Nodup) (hq : qty.toNat ≤ Apportion.weight xs) (hx : x ∈ xs)
include hnodup hq

/-- No share is larger than its order. -/
theorem share_le : x ∈ xs → Apportion.share qty.toNat xs x ≤ x.2 := by
  intro hx
  rcases Nat.eq_zero_or_pos (Apportion.weight xs) with hzero | hpos
  · have hnone : Apportion.leftover qty.toNat xs = 0 := by
      rw [Apportion.leftover]
      omega
    rw [Apportion.share, hnone, hzero, Nat.div_zero, if_neg (Nat.not_lt_zero _)]
    exact Nat.zero_le _
  · exact Apportion.share_le hpos hnodup hq hx

include hx in
/-- No order is given more than it shows. -/
theorem given_eq : given minFill qty xs x = kept minFill (Apportion.share qty.toNat xs x) :=
  Nat.min_eq_left ((kept_le _ _).trans (share_le hnodup hq hx))

/-- Where there is enough, no more is given than is asked for. -/
theorem sum_given_le : (xs.map (given minFill qty xs)).sum ≤ qty.toNat := by
  rcases Nat.eq_zero_or_pos (Apportion.weight xs) with hzero | hpos
  · have hle : (xs.map (given minFill qty xs)).sum ≤ Apportion.weight xs := given_le_weight
    omega
  · have hsum := Apportion.sum_share (q := qty.toNat) hpos hnodup
    rw [← hsum]
    exact List.sum_le_sum fun x _ => (Nat.min_le_left _ _).trans (kept_le _ _)

/-- Where there is enough and no minimum, all that is asked for is given. -/
theorem sum_given (hmin : minFill ≤ 1) : (xs.map (given minFill qty xs)).sum = qty.toNat := by
  rcases Nat.eq_zero_or_pos (Apportion.weight xs) with hzero | hpos
  · have hle : (xs.map (given minFill qty xs)).sum ≤ Apportion.weight xs := given_le_weight
    omega
  · have hsum := Apportion.sum_share (q := qty.toNat) hpos hnodup
    refine Eq.trans (congrArg List.sum (List.map_congr_left fun x hx => ?_)) hsum
    rw [given_eq hnodup hq hx, kept_of_le_one hmin]

end Covered

/-- When more is asked for than there is, each order is filled whole. -/
theorem given_of_exceeded (hmin : minFill ≤ 1) (hq : Apportion.weight xs < qty.toNat)
    (hx : x ∈ xs) : given minFill qty xs x = x.2 := by
  have hle : x.2 ≤ Apportion.weight xs := List.le_sum_of_mem (List.mem_map_of_mem hx)
  rw [given, kept_of_le_one hmin]
  refine Nat.min_eq_right ?_
  rcases Nat.eq_zero_or_pos (Apportion.weight xs) with hzero | hpos
  · omega
  · have hfloor : x.2 ≤ x.2 * qty.toNat / Apportion.weight xs := by
      rw [Nat.le_div_iff_mul_le hpos]
      exact Nat.mul_le_mul_left _ hq.le
    exact hfloor.trans (Nat.le_add_right _ _)

/-- Together the orders are filled for as much as is asked for and there. -/
theorem sum_given_eq (hnodup : (xs.map Prod.fst).Nodup) (hmin : minFill ≤ 1) :
    (xs.map (given minFill qty xs)).sum = min qty.toNat (Apportion.weight xs) := by
  rcases Nat.lt_or_ge (Apportion.weight xs) qty.toNat with hgt | hle
  · rw [Nat.min_eq_right hgt.le, Apportion.weight]
    exact congrArg List.sum (List.map_congr_left fun x hx => given_of_exceeded hmin hgt hx)
  · rw [sum_given hnodup hle hmin, Nat.min_eq_left hle]

/-- No more is given than is asked for. -/
theorem sum_given_le_qty (hnodup : (xs.map Prod.fst).Nodup) :
    (xs.map (given minFill qty xs)).sum ≤ qty.toNat := by
  rcases Nat.lt_or_ge (Apportion.weight xs) qty.toNat with hgt | hle
  · exact given_le_weight.trans hgt.le
  · exact sum_given_le hnodup hle

/-- A larger size is filled for no less. -/
theorem given_mono (hnodup : (xs.map Prod.fst).Nodup) (hmin : minFill ≤ 1) {y : Nat × Nat}
    (hx : x ∈ xs) (hy : y ∈ xs) (hlt : x.2 < y.2) :
    given minFill qty xs x ≤ given minFill qty xs y := by
  rcases Nat.lt_or_ge (Apportion.weight xs) qty.toNat with hgt | hle
  · rw [given_of_exceeded hmin hgt hx, given_of_exceeded hmin hgt hy]
    exact hlt.le
  · rw [given_eq hnodup hle hx, given_eq hnodup hle hy, kept_of_le_one hmin, kept_of_le_one hmin]
    exact Apportion.share_mono hlt

end ProRata

/-- A fill in numbers. -/
def Fill.exact (f : Fill) : Nat × Int × Nat := (f.restingOrderId, f.price, f.qty.toNat)

/-- A fill is its id, price and exact quantity. -/
theorem Fill.exact_injective : Function.Injective Fill.exact := by
  rintro ⟨i, p, q⟩ ⟨i', p', q'⟩ h
  simp only [exact, Prod.mk.injEq] at h
  obtain ⟨rfl, rfl, hq⟩ := h
  rw [UInt64.toNat_inj.mp hq]

/-- What an order receives in a list of fills. -/
def received (fills : List Fill) (id : Nat) : Nat :=
  Queue.filledQty (fills.filter fun f => f.restingOrderId = id)

section Numbers

variable {fills : List Fill} {xs : List (Nat × Nat)} {x : Nat × Nat} {px : Int}
  {g : Nat × Nat → Nat}

/-- Empty fills add nothing. -/
theorem sum_filter_pos (ns : List (Nat × Int × Nat)) :
    ((ns.filter fun f => 0 < f.2.2).map fun f => f.2.2).sum = (ns.map fun f => f.2.2).sum := by
  induction ns with
  | nil => rfl
  | cons f ns ih =>
    rw [List.filter_cons, List.map_cons, List.sum_cons]
    by_cases hpos : 0 < f.2.2
    · rw [if_pos (decide_eq_true hpos), List.map_cons, List.sum_cons, ih]
    · rw [if_neg (by simpa using hpos), ih]
      omega

/-- What is filled is the sum of the exact quantities. -/
theorem filledQty_eq (fills : List Fill) :
    Queue.filledQty fills = ((fills.map Fill.exact).map fun f => f.2.2).sum := by
  rw [Queue.filledQty, List.map_map]
  rfl

/-- An order is labelled once. -/
theorem filter_label (hnodup : (xs.map Prod.fst).Nodup) (hx : x ∈ xs) :
    xs.filter (fun y => y.1 = x.1) = [x] := by
  induction xs with
  | nil => contradiction
  | cons y xs ih =>
    rw [List.map_cons, List.nodup_cons] at hnodup
    rw [List.filter_cons]
    rcases List.mem_cons.mp hx with rfl | hx
    · have hrest : xs.filter (fun y => y.1 = x.1) = [] := by
        rw [List.filter_eq_nil_iff]
        intro y hy he
        exact hnodup.1 (of_decide_eq_true he ▸ List.mem_map_of_mem hy)
      rw [if_pos (decide_eq_true rfl), hrest]
    · have hne : y.1 ≠ x.1 := fun he => hnodup.1 (he ▸ List.mem_map_of_mem hx)
      rw [if_neg (by simpa using hne), ih hnodup.2 hx]

variable (h : fills.map Fill.exact = (xs.map fun x => (x.1, px, g x)).filter fun f => 0 < f.2.2)
include h

/-- What is filled is the sum of what is given. -/
theorem filledQty_exact : Queue.filledQty fills = (xs.map g).sum := by
  rw [filledQty_eq, h, sum_filter_pos, List.map_map]
  rfl

/-- What an order receives is the quantity listed for it. -/
theorem received_exact (hnodup : (xs.map Prod.fst).Nodup) (hx : x ∈ xs) :
    received fills x.1 = g x := by
  have hmine : (fills.filter fun f => f.restingOrderId = x.1).map Fill.exact =
      (fills.map Fill.exact).filter fun f => f.1 = x.1 := by
    rw [List.filter_map]
    rfl
  rw [received, filledQty_eq, hmine, h, List.filter_comm, sum_filter_pos, List.filter_map]
  have hlabel : (fun f : Nat × Int × Nat => decide (f.1 = x.1)) ∘ (fun y => (y.1, px, g y)) =
      fun y : Nat × Nat => decide (y.1 = x.1) := rfl
  rw [hlabel, filter_label hnodup hx]
  exact Nat.add_zero _

end Numbers

namespace OrderBook

/-- The orders of a level in the order of their arrival, with what they show. -/
def sizes (b : OrderBook) (s : Side) (px : Int) : List (Nat × Nat) :=
  (b.getLevelOrders s px).map fun o => ((b.mem o).orderId, (b.mem o).remainingQty.toNat)

/-- What a call of the pro-rata policy is to execute, and the arithmetic it is to do. -/
structure ProRataSafe (b : OrderBook) (side : Side) (px : Int) (minFill qty : Qty) : Prop where
  atMost : Queue.filledQty (ProRata.match minFill b side qty).1 ≤ qty.toNat
  exact : minFill ≤ 1 → Queue.filledQty (ProRata.match minFill b side qty).1 =
    min qty.toNat (Apportion.weight (b.sizes side.opposite px))
  total : ((b.getLevelOrders side.opposite px).map fun o => (b.mem o).remainingQty).sum.toNat =
    Apportion.weight (b.sizes side.opposite px)
  products : ∀ o ∈ b.getLevelOrders side.opposite px,
    ((b.mem o).remainingQty * qty).toNat = (b.mem o).remainingQty.toNat * qty.toNat

/-- The documented rule: the largest remainders get the units that the floors leave over, and
nothing but what the level shows counts. -/
structure LargestRemainder (b : OrderBook) (side : Side) (px : Int) (minFill qty : Qty) :
    Prop where
  total : minFill ≤ 1 → Queue.filledQty (ProRata.match minFill b side qty).1 =
    min qty.toNat (Apportion.weight (b.sizes side.opposite px))
  fills : qty.toNat ≤ Apportion.weight (b.sizes side.opposite px) →
    (ProRata.match minFill b side qty).1.map Fill.exact =
      ((b.sizes side.opposite px).map fun x => (x.1, px, ProRata.kept minFill
        (Apportion.share qty.toNat (b.sizes side.opposite px) x))).filter fun f => 0 < f.2.2
  few : qty.toNat ≤ Apportion.weight (b.sizes side.opposite px) →
    Apportion.leftover qty.toNat (b.sizes side.opposite px) < (b.sizes side.opposite px).length
  within : qty.toNat ≤ Apportion.weight (b.sizes side.opposite px) →
    ∀ x ∈ b.sizes side.opposite px,
      Apportion.share qty.toNat (b.sizes side.opposite px) x ≤ x.2
  monotone : minFill ≤ 1 → ∀ x ∈ b.sizes side.opposite px, ∀ y ∈ b.sizes side.opposite px,
    x.2 < y.2 → received (ProRata.match minFill b side qty).1 x.1 ≤
      received (ProRata.match minFill b side qty).1 y.1
  listed : ((ProRata.match minFill b side qty).1.map Fill.restingOrderId).Sublist
    ((b.sizes side.opposite px).map Prod.fst)
  hidden : ∀ capacity mode b', Reachable capacity mode b' →
    b'.best side.opposite = some px → b'.sizes side.opposite px = b.sizes side.opposite px →
      (ProRata.match minFill b' side qty).1 = (ProRata.match minFill b side qty).1

variable {b : OrderBook} {side : Side} {px : Int} {minFill qty : Qty}

/-- The sizes are the weights of the level. -/
theorem sizes_eq (b : OrderBook) (s : Side) (px : Int) : b.sizes s px =
    ProRata.weights ((b.getLevelOrders s px).map fun o => (b.mem o).orderId)
      ((b.getLevelOrders s px).map fun o => (b.mem o).remainingQty) := by
  rw [sizes, ProRata.weights, List.map_map, List.zip_map']
  rfl

/-- The weight of a level is the sum of its visible parts. -/
theorem weight_sizes (b : OrderBook) (s : Side) (px : Int) :
    Apportion.weight (b.sizes s px) =
      ((b.getLevelOrders s px).map fun o => (b.mem o).remainingQty.toNat).sum := by
  rw [Apportion.weight, sizes, List.map_map]
  rfl

/-- The order fits when the total and every product do. -/
theorem fits_iff (hbest : b.best side.opposite = some px) : b.Fits side qty ↔
    Apportion.weight (b.sizes side.opposite px) < 2 ^ 64 ∧
      ∀ x ∈ b.sizes side.opposite px, x.2 * qty.toNat < 2 ^ 64 := by
  rw [weight_sizes, sizes, List.forall_mem_map]
  constructor
  · exact fun h => h px hbest
  · intro h px' hbest'
    rw [hbest] at hbest'
    obtain rfl := Option.some.inj hbest'
    exact h

/-- The shares are those of the largest remainders, where the arithmetic is exact. -/
theorem WellFormed.shares_exact (h : b.WellFormed) (hbest : b.best side.opposite = some px)
    (hfits : b.Fits side qty) :
    ((ProRata.shares minFill b side qty).map fun n => ((b.mem n.1).orderId, px,
        min n.2.toNat (b.mem n.1).remainingQty.toNat)).filter (fun f => 0 < f.2.2) =
      ((b.sizes side.opposite px).map fun x =>
        (x.1, px, ProRata.given minFill qty (b.sizes side.opposite px) x)).filter
          fun f => 0 < f.2.2 := by
  obtain ⟨htotal, hprod⟩ := hfits px hbest
  have hnodup := h.nodup_levelIds side.opposite px
  have hsizes := b.sizes_eq side.opposite px
  have hweight := b.weight_sizes side.opposite px
  have hlength : (b.sizes side.opposite px).length = (b.getLevelOrders side.opposite px).length :=
    List.length_map _
  have hget (i : Nat) (hi : i < (b.sizes side.opposite px).length)
      (hi' : i < (b.getLevelOrders side.opposite px).length) : (b.sizes side.opposite px)[i] =
        ((b.mem (b.getLevelOrders side.opposite px)[i]).orderId,
          (b.mem (b.getLevelOrders side.opposite px)[i]).remainingQty.toNat) :=
    List.getElem_map _
  simp only [ProRata.shares, hbest]
  generalize b.getLevelOrders side.opposite px = orders at *
  generalize b.sizes side.opposite px = xs at *
  have hlen : (orders.map fun o => (b.mem o).orderId).length =
      (orders.map fun o => (b.mem o).remainingQty).length := by
    rw [List.length_map, List.length_map]
  have htotal' : ((orders.map fun o => (b.mem o).remainingQty).map UInt64.toNat).sum <
      2 ^ 64 := by
    rw [List.map_map]
    exact htotal
  have hsum := ProRata.toNat_total hlen htotal'
  rw [← hsizes] at hsum
  split
  · next hnone =>
    have hzero : Apportion.weight xs = 0 := by
      rcases hnone with rfl | hs
      · rw [hweight]
        rfl
      · rw [← hsum, hs]
        rfl
    rw [List.map_nil, List.filter_nil]
    symm
    rw [List.filter_eq_nil_iff, List.forall_mem_map]
    intro x hx
    have hle : x.2 ≤ Apportion.weight xs := List.le_sum_of_mem (List.mem_map_of_mem hx)
    have hgiven : ProRata.given minFill qty xs x ≤ x.2 := Nat.min_le_right _ _
    change ¬ decide (0 < ProRata.given minFill qty xs x) = true
    rw [decide_eq_true_eq]
    omega
  · next hsome =>
    have hpos : 0 < Apportion.weight xs := by
      rw [← hsum]
      exact Word.toNat_pos.mpr fun hs => hsome (Or.inr hs)
    have hprod' : ∀ x ∈ orders.map fun o => (b.mem o).remainingQty,
        x.toNat * qty.toNat < 2 ^ 64 := List.forall_mem_map.mpr hprod
    have halloc := ProRata.map_toNat_alloc hlen hprod' htotal' hnodup minFill (hsizes ▸ hpos)
    rw [← hsizes] at halloc
    have hlength' := ProRata.length_alloc minFill qty (orders.map fun o => (b.mem o).orderId)
      (orders.map fun o => (b.mem o).remainingQty)
    rw [List.length_map] at hlength'
    refine congrArg (List.filter _) (List.ext_getElem ?_ fun i hi hi' => ?_)
    · rw [List.length_map, List.length_map, List.length_zip, hlength', Nat.min_self, hlength]
    · rw [List.length_map] at hi'
      have hio : i < orders.length := hlength ▸ hi'
      have hshare := List.getElem_of_eq halloc (i := i) (by rw [List.length_map]; omega)
      rw [List.getElem_map, List.getElem_map] at hshare
      rw [List.getElem_map, List.getElem_map, List.getElem_zip]
      rw [ProRata.given, ← hshare, hget i hi' hio]

/-- The fills are what the orders are given, the empty ones left out. -/
theorem WellFormed.proRata_exact (h : b.WellFormed) (hbest : b.best side.opposite = some px)
    (hfits : b.Fits side qty) (minFill : Qty) :
    (ProRata.match minFill b side qty).1.map Fill.exact =
      ((b.sizes side.opposite px).map fun x =>
        (x.1, px, ProRata.given minFill qty (b.sizes side.opposite px) x)).filter
          fun f => 0 < f.2.2 := by
  have hexact : (ProRata.match minFill b side qty).1.map Fill.exact =
      ((ProRata.shares minFill b side qty).map fun n => ((b.mem n.1).orderId, px,
        min n.2.toNat (b.mem n.1).remainingQty.toNat)).filter fun f => 0 < f.2.2 := by
    rw [h.proRata_reports hbest, List.filter_map, List.filter_map, List.map_map]
    have hpos : (fun f : Nat × Int × Nat => decide (0 < f.2.2)) ∘ (fun n : Ptr × Qty =>
        ((b.mem n.1).orderId, px, min n.2.toNat (b.mem n.1).remainingQty.toNat)) =
        (fun f : Fill => decide (0 < f.qty)) ∘ fun n =>
          ⟨(b.mem n.1).orderId, px, min n.2 (b.mem n.1).remainingQty⟩ := by
      funext n
      simp only [Function.comp_apply, UInt64.lt_iff_toNat_lt, UInt64.toNat_zero, Word.toNat_min]
    rw [hpos]
    refine List.map_congr_left fun n _ => ?_
    simp only [Function.comp_apply, Fill.exact, Word.toNat_min]
  exact hexact.trans (h.shares_exact hbest hfits)

/-- No id occurs twice in a level. -/
theorem WellFormed.nodup_sizes (h : b.WellFormed) (s : Side) (px : Int) :
    ((b.sizes s px).map Prod.fst).Nodup := by
  rw [sizes, List.map_map]
  exact h.nodup_levelIds s px

/-- The best level has an order. -/
theorem WellFormed.sizes_pos (h : b.WellFormed) {s : Side} (hbest : b.best s = some px) :
    0 < (b.sizes s px).length := by
  obtain ⟨⟨o, ho⟩, _⟩ := (h.best_iff px).mp hbest
  obtain ⟨i, l, hl, _, hmem⟩ := h.findLevel_of_on ho
  rw [sizes, List.length_map, h.getLevelOrders_eq hl]
  exact List.length_pos_of_mem hmem

/-- A call is safe exactly when its arithmetic is. -/
theorem WellFormed.proRataSafe_iff (h : b.WellFormed) (hbest : b.best side.opposite = some px)
    (minFill qty : Qty) : b.ProRataSafe side px minFill qty ↔ b.Fits side qty := by
  have hnodup := h.nodup_sizes side.opposite px
  constructor
  · intro hsafe
    refine (fits_iff hbest).mpr ⟨?_, ?_⟩
    · rw [← hsafe.total]
      exact UInt64.toNat_lt _
    · rw [sizes, List.forall_mem_map]
      intro o ho
      change (b.mem o).remainingQty.toNat * qty.toNat < 2 ^ 64
      rw [← hsafe.products o ho]
      exact UInt64.toNat_lt _
  · intro hfits
    have hexact := h.proRata_exact hbest hfits minFill
    have hfilled := filledQty_exact hexact
    obtain ⟨htotal, hprod⟩ := hfits px hbest
    refine ⟨?_, fun hmin => ?_, ?_, fun o ho => Word.toNat_mul (hprod o ho)⟩
    · rw [hfilled]
      exact ProRata.sum_given_le_qty hnodup
    · rw [hfilled, ProRata.sum_given_eq hnodup hmin]
    · rw [weight_sizes, Word.toNat_sum]
      · rw [List.map_map]
        rfl
      · rw [List.map_map]
        exact htotal

/-- The arithmetic of small sizes is exact. -/
theorem proRataSafe_shares :
    (([.add .sell 100 4, .add .sell 100 6] : List Op).foldl apply
      (new 4 .pool)).ProRataSafe .buy 100 1 3 ↔
    (([.add .sell 100 4, .add .sell 100 6] : List Op).foldl apply (new 4 .pool)).Fits .buy 3 := by
  have hb : Reachable 4 .pool (([.add .sell 100 4, .add .sell 100 6] : List Op).foldl apply
      (new 4 .pool)) := Run.Reach.foldl Run.Reach.init (by simp [Run.Allowed])
  exact hb.wellFormed.1.proRataSafe_iff (by decide +kernel) 1 3

/-- Two sizes whose total wraps to one: a call for one unit executes both orders whole. -/
theorem proRata_overexecutes :
    ¬ (([.add .sell 100 (2 ^ 63), .add .sell 100 (2 ^ 63 + 1)] : List Op).foldl apply
      (new 4 .pool)).ProRataSafe .buy 100 1 1 := by
  intro h
  exact absurd h.atMost (by decide +kernel)

/-- In every reachable book, while the arithmetic is exact, the policy follows the rule of the
largest remainders. -/
theorem reachable_largestRemainder {capacity : Nat} {mode : AllocMode}
    (hb : Reachable capacity mode b) (hbest : b.best side.opposite = some px)
    (hfits : b.Fits side qty) (minFill : Qty) : b.LargestRemainder side px minFill qty := by
  obtain ⟨h, _⟩ := hb.wellFormed
  have hnodup := h.nodup_sizes side.opposite px
  have hexact := h.proRata_exact hbest hfits minFill
  constructor
  · intro hmin
    rw [filledQty_exact hexact, ProRata.sum_given_eq hnodup hmin]
  · intro hle
    rw [hexact]
    refine congrArg (List.filter _) (List.map_congr_left fun x hx => ?_)
    rw [ProRata.given_eq hnodup hle hx]
  · intro hle
    rcases Nat.eq_zero_or_pos (Apportion.weight (b.sizes side.opposite px)) with hzero | hpos
    · have hnone : Apportion.leftover qty.toNat (b.sizes side.opposite px) = 0 := by
        rw [Apportion.leftover]
        omega
      rw [hnone]
      exact h.sizes_pos hbest
    · exact Apportion.leftover_lt_length hpos
  · exact fun hle x => ProRata.share_le hnodup hle
  · intro hmin x hx y hy hlt
    rw [received_exact hexact hnodup hx, received_exact hexact hnodup hy]
    exact ProRata.given_mono hnodup hmin hx hy hlt
  · have hlist : (ProRata.match minFill b side qty).1.map Fill.restingOrderId =
        ((ProRata.match minFill b side qty).1.map Fill.exact).map Prod.fst := by
      rw [List.map_map]
      rfl
    have hsub := (List.filter_sublist (p := fun f => decide (0 < f.2.2))
      (l := (b.sizes side.opposite px).map fun x => (x.1, px, ProRata.given minFill qty
        (b.sizes side.opposite px) x))).map Prod.fst
    rw [List.map_map] at hsub
    rw [hlist, hexact]
    exact hsub
  · intro capacity' mode' b' hb' hbest' hsizes
    have hfits' : b'.Fits side qty := by
      rw [fits_iff hbest', hsizes]
      exact (fits_iff hbest).mp hfits
    have hexact' := hb'.wellFormed.1.proRata_exact hbest' hfits' minFill
    rw [hsizes, ← hexact] at hexact'
    exact List.map_injective_iff.mpr Fill.exact_injective hexact'

/-- Three units among sizes of four and six: the larger remainder gets the unit left over. -/
theorem reachable_largestRemainder_shares :
    (([.add .sell 100 4, .add .sell 100 6] : List Op).foldl apply
      (new 4 .pool)).LargestRemainder .buy 100 1 3 := by
  have hb : Reachable 4 .pool (([.add .sell 100 4, .add .sell 100 6] : List Op).foldl apply
      (new 4 .pool)) := Run.Reach.foldl Run.Reach.init (by simp [Run.Allowed])
  have hbest : (([.add .sell 100 4, .add .sell 100 6] : List Op).foldl apply
      (new 4 .pool)).best Side.buy.opposite = some 100 := by decide +kernel
  exact reachable_largestRemainder hb hbest ((fits_iff hbest).mpr (by decide +kernel)) 1

end OrderBook

end Lob
