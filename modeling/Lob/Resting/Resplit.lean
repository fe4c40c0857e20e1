import Lob.Resting.Disclosure

/-!
# Splitting a resting order anew

`configure_iceberg` is to divide what an order still has open into a visible and
a hidden part. It divides the order's size instead, so it does what it should
exactly when nothing of the size has been executed, and when the update of the
level's aggregate does not stop at zero.
-/

namespace Lob.OrderBook

/-- What a split of a resting order is to do: the open quantity is kept, the visible part is at
most the display quantity, and the aggregate of the level changes as the visible part does. -/
structure ResplitsOrder (b : OrderBook) (id : Nat) (display : Qty) (o : Ptr) : Prop where
  total : ((b.configureIceberg id display).2.mem o).remainingQty.toNat +
      ((b.configureIceberg id display).2.mem o).hiddenQty.toNat =
    (b.mem o).remainingQty.toNat + (b.mem o).hiddenQty.toNat
  visible : ((b.configureIceberg id display).2.mem o).remainingQty.toNat =
    min display.toNat ((b.mem o).remainingQty.toNat + (b.mem o).hiddenQty.toNat)
  aggregate : ∀ i l, b.findLevel (b.mem o).side (b.mem o).price = some (i, l) →
    ∃ l', (b.configureIceberg id display).2.findLevel (b.mem o).side (b.mem o).price =
        some (i, l') ∧
      l'.aggQty = l.aggQty +
        (((b.configureIceberg id display).2.mem o).remainingQty - (b.mem o).remainingQty)

def Resplits (b : OrderBook) (id : Nat) (display : Qty) : Prop :=
  ∀ o, b.findId id = some o → b.ResplitsOrder id display o

/-- What the visible part of an order grows by when its open quantity is split anew. -/
def grown (x : Order) (display : Qty) : Nat :=
  min (display.toNat - x.remainingQty.toNat) x.hiddenQty.toNat

/-- What the visible part is cut by. -/
def cut (x : Order) (display : Qty) : Nat := x.remainingQty.toNat - display.toNat

/-- The orders that are split as they should be: all of the size is still open, and the aggregate
of the level covers what is taken from it. A growth by half the word range or more is taken for a
cut by its complement. -/
def Splittable (b : OrderBook) (id : Nat) (display : Qty) : Prop :=
  ∀ o, b.findId id = some o →
    (b.mem o).qty.toNat = (b.mem o).remainingQty.toNat + (b.mem o).hiddenQty.toNat ∧
    ∀ i l, b.findLevel (b.mem o).side (b.mem o).price = some (i, l) →
      (2 ^ 63 ≤ grown (b.mem o) display → 2 ^ 64 ≤ l.aggQty.toNat + grown (b.mem o) display) ∧
      (cut (b.mem o) display ≤ 2 ^ 63 → cut (b.mem o) display ≤ l.aggQty.toNat)

variable {b : OrderBook} {id : Nat} {display : Qty} {o : Ptr} {capacity : Nat} {mode : AllocMode}

/-- The aggregate follows the signed difference unless it would go below zero. -/
theorem adjusted_sub_eq_iff (agg new old : Qty) :
    adjusted agg (new.toInt64 - old.toInt64) = agg + (new - old) ↔
      (2 ^ 63 ≤ (new - old).toNat → old - new ≤ agg) := by
  have hsign := Word.sub_toInt64_nonneg new old
  rw [adjusted, Word.toUInt64_sub, Word.toUInt64_neg_sub, decreased]
  by_cases hs : 0 ≤ new.toInt64 - old.toInt64
  · rw [if_pos hs]
    have hlt := hsign.mp hs
    exact iff_of_true rfl fun hle => absurd hle (by omega)
  · rw [if_neg hs]
    have hle : 2 ^ 63 ≤ (new - old).toNat := Nat.le_of_not_lt fun hlt => hs (hsign.mpr hlt)
    by_cases hc : agg < old - new
    · rw [if_pos hc]
      refine iff_of_false (fun he => ?_) fun hcover => ?_
      · have hagg : agg = old - new := by grind
        rw [hagg] at hc
        exact UInt64.lt_irrefl _ hc
      · exact absurd hc (Std.not_lt.mpr (hcover hle))
    · rw [if_neg hc]
      exact iff_of_true (by grind) fun _ => Std.not_lt.mp hc

/-- What the signed difference of the visible parts comes to when all of the size is open. -/
theorem covers_iff {x : Order} {agg : Qty}
    (hopen : x.qty.toNat = x.remainingQty.toNat + x.hiddenQty.toNat) :
    (2 ^ 63 ≤ (min display x.qty - x.remainingQty).toNat →
        x.remainingQty - min display x.qty ≤ agg) ↔
      (2 ^ 63 ≤ grown x display → 2 ^ 64 ≤ agg.toNat + grown x display) ∧
        (cut x display ≤ 2 ^ 63 → cut x display ≤ agg.toNat) := by
  have hmin := Word.toNat_min display x.qty
  have hr := x.remainingQty.toNat_lt
  have hm := (min display x.qty).toNat_lt
  have hagg := agg.toNat_lt
  rw [UInt64.le_iff_toNat_le, UInt64.toNat_sub, UInt64.toNat_sub, grown, cut]
  generalize (min display x.qty).toNat = v at *
  omega

section Configure

variable (h : b.WellFormed) (hs : b.StopFree) (hf : b.findId id = some o) (hd : display ≠ 0)
include h hs hf hd

/-- The order in place after `configure_iceberg`. -/
theorem mem_configure :
    (b.configureIceberg id display).2.mem o = (b.mem o).configured display := by
  obtain ⟨i, l, _, hl, _⟩ := h.lookup_some (hs id) hf
  have hself : (b.mem.modify o fun x => x.configured display) o = (b.mem o).configured display :=
    Memory.modify_self
  rw [configureIceberg_eq hf hd hl]
  exact (congrArg (fun m : Memory => m o) (mem_setLadder _)).trans hself

/-- The level of the order after `configure_iceberg`. -/
theorem findLevel_configure {i : Nat} {l : PriceLevel}
    (hl : b.findLevel (b.mem o).side (b.mem o).price = some (i, l)) :
    (b.configureIceberg id display).2.findLevel (b.mem o).side (b.mem o).price =
      some (i, l.adjustAggregate
        ((min display (b.mem o).qty).toInt64 - (b.mem o).remainingQty.toInt64)) := by
  have hr := h.configureIceberg (hs id) display
  obtain ⟨hlt, _⟩ := List.getElem?_eq_some_iff.mp (h.findLevel_eq_some.mp hl)
  rw [hr.wf.findLevel_eq_some, configureIceberg_eq hf hd hl, setLevel, ladder_setLadder_self,
    ladder_withMem, List.getElem?_set_self hlt]

/-- An order is split as it should be exactly when all of its size is open and the aggregate of
its level covers the change. -/
theorem resplitsOrder_iff : b.ResplitsOrder id display o ↔
    (b.mem o).qty.toNat = (b.mem o).remainingQty.toNat + (b.mem o).hiddenQty.toNat ∧
    ∀ i l, b.findLevel (b.mem o).side (b.mem o).price = some (i, l) →
      (2 ^ 63 ≤ grown (b.mem o) display → 2 ^ 64 ≤ l.aggQty.toNat + grown (b.mem o) display) ∧
      (cut (b.mem o) display ≤ 2 ^ 63 → cut (b.mem o) display ≤ l.aggQty.toNat) := by
  have hmem := mem_configure h hs hf hd
  have htotal : (Queue.Book.configured (b.mem o).entry display).total = (b.mem o).qty.toNat :=
    Queue.Entry.total_configured
  have hrem : ((b.mem o).configured display).remainingQty = min display (b.mem o).qty := rfl
  constructor
  · rintro ⟨hkept, _, hagg⟩
    rw [hmem] at hkept hagg
    have hopen := htotal.symm.trans hkept
    refine ⟨hopen, fun i l hl => ?_⟩
    obtain ⟨l', hl', hchange⟩ := hagg i l hl
    rw [findLevel_configure h hs hf hd hl] at hl'
    obtain rfl := congrArg Prod.snd (Option.some.inj hl')
    exact (covers_iff hopen).mp ((adjusted_sub_eq_iff _ _ _).mp hchange)
  · rintro ⟨hopen, hcover⟩
    refine ⟨?_, ?_, fun i l hl => ?_⟩
    · rw [hmem]
      exact htotal.trans hopen
    · rw [hmem, hrem, Word.toNat_min, hopen]
    · refine ⟨_, findLevel_configure h hs hf hd hl, ?_⟩
      rw [hmem]
      exact (adjusted_sub_eq_iff _ _ _).mpr ((covers_iff hopen).mpr (hcover i l hl))

end Configure

/-- In every reachable book, a resting order is split as it should be exactly when it can be. -/
theorem reachable_resplits_iff (hb : Reachable capacity mode b) (id : Nat) (hd : display ≠ 0) :
    b.Resplits id display ↔ b.Splittable id display := by
  obtain ⟨hw, hs, _⟩ := hb.wellFormed
  exact forall₂_congr fun o hf => resplitsOrder_iff hw hs hf hd

/-- A fresh order can be split. -/
theorem reachable_resplits_fresh :
    (([.add .sell 100 5] : List Op).foldl apply (new 4 .pool)).Resplits 1 2 ↔
      (([.add .sell 100 5] : List Op).foldl apply (new 4 .pool)).Splittable 1 2 :=
  have hb : Reachable 4 .pool (([.add .sell 100 5] : List Op).foldl apply (new 4 .pool)) :=
    Run.Reach.foldl Run.Reach.init (by simp [Run.Allowed])
  reachable_resplits_iff hb 1 (by decide)

/-- A split puts executed quantity back on the book. -/
theorem resplit_restores :
    ¬ (([.add .sell 100 5, .market .buy 2] : List Op).foldl apply (new 4 .pool)).Resplits 1 2 := by
  intro h
  have htotal := (h 3 (by decide +kernel)).total
  exact absurd htotal (by decide +kernel)

end Lob.OrderBook
