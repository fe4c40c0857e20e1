import Lob.Resting.Aggregate
import Lob.Resting.Resplit

/-!
# Raising the quantity of a resting order

`modify_order` adds the raise to what is open of the order and to the aggregate
of its level. It tells a raise from a cut by the sign of a signed difference, so
a raise of half the word range or more is taken for a cut.
-/

namespace Lob.OrderBook

/-- What a raise of a resting order at its price is to do. -/
structure RaisesOrder (b : OrderBook) (id : Nat) (newQty : Qty) (o : Ptr) : Prop where
  remaining : ((b.modifyOrder id (b.mem o).price newQty).2.mem o).remainingQty.toNat =
    (b.mem o).remainingQty.toNat + (newQty.toNat - (b.mem o).qty.toNat)
  aggregate : ∀ i l, b.findLevel (b.mem o).side (b.mem o).price = some (i, l) →
    ∃ l', (b.modifyOrder id (b.mem o).price newQty).2.findLevel (b.mem o).side (b.mem o).price =
        some (i, l') ∧
      l'.aggQty = l.aggQty + (newQty - (b.mem o).qty) ∧
      (l.aggQty.toNat = l.shown b.mem →
        l'.aggQty.toNat = l.aggQty.toNat + (newQty.toNat - (b.mem o).qty.toNat))

variable {b : OrderBook} {id : Nat} {newQty : Qty} {o : Ptr} {capacity : Nat} {mode : AllocMode}

/-- What a raise leaves open, and what a raise that is taken for a cut does. -/
theorem toNat_modifiedRemaining {e : Queue.Entry} (hq : e.qty ≤ newQty)
    (hr : e.remaining.toNat + (newQty.toNat - e.qty.toNat) < 2 ^ 64) :
    (Queue.Book.modifiedRemaining e newQty).toNat =
      if newQty.toNat - e.qty.toNat < 2 ^ 63 then e.remaining.toNat + (newQty.toNat - e.qty.toNat)
      else min e.remaining.toNat newQty.toNat := by
  have hdiff := Word.toNat_sub hq
  rw [Queue.Book.modifiedRemaining, Word.toUInt64_sub, ← hdiff]
  by_cases hs : (newQty - e.qty).toNat < 2 ^ 63
  · rw [if_pos ((Word.sub_toInt64_nonneg _ _).mpr hs), if_pos hs, Word.toNat_add (by omega)]
  · rw [if_neg fun h => hs ((Word.sub_toInt64_nonneg _ _).mp h), if_neg hs, Word.toNat_min]

section Modify

variable (h : b.WellFormed) (hs : b.StopFree) (hf : b.findId id = some o)
include h hs hf

/-- The level of the order after `modify_order` at its price. -/
theorem findLevel_modify_inPlace {i : Nat} {l : PriceLevel}
    (hl : b.findLevel (b.mem o).side (b.mem o).price = some (i, l)) :
    (b.modifyOrder id (b.mem o).price newQty).2.findLevel (b.mem o).side (b.mem o).price =
      some (i, l.adjustAggregate (((b.mem o).modified newQty).remainingQty.toInt64 -
        (b.mem o).remainingQty.toInt64)) := by
  have hr := h.modifyOrder (hs id) (b.mem o).price newQty
  obtain ⟨hlt, _⟩ := List.getElem?_eq_some_iff.mp (h.findLevel_eq_some.mp hl)
  rw [hr.wf.findLevel_eq_some]
  simp only [modifyOrder, hf, hl, if_true, setLevel, ladder_setLadder_self, writeOrder,
    ladder_withMem, List.getElem?_set_self hlt]
  rfl

/-- A raise that fits does what it should iff it is below half the word range. -/
theorem raisesOrder_iff (hq : (b.mem o).qty ≤ newQty)
    (hr : (b.mem o).remainingQty.toNat + (newQty.toNat - (b.mem o).qty.toNat) < 2 ^ 64)
    (ht : ∀ i l, b.findLevel (b.mem o).side (b.mem o).price = some (i, l) →
      l.shown b.mem + (newQty.toNat - (b.mem o).qty.toNat) < 2 ^ 64) :
    b.RaisesOrder id newQty o ↔ newQty.toNat - (b.mem o).qty.toNat < 2 ^ 63 := by
  have hmem : (b.modifyOrder id (b.mem o).price newQty).2.mem o = (b.mem o).modified newQty :=
    mem_modify_inPlace h hs hf
  have hrem : ((b.mem o).modified newQty).remainingQty.toNat =
      if newQty.toNat - (b.mem o).qty.toNat < 2 ^ 63 then
        (b.mem o).remainingQty.toNat + (newQty.toNat - (b.mem o).qty.toNat)
      else min (b.mem o).remainingQty.toNat newQty.toNat :=
    toNat_modifiedRemaining (e := (b.mem o).entry) hq hr
  have hdiff := Word.toNat_sub hq
  constructor
  · rintro ⟨hopen, _⟩
    by_contra hlarge
    rw [hmem, hrem, if_neg hlarge] at hopen
    omega
  · intro hsmall
    rw [if_pos hsmall] at hrem
    refine ⟨by rw [hmem, hrem], fun i l hl => ?_⟩
    have hgrown : ((b.mem o).modified newQty).remainingQty - (b.mem o).remainingQty =
        newQty - (b.mem o).qty := by
      rw [← UInt64.toNat_inj, hdiff, Word.toNat_sub (by rw [UInt64.le_iff_toNat_le]; omega), hrem]
      omega
    have hagg : adjusted l.aggQty (((b.mem o).modified newQty).remainingQty.toInt64 -
        (b.mem o).remainingQty.toInt64) = l.aggQty + (newQty - (b.mem o).qty) := by
      rw [← hgrown]
      refine (adjusted_sub_eq_iff _ _ _).mpr fun hle => ?_
      rw [hgrown, hdiff] at hle
      omega
    refine ⟨_, findLevel_modify_inPlace h hs hf hl, hagg, fun hexact => ?_⟩
    have hfits := ht i l hl
    refine (congrArg UInt64.toNat hagg).trans ?_
    rw [Word.toNat_add (by omega), hdiff]

end Modify

/-- In every reachable book, the raise of a resting order that fits the word does what it should
exactly when it is below half the word range. -/
theorem reachable_raises_iff (hb : Reachable capacity mode b) (hf : b.findId id = some o)
    (hq : (b.mem o).qty ≤ newQty)
    (hr : (b.mem o).remainingQty.toNat + (newQty.toNat - (b.mem o).qty.toNat) < 2 ^ 64)
    (ht : ∀ i l, b.findLevel (b.mem o).side (b.mem o).price = some (i, l) →
      l.shown b.mem + (newQty.toNat - (b.mem o).qty.toNat) < 2 ^ 64) :
    b.RaisesOrder id newQty o ↔ newQty.toNat - (b.mem o).qty.toNat < 2 ^ 63 := by
  obtain ⟨hw, hs, _⟩ := hb.wellFormed
  exact raisesOrder_iff hw hs hf hq hr ht

/-- A partly filled order is raised across half the word range. -/
def partlyFilled : OrderBook :=
  ([.add .sell 100 5, .market .buy 2] : List Op).foldl apply (new 4 .pool)

theorem reachable_raises_partlyFilled :
    partlyFilled.RaisesOrder 1 9223372036854775809 3 ↔ 9223372036854775809 - 5 < 2 ^ 63 :=
  have hb : Reachable 4 .pool partlyFilled :=
    Run.Reach.foldl Run.Reach.init (by simp [Run.Allowed])
  have hl : partlyFilled.findLevel .sell 100 = some (0, ⟨some 3, some 3, 3, 1⟩) := by
    decide +kernel
  reachable_raises_iff hb (by decide +kernel) (by decide +kernel) (by decide +kernel)
    fun i l hi => by
      obtain ⟨rfl, rfl⟩ := Prod.mk.inj (Option.some.inj (hi.symm.trans hl))
      decide +kernel

/-- An order of one unit that is raised to `2 ^ 63 + 1`, alone on its level, keeps its one
unit. -/
theorem raise_ignored :
    (([.add .buy 100 1] : List Op).foldl apply (new 4 .pool)).findId 1 = some 3 ∧
    (([.add .buy 100 1] : List Op).foldl apply (new 4 .pool)).getLevelOrders .buy 100 = [3] ∧
    ¬ (([.add .buy 100 1] : List Op).foldl apply (new 4 .pool)).RaisesOrder 1
      9223372036854775809 3 := by
  refine ⟨by decide +kernel, by decide +kernel, fun h => ?_⟩
  exact absurd h.remaining (by decide +kernel)

end Lob.OrderBook
