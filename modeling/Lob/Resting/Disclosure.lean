import Lob.Queue.Conservation
import Lob.Resting.Runs

/-!
# Disclosure of icebergs

An order with a display quantity is to show that much at most. Every operation
but `modify_order` keeps it so; `modify_order` does for the changes that
`KeepsDisplay` describes, and for no others.
-/

namespace Lob

namespace Queue

/-- An iceberg shows its display quantity at most. -/
def Entry.Discreet (e : Entry) : Prop := e.display ≠ 0 → e.remaining ≤ e.display

theorem fills_discreet : Book.Fills Entry.Discreet where
  take e amt h ha hd := by
    have hle := UInt64.le_iff_toNat_le.mp (h hd)
    have hsub := Word.toNat_sub ha
    change e.remaining - amt ≤ e.display
    rw [UInt64.le_iff_toNat_le, hsub]
    omega
  refill e _ _ _ _ := Word.min_le_left _ _

theorem discreet_configured (e : Entry) (display : Qty) :
    (Book.configured e display).Discreet :=
  fun _ => Word.min_le_left _ _

/-- In place, a change of quantity is discreet iff it does not raise what is shown too far. -/
theorem discreet_modified {e : Entry} (h : e.Discreet) (hd : e.display ≠ 0) (newQty : Qty) :
    (Book.modified e newQty).Discreet ↔
      (0 ≤ newQty.toInt64 - e.qty.toInt64 →
        e.remaining + (newQty.toInt64 - e.qty.toInt64).toUInt64 ≤ e.display) := by
  have hrem : (Book.modified e newQty).remaining = Book.modifiedRemaining e newQty := rfl
  have hdis : (Book.modified e newQty).display = e.display := rfl
  rw [Entry.Discreet, hrem, hdis, Book.modifiedRemaining]
  by_cases hs : 0 ≤ newQty.toInt64 - e.qty.toInt64
  · rw [if_pos hs]
    exact ⟨fun hle _ => hle hd, fun hle _ => hle hs⟩
  · rw [if_neg hs]
    refine ⟨fun _ hc => absurd hc hs, fun _ _ => ?_⟩
    have hle := UInt64.le_iff_toNat_le.mp (h hd)
    rw [UInt64.le_iff_toNat_le, Word.toNat_min]
    omega

end Queue

namespace OrderBook

/-- Every resting iceberg shows its display quantity at most. -/
def Discreet (b : OrderBook) : Prop :=
  ∀ s px p, b.On s px p → (b.mem p).displayQty ≠ 0 → (b.mem p).remainingQty ≤ (b.mem p).displayQty

/-- What a modification is to do with an iceberg: in place it stays discreet, and at a new
price it is replaced by an iceberg with the same display quantity. -/
def SurvivesModify (b : OrderBook) : Op → Prop
  | .modify id newPrice newQty => ∀ o, b.findId id = some o → (b.mem o).displayQty ≠ 0 →
      if newPrice = (b.mem o).price then
        ((b.apply (.modify id newPrice newQty)).mem o).remainingQty ≤ (b.mem o).displayQty
      else ∃ o', (b.apply (.modify id newPrice newQty)).findId b.nextOrderId = some o' ∧
        ((b.apply (.modify id newPrice newQty)).mem o').displayQty = (b.mem o).displayQty ∧
        ((b.apply (.modify id newPrice newQty)).mem o').remainingQty =
          min (b.mem o).displayQty newQty ∧
        ((b.apply (.modify id newPrice newQty)).mem o').hiddenQty =
          newQty - min (b.mem o).displayQty newQty
  | _ => True

/-- A call after which the disclosure limit holds and icebergs have survived. -/
def Discloses (b : OrderBook) (op : Op) : Prop := (b.apply op).Discreet ∧ b.SurvivesModify op

/-- The modifications of icebergs that keep their display: at the same price, and an increase
of the total fits what the slice has room for. -/
def KeepsDisplay (b : OrderBook) : Op → Prop
  | .modify id newPrice newQty => ∀ o, b.findId id = some o → (b.mem o).displayQty ≠ 0 →
      newPrice = (b.mem o).price ∧
      (0 ≤ newQty.toInt64 - (b.mem o).qty.toInt64 →
        (b.mem o).remainingQty + (newQty.toInt64 - (b.mem o).qty.toInt64).toUInt64 ≤
          (b.mem o).displayQty)
  | _ => True

variable {b : OrderBook} {id : Nat} {newPrice : Int} {newQty : Qty} {o : Ptr}

theorem discreet_iff : b.Discreet ↔ b.queues.All Queue.Entry.Discreet := by
  constructor
  · intro h s n hn e he
    obtain ⟨p, hp, rfl⟩ := WellFormed.rests_iff.mp (⟨n.2, hn, he⟩ : b.queues.Rests s n.1 e)
    exact h s n.1 p hp
  · intro h s px p hp
    obtain ⟨L, hL, he⟩ := WellFormed.rests_iff.mpr ⟨p, hp, rfl⟩
    exact h s _ hL _ he

section Step

variable (h : b.WellFormed) (hs : b.StopFree) (hd : b.Discreet)
include h hs

/-- Where a resting order stands, for a modification of it. -/
theorem on_of_findId (hf : b.findId id = some o) :
    b.On (b.mem o).side (b.mem o).price o ∧ (b.mem o).stopType = .none := by
  obtain ⟨i, l, _, _, hi, ho, _⟩ := h.lookup_some (hs id) hf
  have hon : b.On (b.mem o).side (b.mem o).price o := ⟨l, List.mem_of_getElem? hi, ho⟩
  exact ⟨hon, (h.placed hon).2.2⟩

/-- The order in place after a modification at its price. -/
theorem mem_modify_inPlace (hf : b.findId id = some o) :
    (b.apply (.modify id (b.mem o).price newQty)).mem o = (b.mem o).modified newQty := by
  obtain ⟨i, l, _, hl, hi, ho, _⟩ := h.lookup_some (hs id) hf
  simp only [apply, modifyOrder, hf, hl, if_true]
  refine (congrArg (fun m : Memory => m o) (mem_setLadder _)).trans ?_
  simp only [writeOrder, Memory.modify_self]
  rfl

/-- The order that replaces a modified one at a new price is no iceberg. -/
theorem replaced_modify (hf : b.findId id = some o) (hpx : newPrice ≠ (b.mem o).price) {p : Ptr}
    (hp : (b.apply (.modify id newPrice newQty)).findId b.nextOrderId = some p) :
    ((b.apply (.modify id newPrice newQty)).mem p).displayQty = 0 := by
  have hc := (h.cancelOrder (hs id)).2
  have hnext : (b.cancelOrder id).2.nextOrderId = b.nextOrderId := by
    have hq := congrArg Queue.Book.nextId hc.queues
    rcases h.lookup (hs id) with ⟨hn, _⟩ | ⟨_, _, _, _, _, _, _, _, hloc⟩
    · rw [hf] at hn
      contradiction
    · rw [Queue.Book.cancel, hloc, Queue.Book.nextId_put] at hq
      exact hq
  obtain ⟨⟨r, pool⟩, ha⟩ := allocate_cancelOrder hf
  have hg := addLimitOrder_grows ha hc.wf (b.mem o).side newPrice newQty
  have hstep : b.apply (.modify id newPrice newQty) =
      ((b.cancelOrder id).2.addLimitOrder (b.mem o).side newPrice newQty).2 := by
    simp only [apply, modifyOrder_eq_add hf hpx]
  rw [hstep] at hp ⊢
  have hr : r = p := by
    have hfind := hg.find b.nextOrderId
    rw [hnext, if_pos rfl, hp] at hfind
    exact (Option.some.inj hfind).symm
  subst hr
  rw [addLimitOrder_eq ha]
  have hb := enqueue_bare ((b.cancelOrder id).2.mem.modify r fun _ =>
    (b.cancelOrder id).2.limitOrder (b.mem o).side newPrice newQty) (b.mem o).side newPrice
    ((b.cancelOrder id).2.ladder (b.mem o).side) r r
  rw [Memory.modify_self] at hb
  refine Eq.trans ?_ (congrArg Order.displayQty hb :)
  exact congrArg (fun m : Memory => (m r).displayQty) (mem_setLadder _)

include hd

/-- A modification of an iceberg discloses no more than it should iff it keeps the display. -/
theorem discloses_modify_iff :
    b.Discloses (.modify id newPrice newQty) ↔ b.KeepsDisplay (.modify id newPrice newQty) := by
  have hall := discreet_iff.mp hd
  have hr := h.apply hs (.modify id newPrice newQty)
  constructor
  · rintro ⟨_, hsurv⟩ o hf hdis
    have hso := hsurv o hf hdis
    by_cases hpx : newPrice = (b.mem o).price
    · subst hpx
      have hent : (b.mem o).entry.Discreet :=
        hd _ _ _ (on_of_findId h hs hf).1
      rw [if_pos rfl, mem_modify_inPlace h hs hf] at hso
      exact ⟨rfl, (Queue.discreet_modified hent hdis newQty).mp fun _ => hso⟩
    · rw [if_neg hpx] at hso
      obtain ⟨p, hp, hdp, _⟩ := hso
      rw [replaced_modify h hs hf hpx hp] at hdp
      exact absurd hdp.symm hdis
  · intro hkeep
    have hsurv : b.SurvivesModify (.modify id newPrice newQty) := by
      intro o hf hdis
      obtain ⟨rfl, hroom⟩ := hkeep o hf hdis
      have hent : (b.mem o).entry.Discreet := hd _ _ _ (on_of_findId h hs hf).1
      rw [if_pos rfl, mem_modify_inPlace h hs hf]
      exact (Queue.discreet_modified hent hdis newQty).mpr hroom hdis
    refine ⟨?_, hsurv⟩
    rw [discreet_iff, hr.queues]
    simp only [Queue.Book.apply]
    rcases h.lookup (hs id) with ⟨_, hloc⟩ | ⟨o, i, l, hf, _, hl, hi, ho, hloc⟩
    · rw [Queue.Book.modify, hloc]
      exact hall
    · have hcord := h.ordered_cancel (hs id)
      have hent : (b.mem o).entry.Discreet := (hall.at (WellFormed.at_of_level hi ho)).1
      rw [hall.modify_iff h.ordered hcord hloc]
      split
      · intro hdis
        exact (Queue.discreet_modified hent hdis newQty).mpr (hkeep o hf hdis).2 hdis
      · exact fun hz => absurd rfl hz

/-- Every call discloses no more than it should iff it keeps the display. -/
theorem discloses_iff (op : Op) : b.Discloses op ↔ b.KeepsDisplay op := by
  have hall := discreet_iff.mp hd
  have hr := h.apply hs op
  have hother (hb : (b.queues.apply b.pool.allocate.isSome op).All Queue.Entry.Discreet)
      (hsurv : b.SurvivesModify op) (hkeep : b.KeepsDisplay op) :
      b.Discloses op ↔ b.KeepsDisplay op := by
    have hdis : (b.apply op).Discreet := by
      rw [discreet_iff, hr.queues]
      exact hb
    exact ⟨fun _ => hkeep, fun _ => ⟨hdis, hsurv⟩⟩
  cases op with
  | add side price qty =>
    refine hother ?_ trivial trivial
    simp only [Queue.Book.apply]
    split
    · exact hall.add h.ordered fun hz => absurd rfl hz
    · exact hall
  | cancel id => exact hother (hall.cancel id) trivial trivial
  | modify id newPrice newQty => exact discloses_modify_iff h hs hd
  | market side qty => exact hother (hall.market Queue.fills_discreet side qty) trivial trivial
  | fill id qty => exact hother (hall.applyFill Queue.fills_discreet id qty) trivial trivial
  | configure id display =>
    exact hother (hall.configure id display fun e _ _ => Queue.discreet_configured e display)
      trivial trivial

end Step

/-- In every run, the disclosure limit holds in all states and icebergs survive every
modification iff each call keeps the display. -/
theorem run_discloses_iff (capacity : Nat) (mode : AllocMode) (ops : List Op) :
    Run.Allowed apply Discloses (new capacity mode) ops ↔
      Run.Allowed apply KeepsDisplay (new capacity mode) ops := by
  refine Run.allowed_congr (I := fun b => b.WellFormed ∧ b.StopFree ∧ b.Discreet)
    (fun b op hb => discloses_iff hb.1 hb.2.1 hb.2.2 op) (fun b op hb hd => ?_)
    ⟨wellFormed_new capacity mode, stopFree_new capacity mode, fun s px p ho => ?_⟩
  · have hr := hb.1.apply hb.2.1 op
    exact ⟨hr.wf, hb.2.1.of_eq hr.stops, hd.1⟩
  · obtain ⟨l, hl, _⟩ := ho
    rw [ladder_new] at hl
    contradiction

/-- An increase in place shows more than the display quantity. -/
theorem modify_overexposes : ¬ Run.Allowed apply Discloses (new 4 .pool)
    [.add .sell 100 10, .configure 1 2, .modify 1 100 15] := by
  rintro ⟨_, _, ⟨_, hsurv⟩, _⟩
  have h := hsurv 3 (by decide) (by decide)
  exact absurd h (by decide +kernel)

end OrderBook

end Lob
