import Lob.Queue.Conservation
import Lob.Queue.Progress
import Lob.Representation.Shares
import Lob.Representation.Trades
import Lob.Resting.Consistency
import Lob.Resting.Priority

/-!
# Orders that show something

Fills remove an order that shows nothing any more. Additions, modifications and
reconfigurations may leave one in the book; `KeepsPositive` describes those that
do not. Without such orders every fill executes something, and the pro-rata
policy finds a trade wherever there is one.
-/

namespace Lob

namespace Queue

/-- The entry shows some quantity. -/
def Entry.Shows (e : Entry) : Prop := e.remaining ≠ 0

theorem Entry.shows_filled {e x : Entry} {amt : Qty} (h : e.filled amt = some x) : x.Shows := by
  rw [filled] at h
  split at h
  · split at h
    · next hr =>
      obtain rfl := Option.some.inj h
      exact refill_remaining_ne hr
    · contradiction
  · next hne =>
    obtain rfl := Option.some.inj h
    exact hne

/-- What an order that shows something shows after a modification in place. -/
theorem Entry.shows_modified {e : Entry} (h : e.Shows) (newQty : Qty) :
    (Book.modified e newQty).Shows ↔
      if 0 ≤ newQty.toInt64 - e.qty.toInt64 then
        e.remaining + (newQty.toInt64 - e.qty.toInt64).toUInt64 ≠ 0
      else newQty ≠ 0 := by
  have hrem : (Book.modified e newQty).remaining = Book.modifiedRemaining e newQty := rfl
  rw [Shows, hrem, Book.modifiedRemaining]
  have hpos := Word.toNat_pos.mpr h
  split
  · exact Iff.rfl
  · rw [← Word.toNat_pos, ← Word.toNat_pos, Word.toNat_min]
    omega

theorem Entry.shows_configured {e : Entry} {display : Qty} (hd : display ≠ 0) :
    (Book.configured e display).Shows ↔ e.qty ≠ 0 := by
  have hrem : (Book.configured e display).remaining = min display e.qty := rfl
  have hpos := Word.toNat_pos.mpr hd
  rw [Shows, hrem, ← Word.toNat_pos, ← Word.toNat_pos, Word.toNat_min]
  omega

end Queue

namespace OrderBook

/-- Every resting order shows some quantity. -/
def Positive (b : OrderBook) : Prop := ∀ s px p, b.On s px p → (b.mem p).remainingQty ≠ 0

/-- The total and the products that the pro-rata policy computes fit into a word. -/
def Fits (b : OrderBook) (side : Side) (qty : Qty) : Prop :=
  ∀ px, b.best side.opposite = some px →
    ((b.getLevelOrders side.opposite px).map fun o => (b.mem o).remainingQty.toNat).sum < 2 ^ 64 ∧
    ∀ o ∈ b.getLevelOrders side.opposite px, (b.mem o).remainingQty.toNat * qty.toNat < 2 ^ 64

/-- The pro-rata policy executes something wherever some opposite order shows something. -/
def Answers (b : OrderBook) : Prop :=
  ∀ minFill side qty, minFill ≤ 1 → qty ≠ 0 → b.Fits side qty →
    (∃ px o, b.On side.opposite px o ∧ (b.mem o).remainingQty ≠ 0) →
      (ProRata.match minFill b side qty).1 ≠ []

/-- The fills a call returns. -/
def fillsBy (b : OrderBook) : Op → List Fill
  | .market side qty => (b.marketOrder side qty).1
  | _ => []

/-- A call with fills of some quantity, after which no order is empty. -/
structure Lively (b : OrderBook) (op : Op) : Prop where
  positive : (b.apply op).Positive
  fills : ∀ f ∈ b.fillsBy op, f.qty ≠ 0
  answers : (b.apply op).Answers

/-- The calls that leave no empty order: what they put in the book has some quantity. -/
def KeepsPositive (b : OrderBook) : Op → Prop
  | .add _ _ qty => qty ≠ 0 ∨ b.pool.allocate = none
  | .modify id newPrice newQty => ∀ o, b.findId id = some o →
      if newPrice = (b.mem o).price ∧ 0 ≤ newQty.toInt64 - (b.mem o).qty.toInt64 then
        (b.mem o).remainingQty + (newQty.toInt64 - (b.mem o).qty.toInt64).toUInt64 ≠ 0
      else newQty ≠ 0
  | .configure id display => ∀ o, b.findId id = some o → display = 0 ∨ (b.mem o).qty ≠ 0
  | _ => True

variable {b b' : OrderBook} {s : Side} {px : Int} {ts : List FillStep}

theorem positive_iff : b.Positive ↔ b.queues.All Queue.Entry.Shows := by
  rw [Queue.Book.all_iff]
  constructor
  · intro h s px e he
    obtain ⟨p, hp, rfl⟩ := WellFormed.rests_iff.mp he
    exact h s px p hp
  · intro h s px p hp
    exact h s px _ (WellFormed.rests_iff.mpr ⟨p, hp, rfl⟩)

/-- A fill leaves no empty order. -/
theorem sound_positive {t : FillStep} (ht : t.Sound) (hp : t.before.Positive) :
    t.after.Positive := by
  rw [positive_iff] at hp ⊢
  rcases ht.effect with ⟨S, agg, hS, _, _, _, hafter⟩ | ⟨_, _, _, hafter⟩
  · rw [hafter, Queue.Book.all_iff]
    intro t k x hx
    rcases (ht.wf.ordered.rests_fill hS _ agg t k x).mp hx with ⟨hx, _⟩ | ⟨_, _, hx⟩
    · exact Queue.Book.all_iff.mp hp t k x hx
    · exact Queue.Entry.shows_filled hx
  · rw [hafter]
    exact hp

theorem fills_positive (h : Fills b ts b') (hp : b.Positive) :
    b'.Positive ∧ ∀ t ∈ ts, t.before.Positive := by
  induction h with
  | nil b => exact ⟨hp, by simp⟩
  | cons t ts b ht _ ih =>
    obtain ⟨hlast, hall⟩ := ih (sound_positive ht hp)
    refine ⟨hlast, fun u hu => ?_⟩
    rcases List.mem_cons.mp hu with rfl | hu
    · exact hp
    · exact hall u hu

/-- The loop offers a positive quantity. -/
theorem sweepTrace_amt (n : Nat) (w : Sweep) : ∀ t ∈ sweepTrace s n w, t.amt ≠ 0 := by
  induction n generalizing w with
  | zero => simp [sweepTrace]
  | succ n ih =>
    intro t ht
    rw [sweepTrace] at ht
    split at ht
    · next ha =>
      rcases List.mem_append.mp ht with ht | ht
      · have hpos : 0 < w.toFill := by
          rw [Sweep.active, Bool.and_eq_true, decide_eq_true_eq] at ha
          exact ha.1
        have hamt : t.amt = w.toFill := by
          unfold headFill at ht
          split at ht
          · contradiction
          · split at ht
            · contradiction
            · rw [List.mem_singleton.mp ht]
        rw [hamt, ← Word.toNat_pos]
        exact UInt64.lt_iff_toNat_lt.mp hpos
      · exact ih _ t ht
    · contradiction

section Positive

variable (h : b.WellFormed) (hp : b.Positive)
include h hp

/-- Every fill of a market order is of some quantity. -/
theorem market_positive (side : Side) (qty : Qty) :
    (b.marketOrder side qty).2.Positive ∧ ∀ f ∈ (b.marketOrder side qty).1, f.qty ≠ 0 := by
  obtain ⟨hfills, hreports⟩ := market_fills h side qty
  obtain ⟨hlast, hbefore⟩ := fills_positive hfills hp
  refine ⟨hlast, fun f hf => ?_⟩
  rw [hreports] at hf
  obtain ⟨t, ht, rfl⟩ := List.mem_map.mp hf
  have hwf := (sound_of_mem hfills ht).wf
  obtain ⟨l, rest, cur, hv, hhead, hid, _⟩ := sweepTrace_head (w := ⟨b, qty, []⟩) _ h t ht
  obtain ⟨cur', hcur⟩ := hwf.atHead hv
  obtain rfl : cur = cur' := Option.some.inj (hhead.symm.trans hcur.head)
  have hfind : t.before.findId t.id = some cur := hid ▸ hcur.mapped
  have hrem := Word.toNat_pos.mpr (hbefore t ht _ _ _ hcur.on)
  have hamt := Word.toNat_pos.mpr (sweepTrace_amt _ _ t ht)
  have hfilled : t.report.qty = min t.amt (t.before.mem cur).remainingQty := by
    simp only [FillStep.report, FillStep.filled, hfind]
  rw [hfilled, ← Word.toNat_pos, Word.toNat_min]
  omega

/-- Where an opposite order rests, the pro-rata policy finds a share to give. -/
theorem answers_of_positive : b.Answers := by
  intro minFill side qty hmin hqty hfits hexists
  obtain ⟨px, o, ho, _⟩ := hexists
  rw [ne_eq, h.proRata_eq_nil, not_not]
  obtain ⟨best, hbest⟩ : ∃ best, b.best side.opposite = some best := by
    obtain ⟨l, hl, _⟩ := ho
    obtain ⟨n, rest, hv⟩ := List.exists_cons_of_ne_nil (List.ne_nil_of_mem hl)
    exact ⟨n.1, by rw [best, hv]; rfl⟩
  obtain ⟨⟨p, hpon⟩, _⟩ := (h.best_iff best).mp hbest
  obtain ⟨htotal, hprod⟩ := hfits best hbest
  have hmem : p ∈ b.getLevelOrders side.opposite best := by
    obtain ⟨i, l, hl, _, hpl⟩ := h.findLevel_of_on hpon
    rw [h.getLevelOrders_eq hl]
    exact hpl
  have hshows : ∀ o ∈ b.getLevelOrders side.opposite best, (b.mem o).remainingQty ≠ 0 := by
    intro o ho
    obtain ⟨hf, hst⟩ := (h.getLevelOrders side.opposite best).2 o ho
    exact hp _ _ _ (h.resting _ o hf hst)
  have hnodup := h.nodup_levelIds side.opposite best
  generalize hos : b.getLevelOrders side.opposite best = orders at htotal hprod hmem hshows hnodup
  have htotal' : ((orders.map fun o => (b.mem o).remainingQty).map UInt64.toNat).sum <
      2 ^ 64 := by
    rw [List.map_map]
    exact htotal
  have hsum : (orders.map fun o => (b.mem o).remainingQty).sum ≠ 0 := by
    rw [← Word.toNat_pos, Word.toNat_sum htotal']
    have hle := List.le_sum_of_mem (List.mem_map_of_mem (f := UInt64.toNat)
      (List.mem_map_of_mem (f := fun o => (b.mem o).remainingQty) hmem))
    have hpos := Word.toNat_pos.mpr (hshows p hmem)
    omega
  have hlen : (orders.map fun o => (b.mem o).orderId).length =
      (orders.map fun o => (b.mem o).remainingQty).length := by
    rw [List.length_map, List.length_map]
  have hprod' : ∀ x ∈ orders.map fun o => (b.mem o).remainingQty,
      x.toNat * qty.toNat < 2 ^ 64 := by
    intro x hx
    obtain ⟨o, ho, rfl⟩ := List.mem_map.mp hx
    exact hprod o ho
  have hpos : 0 < Apportion.weight (ProRata.weights (orders.map fun o => (b.mem o).orderId)
      (orders.map fun o => (b.mem o).remainingQty)) := by
    rw [← ProRata.toNat_total hlen htotal']
    exact Word.toNat_pos.mpr hsum
  obtain ⟨a, ha, hne⟩ :=
    ProRata.exists_alloc_ne_zero hlen hprod' htotal' hnodup hpos hqty hmin
  obtain ⟨i, hi, rfl⟩ := List.mem_iff_getElem.mp ha
  have hio : i < orders.length := by
    rw [ProRata.length_alloc, List.length_map] at hi
    exact hi
  refine ⟨(orders[i], _), ?_, hne, hshows _ (List.getElem_mem hio)⟩
  simp only [ProRata.shares, hbest, hos]
  rw [if_neg (not_or.mpr ⟨List.ne_nil_of_mem hmem, hsum⟩)]
  exact List.mem_iff_getElem.mpr ⟨i, by rw [List.length_zip]; omega, List.getElem_zip⟩

variable (hs : b.StopFree)
include hs

theorem positive_modify_iff (id : Nat) (newPrice : Int) (newQty : Qty) :
    (b.queues.modify id newPrice newQty).All Queue.Entry.Shows ↔
      b.KeepsPositive (.modify id newPrice newQty) := by
  have hall := positive_iff.mp hp
  simp only [KeepsPositive]
  rcases h.lookup (hs id) with ⟨hf, hloc⟩ | ⟨o, i, l, hf, _, _, hi, ho, hloc⟩
  · rw [Queue.Book.modify, hloc]
    simp only [hf, reduceCtorEq, false_implies, implies_true, iff_true]
    exact hall
  · have hcord := h.ordered_cancel (hs id)
    have hshows := (hall.at (WellFormed.at_of_level hi ho)).1
    rw [hall.modify_iff h.ordered hcord hloc, hf]
    simp only [Option.some.injEq, forall_eq']
    by_cases hpx : newPrice = (b.mem o).price
    · rw [if_pos hpx, Queue.Entry.shows_modified hshows]
      simp only [hpx, true_and]
      rfl
    · rw [if_neg hpx, if_neg fun hk => hpx hk.1]
      rfl

theorem positive_fill (id : Nat) (qty : Qty) : (b.applyFill id qty).2.Positive := by
  cases hf : b.findId id with
  | none =>
    simp only [OrderBook.applyFill, hf]
    exact hp
  | some o =>
    have hpx (p : Ptr) (hpf : b.findId id = some p) : (b.mem p).price = (b.mem o).price := by
      rw [hf] at hpf
      rw [Option.some.inj hpf]
    exact sound_positive (fillStep_sound h (hs id) qty hpx).1 hp

theorem positive_configure_iff (id : Nat) (display : Qty) :
    (b.queues.configure id display).All Queue.Entry.Shows ↔
      b.KeepsPositive (.configure id display) := by
  have hall := positive_iff.mp hp
  simp only [KeepsPositive]
  rw [Queue.Book.configure]
  rcases h.lookup (hs id) with ⟨hf, hloc⟩ | ⟨o, i, l, hf, _, _, hi, ho, hloc⟩
  · rw [hloc]
    simp only [hf, reduceCtorEq, false_implies, implies_true, iff_true]
    exact hall
  · have hat := WellFormed.at_of_level hi ho
    rw [hloc, hf]
    simp only [Option.some.injEq, forall_eq']
    by_cases hd : display = 0
    · rw [if_pos hd]
      exact iff_of_true hall (Or.inl hd)
    · rw [if_neg hd, hall.rewrite_iff h.ordered hat rfl, Queue.Entry.shows_configured hd]
      simp only [hd, false_or]
      rfl

/-- A call leaves no empty order iff what it puts in the book has some quantity. -/
theorem positive_apply_iff (op : Op) : (b.apply op).Positive ↔ b.KeepsPositive op := by
  have hall := positive_iff.mp hp
  have hqueues : (b.apply op).Positive ↔
      (b.queues.apply b.pool.allocate.isSome op).All Queue.Entry.Shows := by
    rw [positive_iff, (h.apply hs op).queues]
  cases op with
  | add side price qty =>
    rw [hqueues]
    simp only [Queue.Book.apply, KeepsPositive]
    cases ha : b.pool.allocate with
    | none => exact iff_of_true hall (Or.inr rfl)
    | some r =>
      refine (hall.add_iff h.ordered).trans ?_
      simp [Queue.Entry.Shows]
  | cancel id => exact iff_of_true (hqueues.mpr (hall.cancel id)) trivial
  | modify id newPrice newQty =>
    exact hqueues.trans (positive_modify_iff h hp hs id newPrice newQty)
  | market side qty => exact iff_of_true (market_positive h hp side qty).1 trivial
  | fill id qty => exact iff_of_true (positive_fill h hp hs id qty) trivial
  | configure id display => exact hqueues.trans (positive_configure_iff h hp hs id display)

theorem lively_iff (op : Op) : b.Lively op ↔ b.KeepsPositive op := by
  have hiff := positive_apply_iff h hp hs op
  have hw := (h.apply hs op).wf
  refine ⟨fun hl => hiff.mp hl.positive, fun hk => ⟨hiff.mpr hk, fun f hf => ?_,
    answers_of_positive hw (hiff.mpr hk)⟩⟩
  cases op with
  | market side qty => exact (market_positive h hp side qty).2 f hf
  | add | cancel | modify | fill | configure => contradiction

end Positive

/-- In every run, no order is ever empty, every fill executes something and the pro-rata policy
answers iff each call puts some quantity in the book. -/
theorem run_lively_iff (capacity : Nat) (mode : AllocMode) (ops : List Op) :
    Run.Allowed apply Lively (new capacity mode) ops ↔
      Run.Allowed apply KeepsPositive (new capacity mode) ops := by
  refine Run.allowed_congr (I := fun b => b.WellFormed ∧ b.StopFree ∧ b.Positive)
    (fun b op hb => lively_iff hb.1 hb.2.2 hb.2.1 op) (fun b op hb hl => ?_)
    ⟨wellFormed_new capacity mode, stopFree_new capacity mode, fun s px p ho => ?_⟩
  · have hr := hb.1.apply hb.2.1 op
    exact ⟨hr.wf, hb.2.1.of_eq hr.stops, hl.positive⟩
  · obtain ⟨l, hl, _⟩ := ho
    rw [ladder_new] at hl
    contradiction

/-- An order of no quantity rests, and a market order reports a fill of nothing. -/
theorem empty_order_rests :
    ¬ Run.Allowed apply Lively (new 4 .pool) [.add .sell 100 0, .market .buy 1] := by
  intro hrun
  have hfills := hrun.2.1.fills ⟨1, 100, 0⟩ (by decide +kernel)
  exact hfills rfl

end OrderBook

end Lob
