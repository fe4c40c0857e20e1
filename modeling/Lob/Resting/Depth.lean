import Lob.Queue.Depth
import Lob.Representation.Accounts
import Lob.Resting.Apportionment

/-!
# Matching and depth

What either policy does to the levels of the side it trades against: no new price,
and no more of what is ahead of a price than the order can spend. The last fill is
at the worst price the order can get to.
-/

namespace Lob

/-- A step takes what it fills from the volume at its price. -/
theorem FillStep.Sound.held {t : FillStep} (h : t.Sound)
    (hd : t.before.queues.All Queue.Entry.Displayed) (P : Int → Bool) (s : Side) :
    t.after.queues.held P s ≤ t.before.queues.held P s ∧
      t.before.queues.held P s ≤ t.after.queues.held P s + t.filled.toNat := by
  rcases h.effect with ⟨S, agg, hS, _, hfilled, _, hafter⟩ | ⟨_, _, _, hafter⟩
  · rw [hafter]
    by_cases hs : s = S.side
    · subst hs
      have hle : t.filled ≤ S.entry.remaining := by
        rw [hfilled]
        exact Word.min_le_right _ _
      have hheld := h.wf.ordered.held_fill hS.level hS.mem hle (hd.at hS).1 agg P
      split at hheld
      · omega
      · omega
    · rw [Queue.Book.held, Queue.Book.held, Queue.Book.ladder_put_of_ne hs]
      exact ⟨Nat.le_refl _, Nat.le_add_right _ _⟩
  · rw [hafter]
    exact ⟨Nat.le_refl _, Nat.le_add_right _ _⟩

/-- A list of fills takes what it fills. -/
theorem Fills.held {b b' : OrderBook} {ts : List FillStep} (h : Fills b ts b')
    (hd : b.queues.All Queue.Entry.Displayed) (P : Int → Bool) (s : Side) :
    b'.queues.held P s ≤ b.queues.held P s ∧
      b.queues.held P s ≤ b'.queues.held P s + Queue.filledQty (ts.map FillStep.report) := by
  induction h with
  | nil b => exact ⟨Nat.le_refl _, Nat.le_add_right _ _⟩
  | cons t ts b ht _ ih =>
    obtain ⟨hless, hmore⟩ := ih (ht.displayed hd)
    obtain ⟨hless', hmore'⟩ := ht.held hd P s
    have hsum : Queue.filledQty ((t :: ts).map FillStep.report) =
        t.filled.toNat + Queue.filledQty (ts.map FillStep.report) := rfl
    omega

namespace Queue

/-- Fills of nothing do not count. -/
theorem filledQty_filter (fills : List Fill) :
    filledQty (fills.filter fun f => 0 < f.qty) = filledQty fills := by
  induction fills with
  | nil => rfl
  | cons f fills ih =>
    rw [List.filter_cons]
    split
    · exact congrArg (f.qty.toNat + ·) ih
    · next hz =>
      have hzero : f.qty.toNat = 0 := by
        rw [decide_eq_true_eq, UInt64.lt_iff_toNat_lt, UInt64.toNat_zero] at hz
        omega
      have hsum : filledQty (f :: fills) = f.qty.toNat + filledQty fills := rfl
      rw [ih, hsum, hzero, Nat.zero_add]

end Queue

namespace OrderBook

variable {b : OrderBook} {s : Side} {px : Int} {w : Sweep} {l : PriceLevel} {rest : PriceLadder}
  {side : Side} {qty : Qty}

/-- The fills of an allocation are at its price. -/
theorem proRata_apply_price (ps : List (Ptr × Qty)) (fills : List Fill)
    (hf : ∀ f ∈ fills, f.price = px) : ∀ f ∈ (ProRata.apply px ps (fills, b)).1, f.price = px := by
  induction ps generalizing b fills with
  | nil => exact hf
  | cons n ps ih =>
    obtain ⟨o, a⟩ := n
    rw [ProRata.apply]
    split
    · exact ih fills hf
    · refine ih (if 0 < (b.applyFill (b.mem o).orderId a).1 then
        fills ++ [⟨(b.mem o).orderId, px, (b.applyFill (b.mem o).orderId a).1⟩] else fills) ?_
      split
      · exact List.forall_mem_append.mpr ⟨hf, List.forall_mem_singleton.mpr rfl⟩
      · exact hf

/-- The loop of `market_order`, begun with book `b`. -/
structure Digging (s : Side) (b : OrderBook) (qty : Nat) (w : Sweep) : Prop where
  wf : w.book.WellFormed
  displayed : w.book.queues.All Queue.Entry.Displayed
  dug : Queue.Book.Dug b.queues s qty w.view

/-- One iteration digs on. -/
theorem Digging.step {qty : Nat} (h : Digging s b qty w) (ha : w.active s = true) :
    Digging s b qty (sweepStep s w) := by
  obtain ⟨hr, hview⟩ := h.wf.sweepStep (s := s)
  have hbook : (sweepStep s w).book.queues = (Queue.sweepStep s w.view).book :=
    congrArg Queue.Sweep.book hview
  refine ⟨hr.wf, ?_, ?_⟩
  · rw [hbook]
    exact h.displayed.sweepStep FillStep.displayed_fills
  · rw [hview]
    exact h.dug.step h.wf.ordered h.displayed (WellFormed.active_view.trans ha)

namespace WellFormed

/-- The loop of `market_order` digs into the side. -/
theorem marketOrder_digs (h : b.WellFormed) (hd : b.queues.All Queue.Entry.Displayed)
    (side : Side) (qty : Qty) : Queue.Book.Digs .fifoStack side.opposite qty b.queues
      (b.marketOrder side qty).1 (b.marketOrder side qty).2.queues := by
  have hrun : Digging side.opposite b qty.toNat (OrderBook.sweep side.opposite
      (b.sweepBound side.opposite qty) ⟨b, qty, []⟩) := by
    rw [sweep_eq_run]
    exact Loop.run_invariant (fun w hw ha => hw.step ha) ⟨h, hd, Queue.Book.dug_init _ _ _⟩ _
  exact hrun.dug.digs (active_view.trans (h.marketOrder_done side qty))

/-- An allocation to orders at a price touches no other price. -/
theorem proRata_apply_eases (ps : List (Ptr × Qty)) (fills : List Fill) (h : b.WellFormed)
    (hps : ∀ n ∈ ps, b.stopSlot (b.mem n.1).orderId = none ∧
      ∀ t k x, b.queues.Rests t k x → x.id = (b.mem n.1).orderId → t = s ∧ k = px) :
    Queue.Book.Eases s px b.queues (ProRata.apply px ps (fills, b)).2.queues := by
  induction ps generalizing b fills with
  | nil => exact fun _ _ _ _ => Iff.rfl
  | cons n ps ih =>
    obtain ⟨o, a⟩ := n
    have hrest := fun n hn => hps n (List.mem_cons_of_mem _ hn)
    rw [ProRata.apply]
    split
    · exact ih fills h hrest
    · obtain ⟨hid, hat⟩ := hps (o, a) List.mem_cons_self
      have hstep := (h.applyFill hid a).2
      have hplace := h.applyFill_samePlace hid a
      have heases : Queue.Book.Eases s px b.queues
          (b.applyFill (b.mem o).orderId a).2.queues := by
        rw [hstep.queues]
        exact h.ordered.eases_applyFill hat a
      have hnext := ih (if 0 < (b.applyFill (b.mem o).orderId a).1 then
        fills ++ [⟨(b.mem o).orderId, px, (b.applyFill (b.mem o).orderId a).1⟩] else fills)
        hstep.wf fun n hn => by
          obtain ⟨hid', hat'⟩ := hrest n hn
          rw [(hplace n.1).orderId, hstep.stops]
          refine ⟨hid', fun t k x hx hxid => ?_⟩
          by_cases hk : t = s ∧ k = px
          · exact hk
          · exact hat' t k x ((heases t k x hk).mp hx) hxid
      exact fun t k x hk => (hnext t k x hk).trans (heases t k x hk)

/-- Small volumes and sizes keep the pro-rata arithmetic exact. -/
theorem fits_of_volume (h : b.WellFormed)
    (hv : b.queues.volume side.opposite * (qty.toNat + 1) < 2 ^ 64) : b.Fits side qty := by
  intro px hbest
  obtain ⟨⟨o, ho⟩, _⟩ := (h.best_iff px).mp hbest
  obtain ⟨i, l, hl, hi, _⟩ := h.findLevel_of_on ho
  rw [h.getLevelOrders_eq hl]
  have hmem : (l.view b.mem).volume ≤ b.queues.volume side.opposite := by
    rw [Queue.Book.volume, queues_ladder, Ladder.mapValues, List.map_map]
    exact List.le_sum_of_mem (List.mem_map.mpr ⟨(px, l), List.mem_of_getElem? hi, rfl⟩)
  have hsum : ((l.orders b.mem).map fun o => (b.mem o).remainingQty.toNat).sum ≤
      (l.view b.mem).volume := by
    rw [Queue.Level.volume, PriceLevel.view, List.map_map]
    exact List.sum_le_sum fun o _ => Nat.le_add_right _ _
  have hle := hsum.trans hmem
  have hmul := Nat.le_mul_of_pos_right (b.queues.volume side.opposite) (Nat.succ_pos qty.toNat)
  refine ⟨Nat.lt_of_le_of_lt (hle.trans hmul) hv, fun o ho => ?_⟩
  have hone : (b.mem o).remainingQty.toNat ≤ b.queues.volume side.opposite :=
    (List.le_sum_of_mem (List.mem_map_of_mem ho)).trans hle
  exact Nat.lt_of_le_of_lt (Nat.mul_le_mul hone (Nat.le_succ _)) hv

/-- Where the volume is small, a pro-rata match takes no more than was asked for. -/
theorem proRata_held (h : b.WellFormed) (hd : b.queues.All Queue.Entry.Displayed)
    (minFill qty : Qty) (hbest : b.best side.opposite = some px) (P : Int → Bool) :
    (ProRata.match minFill b side qty).2.queues.held P side.opposite ≤
        b.queues.held P side.opposite ∧
      (b.queues.volume side.opposite * (qty.toNat + 1) < 2 ^ 64 →
        b.queues.held P side.opposite ≤
          (ProRata.match minFill b side qty).2.queues.held P side.opposite + qty.toNat) := by
  obtain ⟨hfills, hreports⟩ := proRata_fills h minFill side qty
  obtain ⟨hless, hmore⟩ := hfills.held hd P side.opposite
  refine ⟨hless, fun hv => ?_⟩
  have hsafe := ((h.proRataSafe_iff hbest minFill qty).mpr (h.fits_of_volume hv)).atMost
  rw [hreports, Queue.filledQty_filter] at hsafe
  omega

/-- `ProRataPolicy::match` stays at the best level. -/
theorem proRata_digs (h : b.WellFormed) (hd : b.queues.All Queue.Entry.Displayed) (minFill : Qty)
    (side : Side) (qty : Qty) :
    Queue.Book.Digs (.proRata minFill) side.opposite qty b.queues
      (ProRata.match minFill b side qty).1 (ProRata.match minFill b side qty).2.queues := by
  have hwf := (h.proRata minFill side qty).2.wf
  have hheld (px : Int) (hbest : b.best side.opposite = some px) :=
    h.proRata_held hd minFill qty hbest
  rw [ProRata.match] at hwf hheld ⊢
  cases hv : b.ladder side.opposite with
  | nil =>
    simp only [best, hv, List.head?_nil, Option.map_none]
    exact Queue.Book.Digs.refl _ _ _ _
  | cons n rest =>
    obtain ⟨px, l⟩ := n
    have hi : (b.ladder side.opposite)[0]? = some (px, l) := by rw [hv]; rfl
    have hvq : b.queues.ladder side.opposite = (px, l.view b.mem) ::
        Ladder.mapValues (PriceLevel.view b.mem) rest := by
      rw [queues_ladder, hv]
      rfl
    have hbest : b.best side.opposite = some px := by rw [best, hv]; rfl
    have hheld := hheld px hbest
    simp only [hbest, h.getLevelOrders_eq (h.findLevel_eq_some.mpr hi)] at hwf hheld ⊢
    split at hwf
    · rw [if_pos ‹_›]
      exact Queue.Book.Digs.refl _ _ _ _
    · rw [if_neg ‹_›] at hheld ⊢
      have hvolume := (hheld fun _ => true).1
      rw [Queue.Book.held_true, Queue.Book.held_true] at hvolume
      refine Queue.Book.Eases.digs h.ordered hwf.ordered ?_ hvq
        (proRata_apply_price _ [] (List.forall_mem_nil _)) hvolume
        fun hsmall k => (hheld fun j => side.opposite.cmp j k).2 hsmall
      refine proRata_apply_eases _ [] h fun n hn => ?_
      have hon : b.On side.opposite px n.1 := ⟨l, List.mem_of_getElem? hi, (List.of_mem_zip hn).1⟩
      refine ⟨stopSlot_of_resting (h.mapped _ _ _ hon) (h.placed hon).2.2, fun t k x hx hid => ?_⟩
      have hu := h.ordered.rests_unique hx (rests_iff.mpr ⟨n.1, hon, rfl⟩) hid
      exact ⟨hu.1, hu.2.1⟩

/-- A match digs into the side it trades against. -/
theorem run_digs (h : b.WellFormed) (hd : b.queues.All Queue.Entry.Displayed)
    (policy : MatchingPolicy) (side : Side) (qty : Qty) :
    Queue.Book.Digs policy side.opposite qty b.queues (policy.run b side qty).1
      (policy.run b side qty).2.queues := by
  cases policy with
  | fifoStack => exact h.marketOrder_digs hd side qty
  | proRata minFill => exact h.proRata_digs hd minFill side qty

end WellFormed

end OrderBook

end Lob
