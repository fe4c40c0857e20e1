import Lob.Representation.Fills

/-!
# When a market order trades

Whether a matching policy returns any fill can be told from the book before the call:
the first-in-first-out policy trades whenever it is offered some quantity and finds a
level, the pro-rata policy when some order of the best level with visible quantity is
given a share.
-/

namespace Lob

/-- The shares of the orders at the best level, as `ProRataPolicy::match` applies them. -/
def ProRata.shares (minFill : Qty) (b : OrderBook) (side : Side) (qty : Qty) :
    List (Ptr × Qty) :=
  match b.best side.opposite with
  | none => []
  | some px =>
    let orders := b.getLevelOrders side.opposite px
    let sizes := orders.map fun o => (b.mem o).remainingQty
    if orders = [] ∨ sizes.sum = 0 then []
    else orders.zip (ProRata.alloc minFill qty (orders.map fun o => (b.mem o).orderId) sizes)

/-- The policy finds an order to fill. -/
def MatchingPolicy.Trades (b : OrderBook) (side : Side) (qty : Qty) : MatchingPolicy → Prop
  | .fifoStack => qty ≠ 0 ∧ b.ladder side.opposite ≠ []
  | .proRata minFill =>
    ∃ n ∈ ProRata.shares minFill b side qty, n.2 ≠ 0 ∧ (b.mem n.1).remainingQty ≠ 0

instance (b : OrderBook) (side : Side) (qty : Qty) (p : MatchingPolicy) :
    Decidable (p.Trades b side qty) := by
  cases p <;> simp only [MatchingPolicy.Trades] <;> infer_instance

namespace OrderBook

variable {b : OrderBook} {s : Side} {i id j : Nat} {px : Int} {m : Memory} {l : PriceLevel}
  {o p : Ptr} {side : Side} {qty : Qty}

/-- Settling an order writes the links of the other orders only. -/
theorem settle_bare (hp : p ≠ o) : ((b.settle s i px m l o).mem p).bare = (m p).bare := by
  obtain ⟨f, _, hbare⟩ := settle_mem (b := b) (s := s) (i := i) (l := l) (m := m) (o := o)
  rw [hbare p, Memory.modify_of_ne hp]

/-- Settling an order unmaps no other id. -/
theorem settle_findId (hj : j ≠ (b.mem o).orderId) :
    (b.settle s i px m l o).findId j = b.findId j := by
  have hput (m : Memory) (l : PriceLevel) :
      ({ b with mem := m }.putLevel s i px l).findId j = b.findId j := by
    rw [putLevel, findId_setLadder, findId_withMem]
  rw [settle]
  split
  · cases tryReplenishIceberg m l o with
    | some r => exact hput r.1 r.2
    | none =>
      simp only
      rw [findId_deallocate, findId_dropId, if_neg hj, hput]
  · exact hput m l

/-- A fill leaves the other orders as they are. -/
theorem WellFormed.applyFill_frame (h : b.WellFormed) (hf : b.findId id = some o)
    (hs : (b.mem o).stopType = .none) (hp : p ≠ o) (hfp : b.findId (b.mem p).orderId = some p) :
    ((b.applyFill id qty).2.mem p).bare = (b.mem p).bare ∧
      (b.applyFill id qty).2.findId (b.mem p).orderId = some p := by
  have hid := stopSlot_of_resting hf hs
  obtain ⟨i, l, _, hl, hi, ho, _⟩ := h.lookup_some hid hf
  rw [applyFill_eq h hf hl]
  have hne : (b.mem p).orderId ≠ (b.mem o).orderId := by
    intro he
    rw [he, h.findId_orderId hf] at hfp
    exact hp (Option.some.inj hfp).symm
  refine ⟨?_, ?_⟩
  · simp only [settle_bare hp, Memory.modify_of_ne hp]
  · simp only [settle_findId hne, hfp]

/-- An allocation fills each order as if it were the only one. -/
theorem allotTrace_reports (px : Int) (ps : List (Ptr × Qty)) (h : b.WellFormed)
    (hps : ∀ n ∈ ps, b.findId (b.mem n.1).orderId = some n.1 ∧ (b.mem n.1).stopType = .none)
    (hnodup : (ps.map Prod.fst).Nodup) :
    ((allotTrace px ps b).map FillStep.report).filter (fun f => 0 < f.qty) =
      (ps.map fun n => (⟨(b.mem n.1).orderId, px, min n.2 (b.mem n.1).remainingQty⟩ : Fill)).filter
        fun f => 0 < f.qty := by
  induction ps generalizing b with
  | nil => rfl
  | cons n ps ih =>
    obtain ⟨o, a⟩ := n
    have hrest := fun n hn => hps n (List.mem_cons_of_mem _ hn)
    rw [List.map_cons, List.nodup_cons] at hnodup
    rw [allotTrace, List.map_cons, List.filter_cons]
    split
    · next ha =>
      have hzero : min a (b.mem o).remainingQty = 0 := by
        rw [ha, ← Word.toNat_eq_zero, Word.toNat_min]
        exact Nat.zero_min _
      rw [ih h hrest hnodup.2, hzero, if_neg]
      rw [decide_eq_true_eq]
      exact Nat.lt_irrefl 0
    · obtain ⟨hf, hs⟩ := hps (o, a) List.mem_cons_self
      have hid := WellFormed.stopSlot_of_resting hf hs
      have hframe : ∀ n ∈ ps, ((b.applyFill (b.mem o).orderId a).2.mem n.1).bare =
          (b.mem n.1).bare ∧
          (b.applyFill (b.mem o).orderId a).2.findId (b.mem n.1).orderId = some n.1 := by
        intro n hn
        refine h.applyFill_frame hf hs ?_ (hrest n hn).1
        rintro rfl
        exact hnodup.1 (List.mem_map.mpr ⟨n, hn, rfl⟩)
      have hwf := (h.applyFill hid a).2.wf
      have hreport : (b.fillStep (b.mem o).orderId px a).report =
          ⟨(b.mem o).orderId, px, min a (b.mem o).remainingQty⟩ := by
        simp only [FillStep.report, FillStep.filled, fillStep, hf]
      have hlater : ps.map (fun n => (⟨((b.applyFill (b.mem o).orderId a).2.mem n.1).orderId, px,
          min n.2 ((b.applyFill (b.mem o).orderId a).2.mem n.1).remainingQty⟩ : Fill)) =
          ps.map fun n => ⟨(b.mem n.1).orderId, px, min n.2 (b.mem n.1).remainingQty⟩ := by
        refine List.map_congr_left fun n hn => ?_
        have hb := (hframe n hn).1
        have hrem : ((b.applyFill (b.mem o).orderId a).2.mem n.1).remainingQty =
            (b.mem n.1).remainingQty := (congrArg Order.remainingQty hb :)
        rw [hrem, Order.orderId_of_bare hb]
      rw [List.map_cons, List.filter_cons, hreport, ih hwf ?_ hnodup.2, hlater]
      intro n hn
      obtain ⟨hb, hfn⟩ := hframe n hn
      rw [Order.orderId_of_bare hb, Order.stopType_of_bare hb]
      exact ⟨hfn, (hrest n hn).2⟩

/-- Shares are given to orders of the best level, each once. -/
theorem map_fst_zip_sublist (xs : List Ptr) (as : List Qty) :
    ((xs.zip as).map Prod.fst).Sublist xs := by
  induction xs generalizing as with
  | nil => simp
  | cons x xs ih =>
    cases as with
    | nil => simp
    | cons a as => exact (ih as).cons_cons x

/-- Without a best level there is nothing to share. -/
theorem proRata_of_none (hbest : b.best side.opposite = none) (minFill qty : Qty) :
    ProRata.match minFill b side qty = ([], b) ∧ ProRata.shares minFill b side qty = [] := by
  simp [ProRata.match, ProRata.shares, hbest]

/-- The pro-rata policy applies its shares to the best level. -/
theorem proRata_of_best (hbest : b.best side.opposite = some px) (minFill qty : Qty) :
    proRataTrace minFill b side qty = allotTrace px (ProRata.shares minFill b side qty) b ∧
    ((ProRata.shares minFill b side qty).map Prod.fst).Sublist
      (b.getLevelOrders side.opposite px) := by
  simp only [proRataTrace, ProRata.shares, hbest]
  split
  · exact ⟨rfl, List.nil_sublist _⟩
  · exact ⟨rfl, map_fst_zip_sublist _ _⟩

namespace WellFormed

/-- The orders of a level are resting orders, each listed once. -/
theorem getLevelOrders (h : b.WellFormed) (s : Side) (px : Int) :
    (b.getLevelOrders s px).Nodup ∧ ∀ o ∈ b.getLevelOrders s px,
      b.findId (b.mem o).orderId = some o ∧ (b.mem o).stopType = .none := by
  cases hl : b.findLevel s px with
  | none =>
    rw [OrderBook.getLevelOrders, hl]
    exact ⟨List.nodup_nil, fun o ho => absurd ho List.not_mem_nil⟩
  | some r =>
    obtain ⟨i, l⟩ := r
    have hi := h.findLevel_eq_some.mp hl
    rw [h.getLevelOrders_eq hl]
    refine ⟨(h.holds hi).list.nodup, fun o ho => ?_⟩
    have hon : b.On s px o := ⟨l, List.mem_of_getElem? hi, ho⟩
    exact ⟨h.mapped s px o hon, (h.placed hon).2.2⟩

/-- The orders of a level have different ids. -/
theorem nodup_levelIds (h : b.WellFormed) (s : Side) (px : Int) :
    ((b.getLevelOrders s px).map fun o => (b.mem o).orderId).Nodup := by
  obtain ⟨hnodup, hlevel⟩ := h.getLevelOrders s px
  refine hnodup.map_on fun o ho p hp he => ?_
  have hf := (hlevel o ho).1
  rw [he, (hlevel p hp).1] at hf
  exact (Option.some.inj hf).symm

/-- The first-in-first-out policy returns a fill when its loop begins. -/
theorem marketOrder_eq_nil (h : b.WellFormed) :
    (b.marketOrder side qty).1 = [] ↔ ¬ MatchingPolicy.fifoStack.Trades b side qty := by
  have hactive : (⟨b, qty, []⟩ : Sweep).active side.opposite = true ↔
      MatchingPolicy.fifoStack.Trades b side qty := by
    simp only [Sweep.active, MatchingPolicy.Trades, Bool.and_eq_true, decide_eq_true_eq,
      Bool.not_eq_true', List.isEmpty_eq_false_iff, ← Word.toNat_pos, UInt64.lt_iff_toNat_lt]
    rfl
  rw [(market_fills h side qty).2, List.map_eq_nil_iff, marketTrace, ← hactive]
  cases hbound : b.sweepBound side.opposite qty with
  | zero =>
    have hzero : qty.toNat = 0 := by
      rw [sweepBound] at hbound
      omega
    rw [hactive, MatchingPolicy.Trades, ← Word.toNat_pos]
    simp [sweepTrace, hzero]
  | succ n =>
    rw [sweepTrace]
    by_cases ha : (⟨b, qty, []⟩ : Sweep).active side.opposite = true
    · obtain ⟨t, _, _, _, _, hhead, _⟩ := headFill_sound (w := ⟨b, qty, []⟩) h ha
      simp [ha, hhead]
    · simp [ha]

/-- The fills of the pro-rata policy are its shares, as far as the orders have them. -/
theorem proRata_reports (h : b.WellFormed) (hbest : b.best side.opposite = some px)
    (minFill qty : Qty) : (ProRata.match minFill b side qty).1 =
      ((ProRata.shares minFill b side qty).map fun n =>
        (⟨(b.mem n.1).orderId, px, min n.2 (b.mem n.1).remainingQty⟩ : Fill)).filter
          fun f => 0 < f.qty := by
  obtain ⟨htrace, hsub⟩ := proRata_of_best hbest minFill qty
  obtain ⟨hnodup, hlevel⟩ := h.getLevelOrders side.opposite px
  rw [(proRata_fills h minFill side qty).2, htrace]
  exact allotTrace_reports px _ h (fun n hn => hlevel n.1 (hsub.subset (List.mem_map_of_mem hn)))
    (hnodup.sublist hsub)

/-- The pro-rata policy returns a fill when it finds a visible order with a share. -/
theorem proRata_eq_nil (h : b.WellFormed) (minFill : Qty) :
    (ProRata.match minFill b side qty).1 = [] ↔
      ¬ (MatchingPolicy.proRata minFill).Trades b side qty := by
  rw [MatchingPolicy.Trades]
  cases hbest : b.best side.opposite with
  | none =>
    obtain ⟨hmatch, hshares⟩ := proRata_of_none hbest minFill qty
    simp [hmatch, hshares]
  | some px =>
    rw [h.proRata_reports hbest, List.filter_eq_nil_iff, List.forall_mem_map]
    push Not
    refine forall₂_congr fun n _ => ?_
    rw [ne_eq, decide_eq_true_eq, UInt64.lt_iff_toNat_lt, UInt64.toNat_zero, Word.toNat_min,
      ← Word.toNat_pos, ← Word.toNat_eq_zero]
    omega

/-- A policy returns a fill exactly when it trades. -/
theorem run_eq_nil (h : b.WellFormed) (policy : MatchingPolicy) :
    (policy.run b side qty).1 = [] ↔ ¬ policy.Trades b side qty := by
  cases policy with
  | fifoStack => exact h.marketOrder_eq_nil
  | proRata minFill => exact h.proRata_eq_nil minFill

end WellFormed

end OrderBook

end Lob
