import Lob.Queue.Priority
import Lob.Representation.Fills
import Lob.Resting.Runs

/-!
# Time priority over runs

Queue positions change by removals, by the rotation of icebergs and by
replacement. No call lets an order overtake another one at its price, unless
the order ahead has gone to the tail with a new slice.
-/

namespace Lob

/-- A call on a stop-free book, or `ProRataPolicy::match` on it. -/
inductive Action where
  | call (op : Op)
  | proRata (minFill : Qty) (side : Side) (qty : Qty)
  deriving DecidableEq, Repr

namespace OrderBook

/-- The book after an action. -/
def act (b : OrderBook) : Action → OrderBook
  | .call op => b.apply op
  | .proRata minFill side qty => (ProRata.match minFill b side qty).2

/-- The fills an action makes. -/
def fillTrace (b : OrderBook) : Action → List FillStep
  | .call (.fill id qty) =>
    match b.findId id with
    | none => []
    | some o => [b.fillStep id (b.mem o).price qty]
  | .call (.market side qty) => b.marketTrace side qty
  | .call _ => []
  | .proRata minFill side qty => proRataTrace minFill b side qty

/-- The ids of a level in queue order, as `get_level_orders` lists them. -/
def levelIds (b : OrderBook) (s : Side) (px : Int) : List Nat :=
  (b.getLevelOrders s px).map fun p => (b.mem p).orderId

/-- What an action does to the queue positions. -/
structure KeepsPriority (b : OrderBook) (a : Action) : Prop where
  /-- An order ahead of another one stays ahead unless it was replenished. -/
  order : ∀ s px x y, [x, y].Sublist (b.levelIds s px) → x ∈ (b.act a).levelIds s px →
    y ∈ (b.act a).levelIds s px → (∃ t ∈ b.fillTrace a, t.id = x ∧ t.Replenishes) ∨
      [x, y].Sublist ((b.act a).levelIds s px)
  /-- A replenished order stands behind all others at that moment. -/
  replenished : ∀ t ∈ b.fillTrace a, t.Replenishes → ∃ s px, t.id ∈ t.before.levelIds s px ∧
    t.after.levelIds s px = ((t.before.levelIds s px).filter fun x => x ≠ t.id) ++ [t.id]
  /-- A new order stands last. -/
  added : ∀ side price qty, a = .call (.add side price qty) →
    (b.addLimitOrder side price qty).1 ≠ 0 → (b.act a).levelIds side price =
      b.levelIds side price ++ [(b.addLimitOrder side price qty).1]
  /-- So does the replacement of an order whose price changes. -/
  replaced : ∀ id newPrice newQty o, a = .call (.modify id newPrice newQty) →
    b.findId id = some o → newPrice ≠ (b.mem o).price →
      (b.act a).levelIds (b.mem o).side newPrice =
        b.levelIds (b.mem o).side newPrice ++ [b.nextOrderId]
  /-- A market order executes against the head of the best opposite level only. -/
  head : ∀ side qty, a = .call (.market side qty) →
    (b.marketOrder side qty).1 = (b.fillTrace a).map FillStep.report ∧
    ∀ t ∈ b.fillTrace a, ∃ l rest cur, t.before.ladder side.opposite = (t.price, l) :: rest ∧
      l.head = some cur ∧ t.id = (t.before.mem cur).orderId ∧
        t.before.best side.opposite = some t.price

variable {b b' : OrderBook} {s : Side} {px : Int} {ts : List FillStep} {w : Sweep}

/-- The ids of a level are those of its queue. -/
theorem levelIds_eq (h : b.WellFormed) : b.levelIds s px = b.queues.ids s px := by
  have hfind : Ladder.find s.cmp px (b.queues.ladder s) =
      (b.findLevel s px).map (Prod.map id (PriceLevel.view b.mem)) := by
    rw [queues_ladder, Ladder.find_mapValues]
    rfl
  rw [levelIds, Queue.Book.ids, Queue.Book.levelAt, hfind]
  cases hl : b.findLevel s px with
  | none =>
    rw [getLevelOrders, hl]
    rfl
  | some r =>
    obtain ⟨i, l⟩ := r
    rw [h.getLevelOrders_eq hl]
    simp only [Option.map_some, Prod.map, id_eq, Queue.Level.ids, PriceLevel.view, List.map_map]
    rfl

/-- A fill moves an order back only when it replenishes it. -/
theorem sound_follows {t : FillStep} (ht : t.Sound) :
    t.before.queues.Follows t.after.queues fun x => t.id = x ∧ t.Replenishes := by
  have hord := ht.refines.wf.ordered
  rcases ht.effect with ⟨S, agg, hS, _, hfilled, hrep, hafter⟩ | ⟨_, _, _, hafter⟩
  · rw [hafter] at hord ⊢
    refine (ht.wf.ordered.follows_fill hS hord).mono ?_
    rintro x ⟨rfl, hz, hr⟩
    rw [hfilled, Word.sub_min_eq_zero] at hz
    exact ⟨rfl, hrep.mpr ⟨hz, hr⟩⟩
  · rw [hafter]
    exact Queue.Book.Follows.refl _

theorem fills_follows (h : Fills b ts b') :
    b.queues.Follows b'.queues fun x => ∃ t ∈ ts, t.id = x ∧ t.Replenishes := by
  induction h with
  | nil b => exact Queue.Book.Follows.refl _
  | cons t ts b ht _ ih =>
    refine ((sound_follows ht).trans ih).mono ?_
    rintro x (hx | ⟨u, hu, hx⟩)
    · exact ⟨t, List.mem_cons_self, hx⟩
    · exact ⟨u, List.mem_cons_of_mem t hu, hx⟩

theorem sound_of_mem (h : Fills b ts b') {t : FillStep} (ht : t ∈ ts) : t.Sound := by
  induction h with
  | nil b => contradiction
  | cons u ts b hu _ ih =>
    rcases List.mem_cons.mp ht with rfl | ht
    · exact hu
    · exact ih ht

/-- A replenished order goes to the tail of its level. -/
theorem sound_replenished {t : FillStep} (ht : t.Sound) (hr : t.Replenishes) :
    ∃ s px, t.id ∈ t.before.levelIds s px ∧
      t.after.levelIds s px = ((t.before.levelIds s px).filter fun x => x ≠ t.id) ++ [t.id] := by
  have hord := ht.refines.wf.ordered
  rcases ht.effect with ⟨S, agg, hS, _, hfilled, hrep, hafter⟩ | ⟨_, _, hno, _⟩
  · rw [hafter] at hord
    obtain ⟨hle, href⟩ := hrep.mp hr
    refine ⟨S.side, S.price, ?_, ?_⟩
    · rw [levelIds_eq ht.wf, Queue.Book.ids,
        ht.wf.ordered.levelAt_of_mem (List.mem_of_getElem? hS.level)]
      exact hS.id ▸ List.mem_map_of_mem hS.mem
    · rw [levelIds_eq ht.refines.wf, levelIds_eq ht.wf, hafter]
      refine ht.wf.ordered.ids_replenished hS hord ?_ href
      rw [hfilled]
      exact Word.sub_min_eq_zero.mpr hle
  · exact absurd hr hno

/-- Every fill of the loop is of the head of the best level. -/
theorem sweepTrace_head (n : Nat) (h : w.book.WellFormed) : ∀ t ∈ sweepTrace s n w,
    ∃ l rest cur, t.before.ladder s = (t.price, l) :: rest ∧ l.head = some cur ∧
      t.id = (t.before.mem cur).orderId ∧ t.before.best s = some t.price := by
  induction n generalizing w with
  | zero => simp [sweepTrace]
  | succ n ih =>
    rw [sweepTrace]
    split
    · next ha =>
      obtain ⟨t, px, l, rest, cur, hfill, _, hbefore, _, _, hv, hhead, hid, hprice⟩ :=
        headFill_sound h ha
      intro u hu
      rcases List.mem_append.mp hu with hu | hu
      · rw [hfill, List.mem_singleton] at hu
        subst hu
        rw [hbefore, hprice, best, hv]
        exact ⟨l, rest, cur, rfl, hhead, hid, rfl⟩
      · exact ih (h.sweepStep (s := s)).1.wf u hu
    · simp

section Step

variable (h : b.WellFormed) (hs : b.StopFree)
include h hs

theorem act_refines (a : Action) : (b.act a).WellFormed ∧ (b.act a).StopFree := by
  cases a with
  | call op =>
    have hr := h.apply hs op
    exact ⟨hr.wf, hs.of_eq hr.stops⟩
  | proRata minFill side qty =>
    have hr := (h.proRata minFill side qty).2
    exact ⟨hr.wf, hs.of_eq hr.stops⟩

/-- The trace of a matching action leads to its result. -/
theorem fillTrace_fills (a : Action) : b.fillTrace a ≠ [] → Fills b (b.fillTrace a) (b.act a) := by
  intro hne
  cases a with
  | proRata minFill side qty => exact (proRata_fills h minFill side qty).1
  | call op =>
    cases op with
    | market side qty => exact (market_fills h side qty).1
    | fill id qty =>
      simp only [fillTrace] at hne ⊢
      cases hf : b.findId id with
      | none => simp [hf] at hne
      | some o =>
        have hpx (p : Ptr) (hp : b.findId id = some p) : (b.mem p).price = (b.mem o).price := by
          rw [hf] at hp
          rw [Option.some.inj hp]
        have ht := (fillStep_sound h (hs id) qty hpx).1
        exact Fills.cons _ _ _ ht (Fills.nil _)
    | add side price qty => exact absurd rfl hne
    | cancel id => exact absurd rfl hne
    | modify id newPrice newQty => exact absurd rfl hne
    | configure id display => exact absurd rfl hne

/-- An action without fills moves no order back. -/
theorem order_of_no_fills (a : Action) (hnil : b.fillTrace a = []) {s : Side} {px : Int}
    {x y : Nat} (hxy : [x, y].Sublist (b.queues.ids s px)) (hx : x ∈ (b.act a).queues.ids s px)
    (hy : y ∈ (b.act a).queues.ids s px) : [x, y].Sublist ((b.act a).queues.ids s px) := by
  cases a with
  | proRata minFill side qty =>
    have hf := proRata_fills h minFill side qty
    have hnil' : proRataTrace minFill b side qty = [] := hnil
    rw [hnil'] at hf
    exact ((fills_follows hf.1).order s px x y hxy hx hy).resolve_left (by simp)
  | call op =>
    have hr := h.apply hs op
    have hord := hr.wf.ordered
    rw [hr.queues] at hord
    change x ∈ (b.apply op).queues.ids s px at hx
    change y ∈ (b.apply op).queues.ids s px at hy
    change [x, y].Sublist ((b.apply op).queues.ids s px)
    rw [hr.queues] at hx hy ⊢
    cases op with
    | add side price qty =>
      simp only [Queue.Book.apply] at hord hx hy ⊢
      split at hord
      · next hroom =>
        rw [if_pos hroom]
        exact h.ordered.order_add hord hxy
      · next hroom =>
        rw [if_neg hroom]
        exact hxy
    | cancel id =>
      exact (h.ordered.follows_cancel hord).keeps hxy hx hy
    | modify id newPrice newQty =>
      have hcord := h.ordered_cancel (hs id)
      exact h.ordered.order_modify hcord hord hxy hx hy
    | market side qty =>
      have hf := market_fills h side qty
      have hnil' : b.marketTrace side qty = [] := hnil
      have hq : (b.marketOrder side qty).2.queues = (b.queues.market side qty).2 := hr.queues
      rw [hnil'] at hf
      have hres := (fills_follows hf.1).order s px x y hxy (hq ▸ hx) (hq ▸ hy)
      rw [hq] at hres
      exact hres.resolve_left (by simp)
    | fill id qty =>
      have hloc : b.queues.locate id = none := by
        rcases h.lookup (hs id) with ⟨_, hloc⟩ | ⟨o, i, l, hf, _⟩
        · exact hloc
        · simp [fillTrace, hf] at hnil
      simp only [Queue.Book.apply, Queue.Book.applyFill, hloc]
      exact hxy
    | configure id display =>
      exact (h.ordered.follows_configure hord).keeps hxy hx hy

/-- The replacement of an order whose price changes. -/
theorem levelIds_replaced {id : Nat} {newPrice : Int} {newQty : Qty} {o : Ptr}
    (hf : b.findId id = some o) (hpx : newPrice ≠ (b.mem o).price) :
    (b.apply (.modify id newPrice newQty)).queues.ids (b.mem o).side newPrice =
      b.queues.ids (b.mem o).side newPrice ++ [b.nextOrderId] := by
  have hr := h.apply hs (.modify id newPrice newQty)
  have hord := hr.wf.ordered
  have hcord := h.ordered_cancel (hs id)
  rw [hr.queues] at hord ⊢
  simp only [Queue.Book.apply] at hord ⊢
  obtain ⟨i, l, _, _, hi, ho, hloc⟩ := h.lookup_some (hs id) hf
  have hat := WellFormed.at_of_level hi ho
  have hcancel : b.queues.cancel id = b.queues.put (b.mem o).side i (b.mem o).price
      ((l.view b.mem).remove (b.mem o).entry) := by
    rw [Queue.Book.cancel, hloc]
  have hids : (b.queues.cancel id).ids (b.mem o).side newPrice =
      b.queues.ids (b.mem o).side newPrice := by
    rw [hcancel] at hcord ⊢
    rw [h.ordered.ids_put hat.level hcord, if_neg fun hk => hpx hk.2]
  have hmodify : b.queues.modify id newPrice newQty =
      (b.queues.cancel id).add (b.mem o).side newPrice newQty := by
    rw [Queue.Book.modify, hloc]
    exact if_neg hpx
  rw [hmodify] at hord ⊢
  rw [hcord.ids_add hord, if_pos ⟨rfl, rfl⟩, hids, Queue.Book.nextId_cancel]
  rfl

omit hs in
/-- The id and the place of a new order. -/
theorem levelIds_added {side : Side} {price : Int} {qty : Qty}
    (hid : (b.addLimitOrder side price qty).1 ≠ 0) :
    (b.apply (.add side price qty)).queues.ids side price =
      b.queues.ids side price ++ [(b.addLimitOrder side price qty).1] := by
  cases ha : b.pool.allocate with
  | none =>
    rw [addLimitOrder_full ha] at hid
    contradiction
  | some r =>
    have hr := addLimitOrder_refines (o := r.1) ha h side price qty
    have hord := hr.wf.ordered
    have hres : (b.addLimitOrder side price qty).1 = b.nextOrderId := by
      rw [addLimitOrder_eq (o := r.1) ha]
    rw [hr.queues] at hord
    rw [hres]
    change (b.addLimitOrder side price qty).2.queues.ids side price = _
    rw [hr.queues, h.ordered.ids_add hord, if_pos ⟨rfl, rfl⟩]
    rfl

theorem keepsPriority (a : Action) : b.KeepsPriority a := by
  obtain ⟨hw, _⟩ := act_refines h hs a
  constructor
  · intro s px x y hxy hx hy
    rw [levelIds_eq h] at hxy
    rw [levelIds_eq hw] at hx hy ⊢
    by_cases hnil : b.fillTrace a = []
    · exact Or.inr (order_of_no_fills h hs a hnil hxy hx hy)
    · exact (fills_follows (fillTrace_fills h hs a hnil)).order s px x y hxy hx hy
  · intro t ht hr
    have hne : b.fillTrace a ≠ [] := List.ne_nil_of_mem ht
    exact sound_replenished (sound_of_mem (fillTrace_fills h hs a hne) ht) hr
  · rintro side price qty rfl hid
    rw [levelIds_eq hw, levelIds_eq h]
    exact levelIds_added h hid
  · rintro id newPrice newQty o rfl hf hpx
    rw [levelIds_eq hw, levelIds_eq h]
    exact levelIds_replaced h hs hf hpx
  · rintro side qty rfl
    exact ⟨(market_fills h side qty).2, sweepTrace_head _ h⟩

end Step

/-- Time priority: in every stop-free book that calls and pro-rata matching can reach, every
further action keeps the queue positions. -/
theorem reachable_keepsPriority (capacity : Nat) (mode : AllocMode) (b : OrderBook)
    (hb : Run.Reach act (fun _ _ => True) (new capacity mode) b) (a : Action) :
    b.KeepsPriority a := by
  have hw : b.WellFormed ∧ b.StopFree := by
    refine Run.Reach.invariant (I := fun b : OrderBook => b.WellFormed ∧ b.StopFree) hb
      ⟨wellFormed_new capacity mode, stopFree_new capacity mode⟩ ?_
    rintro b a ⟨hw, hs⟩ _
    exact act_refines hw hs a
  exact keepsPriority hw.1 hw.2 a

/-- Two icebergs and a plain order at one price, swept by a market order. -/
theorem keepsPriority_market :
    (([.call (.add .sell 100 6), .call (.add .sell 100 5), .call (.configure 1 2)] :
      List Action).foldl act (new 4 .pool)).KeepsPriority (.call (.market .buy 3)) :=
  reachable_keepsPriority 4 .pool _ (Run.Reach.foldl Run.Reach.init (by simp [Run.Allowed])) _

end OrderBook

end Lob
