import Lob.Core.Overtaking
import Lob.Engine.Ledger
import Lob.Resting.Depth

/-!
# The prices within reach of a call

The market orders of a cascade execute one after the other, so how deep one of them
gets depends on which have executed before. What the levels hold before the call, and
what the orders can spend, tells it in advance: a market order of the cascade ends
at a price within reach of the stops that have been activated so far.
-/

namespace Lob

namespace MatchingEngine

open Config

/-- What the stop-market orders among the stops `l` spend on side `s`. -/
def spent (e : MatchingEngine) (g : Gauge) (s : Side) (l : List Ptr) : Nat :=
  ((l.filter fun o => (e.book.mem o).stopType = .stopMarket ∧
    (e.book.mem o).side.opposite = s).map fun o => g.spends (e.book.mem o).qty).sum

/-- The stops `l` include a stop-limit order at a price of side `s`. -/
def Offers (e : MatchingEngine) (s : Side) (l : List Ptr) (px : Int) : Prop :=
  ∃ o ∈ l, (e.book.mem o).stopType = .stopLimit ∧ (e.book.mem o).side = s ∧
    (e.book.mem o).price = px

/-- What the stop-limit orders among the stops `l` bring to side `s`. -/
def offered (e : MatchingEngine) (s : Side) (l : List Ptr) : Nat :=
  ((l.filter fun o => (e.book.mem o).stopType = .stopLimit ∧
    (e.book.mem o).side = s).map fun o => (e.book.mem o).qty.toNat).sum

/-- What the market order of a call and the stops `l` spend on side `s`. -/
def outlay (e : MatchingEngine) (g : Gauge) (side : Side) (qty : Qty) (s : Side) (l : List Ptr) :
    Nat :=
  (if s = side.opposite then g.spends qty else 0) + e.spent g s l

/-- The count bounds what they take from side `s`. -/
def Bounds (e : MatchingEngine) (g : Gauge) (side : Side) (qty : Qty) (s : Side) (l : List Ptr) :
    Prop :=
  e.policy.Bounds g (e.book.queues.volume s + e.offered s l) (e.outlay .volume side qty s l)

/-- The call's order, which ends at `p`, does not get past this level. -/
def Leaves (e : MatchingEngine) (side : Side) (p : Int) (s : Side) (px : Int) : Prop :=
  e.book.queues.Quotes s px ∧ (s = side.opposite → s.cmp px p = false)

/-- After the call's order, which ends at `p`, and the stops `l` an order of `q` may end at a price
of side `s`. -/
structure Attains (e : MatchingEngine) (side : Side) (qty : Qty) (p : Int) (s : Side)
    (l : List Ptr) (q : Qty) (px : Int) : Prop where
  quoted : e.Leaves side p s px ∨ e.Offers s l px
  ahead : ∀ g, e.Bounds g side qty s l → e.book.queues.ahead g s px <
    e.outlay g side qty s l + e.policy.gauge.spends q
  /-- First come, first served, the order does not get past the price. -/
  behind : e.policy = .fifoStack → (∀ k, ¬ e.Offers s l k) → ∀ k, e.book.queues.Quotes s k →
    s.cmp px k = true → e.outlay .volume side qty s l + q.toNat ≤ e.book.queues.ahead .volume s k

/-- The stop-market order in slot `o` may end at a price when the stops `l` have been
activated. -/
def reach (e : MatchingEngine) (side : Side) (qty : Qty) (p : Int) (l : List Ptr) (o : Ptr)
    (px : Int) : Prop :=
  (e.book.mem o).stopType = .stopMarket ∧
    e.Attains side qty p (e.book.mem o).side.opposite l (e.book.mem o).qty px

/-- The stops before the call, in the order in which a pass takes them. -/
def waiting (e : MatchingEngine) : Trigger.State Ptr Int where
  armed := {o | ∃ id x, e.book.stopSlot id = some (o, x)}
  pending := e.pendingStops ++ e.book.pendingStopStorage
  tasks := []
  fired := []
  traded := []
  missed := []

/-- What a configuration of the call has left of the levels, when its order has ended at `p` and
the stops `l` have been activated. -/
structure Sunk (e : MatchingEngine) (side : Side) (qty : Qty) (p : Int) (e' : MatchingEngine)
    (l : List Ptr) : Prop where
  policy : e'.policy = e.policy
  quotes : ∀ s px, e'.book.queues.Quotes s px → e.Leaves side p s px ∨ e.Offers s l px
  volume : ∀ s, e'.book.queues.volume s ≤ e.book.queues.volume s + e.offered s l
  ahead : ∀ s g, e.Bounds g side qty s l → ∀ px, e.book.queues.ahead g s px ≤
    e'.book.queues.ahead g s px + e.outlay g side qty s l
  behind : e.policy = .fifoStack → ∀ s, (∀ px, ¬ e.Offers s l px) → ∀ k,
    e.book.queues.Quotes s k → (∃ px, e'.book.queues.Quotes s px ∧ s.cmp px k = true) →
      e'.book.queues.Quotes s k ∧ e'.book.queues.ahead .volume s k +
        e.outlay .volume side qty s l = e.book.queues.ahead .volume s k

variable {e e' e'' : MatchingEngine} {side : Side} {qty : Qty} {s t : Side} {l : List Ptr}
  {o : Ptr} {p px price : Int} {display : Qty} {K : List Task} {c c' : Config} {x : Order}
  {capacity : Nat} {mode : AllocMode} {policy : MatchingPolicy} {g : Gauge}

/-- Before a cascade its abstract state is that of the waiting stops. -/
theorem abs_waiting (e : MatchingEngine) :
    Config.abs e.book e.log.length ⟨e, []⟩ = e.waiting := by
  simp [Config.abs, waiting]

/-- What a list spends is added up. -/
theorem spent_append (g : Gauge) (s : Side) (l : List Ptr) (o : Ptr) :
    e.spent g s (l ++ [o]) = e.spent g s l + e.spent g s [o] := by
  simp only [spent, List.filter_append, List.map_append, List.sum_append]

/-- What a list brings is added up. -/
theorem offered_append (s : Side) (l : List Ptr) (o : Ptr) :
    e.offered s (l ++ [o]) = e.offered s l + e.offered s [o] := by
  simp only [offered, List.filter_append, List.map_append, List.sum_append]

/-- A stop-market order spends on the opposite side only. -/
theorem spent_market (hs : (e.book.mem o).stopType = .stopMarket) (g : Gauge) (s : Side) :
    e.spent g s [o] =
      if s = (e.book.mem o).side.opposite then g.spends (e.book.mem o).qty else 0 := by
  by_cases h : (e.book.mem o).side.opposite = s
  · simp [spent, hs, h]
  · simp [spent, hs, h, Ne.symm h]

/-- A stop-limit order spends nothing. -/
theorem spent_limit (hs : (e.book.mem o).stopType = .stopLimit) (g : Gauge) (s : Side) :
    e.spent g s [o] = 0 := by
  simp [spent, hs]

/-- A stop-limit order brings its size to its own side. -/
theorem offered_limit (hs : (e.book.mem o).stopType = .stopLimit) :
    e.offered (e.book.mem o).side [o] = (e.book.mem o).qty.toNat := by
  simp [offered, hs]

/-- A longer list offers no less. -/
theorem Offers.append (h : e.Offers s l px) (o : Ptr) : e.Offers s (l ++ [o]) px :=
  h.imp fun _ h => ⟨List.mem_append_left _ h.1, h.2⟩

/-- What bounds a longer list bounds the shorter one. -/
theorem Bounds.of_append (h : e.Bounds g side qty s (l ++ [o])) : e.Bounds g side qty s l := by
  refine MatchingPolicy.Bounds.mono h ?_ ?_
  · rw [offered_append]
    omega
  · rw [outlay, outlay, spent_append]
    omega

/-- Only the queues and the policy matter. -/
theorem Sunk.congr (h : e.Sunk side qty p e' l) (hb : e''.book.queues = e'.book.queues)
    (hp : e''.policy = e'.policy) : e.Sunk side qty p e'' l := by
  obtain ⟨hpolicy, hquotes, hvolume, hahead, hbehind⟩ := h
  rw [← hp] at hpolicy
  rw [← hb] at hquotes hvolume hahead hbehind
  exact ⟨hpolicy, hquotes, hvolume, hahead, hbehind⟩

/-- Matching a market order digs into the side it trades against. -/
theorem matched_digs (hw : e.book.WellFormed) (hd : e.book.queues.All Queue.Entry.Displayed)
    (side : Side) (qty : Qty) : Queue.Book.Digs e.policy side.opposite qty e.book.queues
      (e.batch side qty) (e.matched side qty).book.queues :=
  hw.run_digs hd e.policy side qty

/-- The first match of the cascade spends the size of the order. -/
theorem sunk_matched (hw : e.book.WellFormed) (hd : e.book.queues.All Queue.Entry.Displayed)
    (hl : e.lastPrice side qty = some p) : e.Sunk side qty p (e.matched side qty) [] := by
  have hdigs := matched_digs hw hd side qty
  have ho := (matched_refines hw side qty).wf.ordered
  refine ⟨rfl, fun s px hpx => ?_, fun s => hdigs.volume_le ho s, fun s g hg px => ?_,
    fun hp s _ k hk hleft => hdigs.behind_of hw.ordered ho hp s hk hleft⟩
  · obtain ⟨f, hf, rfl⟩ := Option.map_eq_some_iff.mp hl
    refine Or.inl ⟨hdigs.quotes_of hw.ordered ho hpx, ?_⟩
    rintro rfl
    exact hdigs.left f hf px hpx
  · refine hdigs.ahead_le hw.ordered ho s (fun hs => ?_) px
    subst hs
    refine MatchingPolicy.Bounds.mono hg (Nat.le_add_right _ _) ?_
    rw [outlay, if_pos rfl]
    exact Nat.le_add_right _ _

/-- A market order of the cascade digs deeper. -/
theorem Sunk.market (h : e.Sunk side qty p e' l) (hw : e'.book.WellFormed)
    (hd : e'.book.queues.All Queue.Entry.Displayed)
    (hs : (e.book.mem o).stopType = .stopMarket) :
    e.Sunk side qty p (e'.matched (e.book.mem o).side (e.book.mem o).qty) (l ++ [o]) := by
  have hdigs := matched_digs hw hd (e.book.mem o).side (e.book.mem o).qty
  have ho := (matched_refines hw (e.book.mem o).side (e.book.mem o).qty).wf.ordered
  have hmore (g : Gauge) (s : Side) : e.outlay g side qty s (l ++ [o]) = e.outlay g side qty s l +
      if s = (e.book.mem o).side.opposite then g.spends (e.book.mem o).qty else 0 := by
    rw [outlay, spent_append, spent_market hs, ← Nat.add_assoc]
    rfl
  have hoffered (s : Side) : e.offered s l ≤ e.offered s (l ++ [o]) := by
    rw [offered_append]
    exact Nat.le_add_right _ _
  refine ⟨h.policy, fun s px hpx => ?_, fun s => ?_, fun s g hg px => ?_,
    fun hp s hnone k hk hleft => ?_⟩
  · exact (h.quotes s px (hdigs.quotes_of hw.ordered ho hpx)).imp_right fun hl => hl.append o
  · exact ((hdigs.volume_le ho s).trans (h.volume s)).trans (Nat.add_le_add_left (hoffered s) _)
  · have hle := hdigs.ahead_le hw.ordered ho s (g := g) (fun ht => ?_) px
    · have hold := h.ahead s g hg.of_append px
      rw [hmore]
      omega
    · subst ht
      rw [h.policy]
      refine MatchingPolicy.Bounds.mono hg ((h.volume _).trans ?_) ?_
      · exact Nat.add_le_add_left (hoffered _) _
      · rw [hmore, if_pos rfl]
        exact Nat.le_add_left _ _
  · obtain ⟨j, hj, hjk⟩ := hleft
    obtain ⟨hk', hold⟩ := h.behind hp s (fun px hpx => hnone px (hpx.append o)) k hk
      ⟨j, hdigs.quotes_of hw.ordered ho hj, hjk⟩
    obtain ⟨hk'', hnew⟩ := hdigs.behind_of hw.ordered ho (h.policy.trans hp) s hk' ⟨j, hj, hjk⟩
    refine ⟨hk'', ?_⟩
    rw [hmore]
    change _ + (_ + if _ then (e.book.mem o).qty.toNat else 0) = _
    omega

/-- `submit_limit` moves no entry, and adds one of its size at its price at most. -/
theorem limitQueues_grows (hw : e.book.WellFormed) (side : Side) (price : Int) (qty display : Qty) :
    (∀ t k x, e.book.queues.Rests t k x → (e.limitQueues side price qty display).Rests t k x) ∧
      ∀ t k x, (e.limitQueues side price qty display).Rests t k x → e.book.queues.Rests t k x ∨
        (t = side ∧ k = price) ∧ x.id = e.book.queues.nextId ∧ x.total ≤ qty.toNat := by
  have ho := hw.ordered
  rw [limitQueues]
  split
  · next ha =>
    obtain ⟨r, hal⟩ := Option.isSome_iff_exists.mp ha
    have hadd := OrderBook.addLimitOrder_refines (o := r.1) hal hw side price qty
    have ho' : (e.book.queues.add side price qty).Ordered := by
      rw [← hadd.queues]
      exact hadd.wf.ordered
    have hgrow (t : Side) (k : Int) (x : Queue.Entry) (hx : e.book.queues.Rests t k x) :
        (e.book.queues.add side price qty).Rests t k x := ho.rests_add.mpr (Or.inl hx)
    have hnew (t : Side) (k : Int) (x : Queue.Entry)
        (hx : (e.book.queues.add side price qty).Rests t k x) : e.book.queues.Rests t k x ∨
          (t = side ∧ k = price) ∧ x = ⟨e.book.queues.nextId, qty, qty, 0, 0⟩ :=
      (ho.rests_add.mp hx).imp_right fun h => ⟨⟨h.1, h.2.1⟩, h.2.2⟩
    have hadded (t : Side) (k : Int) (x : Queue.Entry)
        (hx : (e.book.queues.add side price qty).Rests t k x) : e.book.queues.Rests t k x ∨
          (t = side ∧ k = price) ∧ x.id = e.book.queues.nextId ∧ x.total ≤ qty.toNat := by
      refine (hnew t k x hx).imp_right fun h => ⟨h.1, ?_⟩
      rw [h.2]
      exact ⟨rfl, Nat.le_refl _⟩
    split
    · refine ⟨fun t k x hx => ho'.rests_configure (hgrow t k x hx) ?_, fun t k x hx => ?_⟩
      · obtain ⟨L, hL, hmem⟩ := hx
        exact Nat.ne_of_lt (ho.bound t _ hL x hmem).2
      · rcases ho'.rests_of_configure hx with hx | ⟨y, hy, hyid, hxid, htotal⟩
        · exact hadded t k x hx
        · rcases hnew t k y hy with hy | ⟨hk, rfl⟩
          · obtain ⟨L, hL, hmem⟩ := hy
            exact absurd hyid (Nat.ne_of_lt (ho.bound t _ hL y hmem).2)
          · exact Or.inr ⟨hk, hxid, Nat.le_of_eq htotal⟩
    · exact ⟨hgrow, hadded⟩
  · exact ⟨fun _ _ _ hx => hx, fun _ _ _ hx => Or.inl hx⟩

/-- A limit order of the cascade fills up. -/
theorem Sunk.limit (h : e.Sunk side qty p e' l) (hw : e'.book.WellFormed)
    (hs : (e.book.mem o).stopType = .stopLimit) (display : Qty) :
    e.Sunk side qty p (e'.submitLimit (e.book.mem o).side (e.book.mem o).price
      (e.book.mem o).qty display).2 (l ++ [o]) := by
  have hr := (submitLimit_refines hw (e.book.mem o).side (e.book.mem o).price
    (e.book.mem o).qty display).2
  obtain ⟨hgrow, hnew⟩ := limitQueues_grows hw (e.book.mem o).side (e.book.mem o).price
    (e.book.mem o).qty display
  rw [← hr.queues] at hgrow hnew
  have ho := hr.wf.ordered
  have hmore (g : Gauge) (s : Side) :
      e.outlay g side qty s (l ++ [o]) = e.outlay g side qty s l := by
    rw [outlay, spent_append, spent_limit hs]
    rfl
  have hoffer (s : Side) (ht : s = (e.book.mem o).side) :
      e.Offers s (l ++ [o]) (e.book.mem o).price :=
    ⟨o, List.mem_append_right _ (List.mem_singleton_self o), hs, ht.symm, rfl⟩
  have hsame (s : Side) (ht : s ≠ (e.book.mem o).side) (k : Int) (x : Queue.Entry) :
      (e'.submitLimit (e.book.mem o).side (e.book.mem o).price (e.book.mem o).qty
        display).2.book.queues.Rests s k x ↔ e'.book.queues.Rests s k x :=
    ⟨fun hx => (hnew s k x hx).resolve_right fun hc => ht hc.1.1, hgrow s k x⟩
  refine ⟨h.policy, fun s px hpx => ?_, fun s => ?_, fun s g hg px => ?_,
    fun hp s hnone k hk hleft => ?_⟩
  · obtain ⟨x, hx⟩ := ho.quotes_iff.mp hpx
    rcases hnew s px x hx with hx | ⟨⟨ht, rfl⟩, _⟩
    · exact (h.quotes s px (hw.ordered.quotes_iff.mpr ⟨x, hx⟩)).imp_right fun hl => hl.append o
    · exact Or.inr (hoffer s ht)
  · by_cases ht : s = (e.book.mem o).side
    · subst ht
      have hle := ho.volume_le (B := e'.book.queues) (s := (e.book.mem o).side)
        fun k x hx => (hnew _ k x hx).imp_right And.right
      have hold := h.volume (e.book.mem o).side
      rw [offered_append, offered_limit hs]
      omega
    · have hle := ho.volume_mono (B := e'.book.queues) (s := s)
        fun k x hx => (hsame s ht k x).mp hx
      have hold := h.volume s
      rw [offered_append]
      omega
  · have hle := hw.ordered.ahead_le ho (s := s) (hgrow s) g px
    have hold := h.ahead s g hg.of_append px
    rw [hmore]
    omega
  · have ht : s ≠ (e.book.mem o).side := fun ht => hnone _ (hoffer s ht)
    obtain ⟨j, hj, hjk⟩ := hleft
    obtain ⟨hk', hold⟩ := h.behind hp s (fun px hpx => hnone px (hpx.append o)) k hk
      ⟨j, (hw.ordered.quotes_congr ho (hsame s ht) j).mp hj, hjk⟩
    rw [hw.ordered.ahead_eq ho (hsame s ht), hmore]
    exact ⟨(hw.ordered.quotes_congr ho (hsame s ht) k).mpr hk', hold⟩

/-- The slots of the stops that the call has activated. -/
def activated (e : MatchingEngine) (c : Config) : List Ptr :=
  (Config.abs e.book e.log.length c).fired.map Trigger.Task.slot

end MatchingEngine

namespace Config

open MatchingEngine

variable {b : OrderBook} {start : Nat} {e : MatchingEngine} {side : Side} {qty : Qty}
  {c c' : Config} {K : List Task} {t : Task} {p : Int}

/-- Launching an order activates no stop. -/
theorem fired_launch (h : Within b start ⟨e, K⟩) (hw : e.book.WellFormed) :
    (abs b start (launch e side qty K)).fired = (abs b start ⟨e, K⟩).fired := by
  cases hl : e.lastPrice side qty with
  | none => rw [abs_launch_none h hw hl]
  | some p =>
    rw [abs_launch_some h hw hl]
    rfl

/-- A stale entry activates no stop. -/
theorem fired_stale (h : Within b start ⟨e, t :: K⟩) :
    (abs b start ⟨e.stale t, K⟩).fired = (abs b start ⟨e, t :: K⟩).fired := by
  have hlog : start ≤ e.log.length := h.logged
  simp [abs, List.drop_append_of_le_length hlog, Event.fired, Event.activation]

/-- A launch matches and touches no level besides. -/
theorem queues_launch : (launch e side qty K).engine.book.queues =
    (e.matched side qty).book.queues := by
  rw [launch]
  split <;> rfl

/-- A launch keeps the policy. -/
theorem policy_launch : (launch e side qty K).engine.policy = e.policy := by
  rw [launch]
  split <;> rfl

/-- A registered stop is the order that stood in its slot before the call. -/
theorem Within.order_eq (h : Within b start c) {id : Nat} {o : Ptr} {x : Order}
    (hx : c.engine.book.stopSlot id = some (o, x)) : x = (b.mem o).bare :=
  (OrderBook.stopSlot_eq_some.mp (h.stops id _ hx)).2.2.symm

/-- An activation adds the slot of its stop. -/
theorem activated_fire {e' : MatchingEngine} {id : Nat} {x : Order}
    (hin : Within e.book e.log.length ⟨e', t :: K⟩) (hw : e'.book.WellFormed)
    (hst : e'.book.pendingStopStorage = []) (hx : e'.book.stopSlot id = some (t.slot, x)) :
    e.activated ⟨e'.fire id t.slot t.last t.pass, K⟩ = e.activated ⟨e', t :: K⟩ ++ [t.slot] := by
  rw [activated, abs_fire hin hw hst hx, Trigger.State.fire, List.map_append]
  rfl

/-- A step sinks the levels by what it activates. -/
theorem Step.sunk (h : Step c c') (hc : c.Sound) (hin : Within e.book e.log.length c)
    (hb : Booked c.engine.log c.engine.book.queues)
    (hs : e.Sunk side qty p c.engine (e.activated c)) :
    e.Sunk side qty p c'.engine (e.activated c') := by
  obtain ⟨hw, hst⟩ := hc
  cases h with
  | stale e' t K hnone =>
    rw [activated, fired_stale hin]
    refine hs.congr (congrArg OrderBook.queues book_stale) ?_
    rw [MatchingEngine.stale]
    split <;> rfl
  | requeue e' t K id x hx ht => exact hs.congr rfl rfl
  | market e' t K id x hx ht hty =>
    have hfired := within_fire hin hw hst hx
    have hw' : (e'.fire id t.slot t.last t.pass).book.WellFormed := fire_wellFormed hw hst hx
    have hq : (e'.fire id t.slot t.last t.pass).book.queues = e'.book.queues :=
      fire_queues hst hx
    obtain rfl := hin.order_eq hx
    rw [activated, fired_launch hfired hw']
    have hdug := Sunk.market (hs.congr hq rfl) hw' (by rw [hq]; exact hb.displayed) hty
    rw [← activated_fire hin hw hst hx] at hdug
    exact hdug.congr queues_launch policy_launch
  | limit e' t K id x hx ht hty =>
    have hfired := within_fire hin hw hst hx
    have hw' : (e'.fire id t.slot t.last t.pass).book.WellFormed := fire_wellFormed hw hst hx
    have hq : (e'.fire id t.slot t.last t.pass).book.queues = e'.book.queues :=
      fire_queues hst hx
    obtain rfl := hin.order_eq hx
    rw [activated, abs_limit hfired hw']
    have hfull := Sunk.limit (hs.congr hq rfl) hw' hty (e.book.mem t.slot).displayQty
    rw [← activated_fire hin hw hst hx] at hfull
    exact hfull

/-- Every configuration of a call has its levels left. -/
theorem Steps.sunk (hw : e.book.WellFormed) (hb : Booked e.log e.book.queues)
    (hl : e.lastPrice side qty = some p) (h : Steps (launch e side qty []) c) :
    Within e.book e.log.length c ∧ e.Sunk side qty p c.engine (e.activated c) := by
  refine Steps.of_launch (I := fun c => Within e.book e.log.length c ∧
    e.Sunk side qty p c.engine (e.activated c)) hw h ⟨within_launch within_start hw, ?_⟩
    fun c c' hs hc ih hstep => ⟨hstep.within hc ih.1, hstep.sunk hc ih.1 (hs.booked hw hb) ih.2⟩
  rw [activated, fired_launch within_start hw, abs_waiting]
  exact (sunk_matched hw hb.displayed hl).congr queues_launch policy_launch

/-- A market order of the cascade ends within reach. -/
theorem Opens.reach {px : Int} (h : Opens c t px) (hc : c.Sound)
    (hin : Within e.book e.log.length c)
    (hb : Booked c.engine.log c.engine.book.queues)
    (hs : e.Sunk side qty p c.engine (e.activated c)) :
    Trigger.Trades (e.reach side qty p) (Config.abs e.book e.log.length c) t px := by
  obtain ⟨hw, hst⟩ := hc
  cases h with
  | market e' t K id x px hx ht hty hl =>
    have hw' : (e'.fire id t.slot t.last t.pass).book.WellFormed := fire_wellFormed hw hst hx
    have hq : (e'.fire id t.slot t.last t.pass).book.queues = e'.book.queues :=
      fire_queues hst hx
    obtain rfl := hin.order_eq hx
    obtain ⟨f, hf, rfl⟩ := Option.map_eq_some_iff.mp hl
    have hdigs := matched_digs hw' (by rw [hq]; exact hb.displayed) (e.book.mem t.slot).side
      (e.book.mem t.slot).qty
    obtain ⟨hgets, hworse⟩ := hdigs.ends f hf
    have hpolicy : (e'.fire id t.slot t.last t.pass).policy = e.policy := hs.policy
    rw [hq, hpolicy] at hgets hworse
    refine ⟨hty, hs.quotes _ _ hgets.1, fun g hg => ?_, fun hp hnone k hk hlt => ?_⟩
    · have hnow := hgets.ahead_lt hg
      exact Nat.lt_of_le_of_lt (hs.ahead _ g hg f.price)
        (Nat.add_comm _ _ ▸ Nat.add_lt_add_left hnow _)
    · -- An order that could get to `k` would not end at a better price.
      obtain ⟨hk', hsum⟩ := hs.behind hp _ hnone k hk ⟨f.price, hgets.1, hlt⟩
      have hshort : ¬ e'.book.queues.Gets e.policy.gauge (e.book.mem t.slot).side.opposite
          (e.policy.gauge.spends (e.book.mem t.slot).qty) k := fun hget => by
        rw [hworse k hget] at hlt
        contradiction
      rw [hp] at hshort
      have hle : (e.book.mem t.slot).qty.toNat ≤ e'.book.queues.ahead .volume
          (e.book.mem t.slot).side.opposite k := Nat.le_of_not_lt fun hlt => hshort ⟨hk', hlt⟩
      exact Nat.le_trans (Nat.add_le_add_left hle _) ((Nat.add_comm _ _).trans hsum).le

/-- A call is a run of its trigger queue whose firings trade within reach. -/
theorem Steps.trades (hw : e.book.WellFormed) (hb : Booked e.log e.book.queues)
    (hl : e.lastPrice side qty = some p) (h : Steps (launch e side qty []) c) :
    Trigger.Steps (meets e.book) (Trigger.Trades (e.reach side qty p))
      (e.waiting.begin p (e.log.length + 1)) (Config.abs e.book e.log.length c) := by
  have habs := (Steps.abs (Trigger.Trades (e.reach side qty p)) hw h fun _ hs hc hin _ _ ho =>
    ho.reach hc hin (hs.booked hw hb) (hs.sunk hw hb hl).2).2
  rwa [abs_launch_some within_start hw hl, abs_waiting] at habs

end Config

namespace MatchingEngine

variable {e : MatchingEngine} {side : Side} {qty : Qty} {p : Int}

/-- The order of a call ends at the worst price it can get to. -/
theorem lastPrice_ends (hw : e.book.WellFormed) (hd : e.book.queues.All Queue.Entry.Displayed)
    (hl : e.lastPrice side qty = some p) :
    e.book.queues.Ends e.policy.gauge side.opposite (e.policy.gauge.spends qty) p := by
  obtain ⟨f, hf, rfl⟩ := Option.map_eq_some_iff.mp hl
  exact (matched_digs hw hd side qty).ends f hf

end MatchingEngine

end Lob
