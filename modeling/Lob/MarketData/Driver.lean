import Lob.Engine.Runs
import Lob.Flow.Runs
import Lob.MarketData.Published

/-!
# The matching thread

`run_pipeline` warms a book up with the simulator, then draws calls on an engine
over that book and offers the publisher a message for what they did. It offers
none for the order that it adds when it has nothing to cancel.
-/

namespace Lob.Md

open Queue (Entry Book Level)

/-- The locals of `run_pipeline`, and what it has offered. -/
structure Driver where
  cfg : SimConfig
  engine : MatchingEngine
  live : List Nat := []
  /-- The messages for which the publisher was called, in order. -/
  offered : List Message := []
  /-- The ids of the orders that were added without a message. -/
  quiet : List Nat := []

namespace Driver

def book (d : Driver) : OrderBook := d.engine.book

/-- The price of a limit order that is drawn. -/
def price (cfg : SimConfig) (r : Draws) : Int := if r.buy then cfg.mid - r.mag else cfg.mid + r.mag

/-- The branch of a limit order. -/
def limit (d : Driver) (r : Draws) : Driver :=
  let px := price d.cfg r
  let (id, engine) := d.engine.submitLimit r.side px d.cfg.defaultQty
  if id = 0 then { d with engine }
  else
    { d with
      engine
      live := d.live ++ [id]
      offered := d.offered ++ [.add id r.side px d.cfg.defaultQty] }

/-- The branch of a market order. -/
def market (d : Driver) (r : Draws) : Driver :=
  let q : Qty := 1 + r.size % 4
  let (fills, engine) := d.engine.submitMarket r.side q
  let offered := d.offered ++ executions fills
  { d with
    engine
    offered := offered ++ [.snapshot (top engine.book .buy) (top engine.book .sell)] }

/-- The branch of a cancellation. -/
def cancel (d : Driver) (r : Draws) : Driver :=
  if d.live = [] then
    let (id, engine) := d.engine.submitLimit .buy (d.cfg.mid - 1) 1
    if id = 0 then { d with engine }
    else { d with engine, live := d.live ++ [id], quiet := d.quiet ++ [id] }
  else
    let i := (r.pick 0).toNat % d.live.length
    let id := d.live.getD i default
    let (ok, book) := d.engine.book.cancelOrder id
    { d with
      engine := { d.engine with book }
      live := Bag.remove d.live i
      offered := if ok then d.offered ++ [.cancel id] else d.offered }

/-- An iteration of the loop. -/
def iteration (d : Driver) (r : Draws) : Driver :=
  match r.kind with
  | .limit => d.limit r
  | .market => d.market r
  | .cancel => d.cancel r

/-- What `run_pipeline` has at the start of its loop: a simulator has taken steps on its book. -/
structure WarmedUp (d : Driver) : Prop where
  /-- The quantity is small, and the order without a message has a price that fits. -/
  small : d.cfg.defaultQty.toNat < 2 ^ 47
  fits : Text.Signed (d.cfg.mid - 1)
  steps : ∃ (rs : List Draws) (s : OrderFlowSimulator),
    OrderFlowSimulator.Runs (.new d.cfg (.new bookOrders))
      (rs.map OrderFlowSimulator.Action.step) s ∧ (∀ r ∈ rs, Text.Signed (price d.cfg r)) ∧
    d = { cfg := d.cfg, engine := .new s.book }

/-- The states of the loop whose limit prices fit. -/
def Reachable (start : Driver) : Driver → Prop :=
  Run.Reach iteration (fun _ r => Text.Signed (price start.cfg r)) start

/-- The iteration of `y` offered the snapshot after the messages `pre`, on the way to `d`. It shows
the best prices of the book that it left, which `pre` and the orders without a message tell. -/
structure Shown (start d : Driver) (pre : List Message) (bid ask : Option (Int × Qty))
    (y : Driver) (r : Draws) : Prop where
  reached : Reachable start y
  before : y.offered <+: pre
  offered : (y.iteration r).offered = pre ++ [.snapshot bid ask]
  later : Run.Reach iteration (fun _ r => Text.Signed (price start.cfg r)) (y.iteration r) d
  told : (tape (y.iteration r).book.queues).without (y.iteration r).quiet =
    (tape start.book.queues).replay pre
  bestBid : (tape (y.iteration r).book.queues).Best .buy bid
  bestAsk : (tape (y.iteration r).book.queues).Best .sell ask

/-- What the messages tell an observer who knew the book at the start, and one who did not. -/
structure Told (start d : Driver) : Prop where
  orders : (tape d.book.queues).without d.quiet = (tape start.book.queues).replay d.offered
  newcomer : (tape d.book.queues).without (List.range start.book.nextOrderId ++ d.quiet) =
    Tape.replay (fun _ _ => []) d.offered
  /-- A snapshot shows the book of its own time. -/
  snapshots : ∀ pre bid ask, pre ++ [.snapshot bid ask] <+: d.offered →
    ∃ y r, Shown start d pre bid ask y r

variable {start d d' : Driver} {r : Draws} {cfg : SimConfig}

/-- What an iteration does: a call that is told, or the order that is not. -/
inductive Does (d : Driver) : Driver → Prop
  | told (op : Op) (d' : Driver) (hop : Modest op) (hbook : d'.book = d.book.apply op)
      (hcfg : d'.cfg = d.cfg) (hstops : d'.engine.pendingStops = [])
      (hpolicy : d'.engine.policy = .fifoStack)
      (hoffered : d'.offered = d.offered ++ published d.book op) (hquiet : d'.quiet = d.quiet) :
      Does d d'
  | quiet (op : Op) (d' : Driver) (hop : Modest op) (hbook : d'.book = d.book.apply op)
      (hcfg : d'.cfg = d.cfg) (hstops : d'.engine.pendingStops = [])
      (hpolicy : d'.engine.policy = .fifoStack)
      (hoffered : d'.offered = d.offered) (id : Nat) (side : Side) (px : Int) (qty : Qty)
      (hid : published d.book op = [.add id side px qty]) (hquiet : d'.quiet = d.quiet ++ [id]) :
      Does d d'

/-- The invariant of the loop. -/
structure Valid (start d : Driver) : Prop where
  cfg : d.cfg = start.cfg
  small : d.cfg.defaultQty.toNat < 2 ^ 47
  silent : Text.Signed (d.cfg.mid - 1)
  quoted : Quoted d.book
  stops : d.engine.pendingStops = []
  policy : d.engine.policy = .fifoStack
  later : start.book.nextOrderId ≤ d.book.nextOrderId
  quietOnes : ∀ id ∈ d.quiet, id < d.book.nextOrderId
  told : (tape d.book.queues).without d.quiet = (tape start.book.queues).replay d.offered
  added : ∀ id side px qty, .add id side px qty ∈ d.offered → start.book.nextOrderId ≤ id
  fits : ∀ m ∈ d.offered, m.Fits d.book.nextOrderId

theorem limit_does (h : Valid start d) (hpx : Text.Signed (price d.cfg r)) :
    Does d (d.limit r) := by
  have hop : Modest (.add r.side (price d.cfg r) d.cfg.defaultQty) := ⟨h.small, hpx⟩
  unfold limit
  dsimp only
  split
  · next hid =>
    have hnone := published_refused (b := d.book) hid
    refine .told _ _ hop rfl rfl h.stops h.policy ?_ rfl
    rw [hnone, List.append_nil]
  · next hid =>
    have hone := published_added (b := d.book) hid
    refine .told _ _ hop rfl rfl h.stops h.policy ?_ rfl
    rw [hone]
    rfl

/-- The quantity of a market order is at most four. -/
theorem modest_market (r : Draws) : Modest (.market r.side (1 + r.size % 4)) := by
  have hone : (1 : UInt64).toNat = 1 := rfl
  have hfour : (4 : UInt64).toNat = 4 := rfl
  have hlt := Nat.mod_lt r.size.toNat (show 0 < 4 by decide)
  change (1 + r.size % 4).toNat < 2 ^ 47
  rw [UInt64.toNat_add, UInt64.toNat_mod, hone, hfour]
  omega

theorem market_does (h : Valid start d) : Does d (d.market r) := by
  have hop := modest_market r
  have hstorage := (h.quoted.wf.marketOrder r.side (1 + r.size % 4)).2.storage
  obtain ⟨hfills, hbook, hstops, hpolicy⟩ := MatchingEngine.submitMarket_of_no_stops
    h.stops h.quoted.storage h.policy (hstorage.trans h.quoted.storage)
  refine .told _ _ hop hbook rfl hstops hpolicy ?_ rfl
  unfold market published
  dsimp only
  rw [hfills, hbook, List.append_assoc]
  rfl

theorem cancel_does (h : Valid start d) : Does d (d.cancel r) := by
  unfold cancel
  split
  · have hop : Modest (.add .buy (d.cfg.mid - 1) 1) := ⟨by decide, h.silent⟩
    dsimp only
    split
    · next hid =>
      have hnone := published_refused (b := d.book) hid
      refine .told _ _ hop rfl rfl h.stops h.policy ?_ rfl
      rw [hnone, List.append_nil]
    · next hid =>
      have hone := published_added (b := d.book) hid
      exact .quiet _ _ hop rfl rfl h.stops h.policy rfl _ _ _ _ hone rfl
  · refine .told (.cancel (d.live.getD ((r.pick 0).toNat % d.live.length) default)) _ trivial rfl
      rfl h.stops h.policy ?_ rfl
    unfold published
    dsimp only
    split
    · next hok => exact congrArg (d.offered ++ ·) (if_pos hok).symm
    · next hok =>
      exact (List.append_nil _).symm.trans (congrArg (d.offered ++ ·) (if_neg hok).symm)

/-- An iteration under the invariant. -/
theorem Valid.does (h : Valid start d) (hpx : Text.Signed (price d.cfg r)) :
    Does d (d.iteration r) := by
  unfold iteration
  cases r.kind with
  | limit => exact limit_does h hpx
  | market => exact market_does h
  | cancel => exact cancel_does h

/-- A prefix that ends before the rest ends in what is before the rest. -/
theorem prefix_of_not_mem {pre l l' : List Message} {m : Message} (h : pre ++ [m] <+: l ++ l')
    (hm : m ∉ l') : pre ++ [m] <+: l := by
  induction l' using List.reverseRecOn with
  | nil => rwa [List.append_nil] at h
  | append_singleton l' m' ih =>
    rw [List.mem_append, not_or, List.mem_singleton] at hm
    rw [← List.append_assoc] at h
    rcases List.prefix_concat_iff.mp h with h | h
    · exact absurd (List.append_inj_right' h rfl) fun hc => hm.2 (List.singleton_inj.mp hc)
    · exact ih h hm.1

/-- A call that is told. -/
theorem Valid.step_told (h : Valid start d) {op : Op} (hop : Modest op)
    (hbook : d'.book = d.book.apply op) (hcfg : d'.cfg = d.cfg)
    (hstops : d'.engine.pendingStops = []) (hpolicy : d'.engine.policy = .fifoStack)
    (hoffered : d'.offered = d.offered ++ published d.book op) (hquiet : d'.quiet = d.quiet) :
    Valid start d' := by
  have hnext := (h.quoted.wf.apply h.quoted.stopFree op).ages.next
  have htape := h.quoted.tape_apply hop
  have hquoted := h.quoted.apply hop
  have hadd (id : Nat) (side : Side) (px : Int) (qty : Qty)
      (hm : .add id side px qty ∈ published d.book op) : id = d.book.nextOrderId := by
    cases h.quoted.publishes hop hm with
    | add => rfl
  rw [← hbook] at hnext htape hquoted
  have htold (ms : List Message) (hms : ∀ m ∈ ms, m ∈ published d.book op)
      (ht : tape d'.book.queues = (tape d.book.queues).replay ms) :
      (tape d'.book.queues).without d.quiet =
        (tape start.book.queues).replay (d.offered ++ ms) := by
    rw [ht, Tape.replay_append, ← h.told]
    refine Tape.replay_without fun id side px qty hm hid => ?_
    have hlt := h.quietOnes id hid
    rw [hadd id side px qty (hms _ hm)] at hlt
    exact Nat.lt_irrefl _ hlt
  constructor
  · exact hcfg.trans h.cfg
  · rw [hcfg]
    exact h.small
  · rw [hcfg]
    exact h.silent
  · exact hquoted
  · exact hstops
  · exact hpolicy
  · exact Nat.le_trans h.later hnext
  · intro id hid
    rw [hquiet] at hid
    exact Nat.lt_of_lt_of_le (h.quietOnes id hid) hnext
  · rw [hquiet, hoffered]
    exact htold _ (fun m hm => hm) htape
  · intro id side px qty hm
    rw [hoffered] at hm
    rcases List.mem_append.mp hm with hm | hm
    · exact h.added id side px qty hm
    · rw [hadd id side px qty hm]
      exact h.later
  · intro m hm
    rw [hoffered] at hm
    rcases List.mem_append.mp hm with hm | hm
    · exact (h.fits m hm).mono hnext
    · rw [hbook]
      exact h.quoted.published_fits hop m hm

/-- The order that is not told. -/
theorem Valid.step_quiet (h : Valid start d) {op : Op} (hop : Modest op)
    (hbook : d'.book = d.book.apply op) (hcfg : d'.cfg = d.cfg)
    (hstops : d'.engine.pendingStops = []) (hpolicy : d'.engine.policy = .fifoStack)
    (hoffered : d'.offered = d.offered) {id : Nat} {side : Side} {px : Int} {qty : Qty}
    (hid : published d.book op = [.add id side px qty]) (hquiet : d'.quiet = d.quiet ++ [id]) :
    Valid start d' := by
  have hnext := (h.quoted.wf.apply h.quoted.stopFree op).ages.next
  have htape := h.quoted.tape_apply hop
  have hquoted := h.quoted.apply hop
  have hnew : id = d.book.nextOrderId ∧ d.book.nextOrderId < (d.book.apply op).nextOrderId := by
    have hm : .add id side px qty ∈ published d.book op := by
      rw [hid]
      exact List.mem_singleton_self _
    cases h.quoted.publishes hop hm with
    | add _ _ _ hlt => exact ⟨rfl, hlt⟩
  rw [← hbook] at hnext htape hquoted hnew
  have hknown (s : Side) (k : Int) (o : TapeOrder) (ho : o ∈ tape d.book.queues s k) :
      o.id ≠ id := by
    have hlt : o.id < d.book.nextOrderId := id_lt_of_mem_tape h.quoted.wf.ordered ho
    omega
  constructor
  · exact hcfg.trans h.cfg
  · rw [hcfg]
    exact h.small
  · rw [hcfg]
    exact h.silent
  · exact hquoted
  · exact hstops
  · exact hpolicy
  · exact Nat.le_trans h.later hnext
  · intro j hj
    rw [hquiet] at hj
    rcases List.mem_append.mp hj with hj | hj
    · exact Nat.lt_of_lt_of_le (h.quietOnes j hj) hnext
    · rw [List.mem_singleton.mp hj]
      omega
  · rw [hquiet, hoffered, htape, hid]
    exact (Tape.without_add hknown).trans h.told
  · rw [hoffered]
    exact h.added
  · intro m hm
    rw [hoffered] at hm
    exact (h.fits m hm).mono hnext

theorem Valid.step (h : Valid start d) (hpx : Text.Signed (price d.cfg r)) :
    Valid start (d.iteration r) := by
  cases h.does hpx with
  | told op _ hop hbook hcfg hstops hpolicy hoffered hquiet =>
    exact h.step_told hop hbook hcfg hstops hpolicy hoffered hquiet
  | quiet op _ hop hbook hcfg hstops hpolicy hoffered _ _ _ _ hid hquiet =>
    exact h.step_quiet hop hbook hcfg hstops hpolicy hoffered hid hquiet

/-- An iteration gives out one id at most, and only adds to what is offered. -/
theorem Valid.next_le (h : Valid start d) (hpx : Text.Signed (price d.cfg r)) :
    (d.iteration r).book.nextOrderId ≤ d.book.nextOrderId + 1 ∧
      d.offered <+: (d.iteration r).offered := by
  cases h.does hpx with
  | told op _ hop hbook _ _ _ hoffered =>
    rw [hbook, hoffered]
    exact ⟨h.quoted.next_le hop, List.prefix_append _ _⟩
  | quiet op _ hop hbook _ _ _ hoffered =>
    rw [hbook, hoffered]
    exact ⟨h.quoted.next_le hop, List.prefix_refl _⟩

/-- What a step of the simulator does to the book. -/
theorem quoted_completes {s s' : OrderFlowSimulator} {ok : Bool} (h : Quoted s.book)
    (hqty : s.cfg.defaultQty.toNat < 2 ^ 47) (hpx : Text.Signed (price s.cfg r))
    (hc : s.Completes r ok s') : Quoted s'.book := by
  obtain ⟨s₁, hevent, rfl⟩ := hc.event h.wf
  have hfinish : (OrderFlowSimulator.finish (ok, s₁)).2.book = s₁.book := by
    rcases OrderFlowSimulator.finish_cases ok s₁ with he | he
    · rw [he]
    · rw [he]
  rw [hfinish]
  cases hevent with
  | market hkind => exact h.apply (modest_market r)
  | add hadds =>
    have hadd : Quoted (s.book.apply (s.limitCall r)) := h.apply ⟨hqty, hpx⟩
    obtain ⟨-, he⟩ | ⟨-, -, he⟩ := OrderFlowSimulator.addLimit_cases h.wf r
    · rw [he]
      exact h
    · rw [he]
      exact hadd
  | miss => exact h
  | cancel hcancels stale id =>
    have hcancel : Modest (.cancel id) := trivial
    exact h.apply hcancel

/-- The simulator's steps leave a book that the feed tells. -/
theorem quoted_runs {s s' : OrderFlowSimulator} {rs : List Draws} (h : Quoted s.book)
    (hqty : s.cfg.defaultQty.toNat < 2 ^ 47) (hpx : ∀ r ∈ rs, Text.Signed (price s.cfg r))
    (hr : OrderFlowSimulator.Runs s (rs.map .step) s') : Quoted s'.book := by
  induction rs generalizing s with
  | nil =>
    cases hr with
    | nil => exact h
  | cons r rs ih =>
    cases hr with
    | step hstep hrest =>
      obtain ⟨hfirst, hpx⟩ := List.forall_mem_cons.mp hpx
      have hcfg := hstep.cfg_eq h.wf
      refine ih (quoted_completes h hqty hfirst hstep) ?_ ?_ hrest
      · rw [hcfg]
        exact hqty
      · rw [hcfg]
        exact hpx

theorem WarmedUp.valid (h : start.WarmedUp) : Valid start start := by
  obtain ⟨rs, s, hruns, hpx, hstart⟩ := h.steps
  have hquoted : Quoted s.book :=
    quoted_runs (s := .new start.cfg (.new bookOrders)) quoted_new h.small hpx hruns
  have hoffered : start.offered = [] := by rw [hstart]
  have hquiet : start.quiet = [] := by rw [hstart]
  constructor
  · rfl
  · exact h.small
  · exact h.fits
  · rw [hstart]
    exact hquoted
  · rw [hstart]
    rfl
  · rw [hstart]
    rfl
  · exact Nat.le_refl _
  · rw [hquiet]
    exact List.forall_mem_nil _
  · rw [hquiet, hoffered]
    funext s k
    exact List.filter_eq_self.mpr fun o _ => rfl
  · rw [hoffered]
    intro id side px qty hm
    exact absurd hm List.not_mem_nil
  · rw [hoffered]
    exact List.forall_mem_nil _

theorem Reachable.valid (h : Reachable start d) (hs : start.WarmedUp) : Valid start d :=
  Run.Reach.invariant (I := Valid start) h hs.valid fun _ _ hv hpx => hv.step (hv.cfg ▸ hpx)

theorem Valid.newcomer (h : Valid start d) (hs : start.WarmedUp) :
    (tape d.book.queues).without (List.range start.book.nextOrderId ++ d.quiet) =
      Tape.replay (fun _ _ => []) d.offered := by
  have hempty : (tape start.book.queues).without (List.range start.book.nextOrderId) =
      fun _ _ => [] := by
    funext s k
    refine List.filter_eq_nil_iff.mpr fun o ho => ?_
    have hlt : o.id < start.book.nextOrderId :=
      id_lt_of_mem_tape hs.valid.quoted.wf.ordered ho
    simp only [List.mem_range, hlt, not_true, decide_false, Bool.false_eq_true,
      not_false_eq_true]
  rw [← Tape.without_without, h.told, ← hempty]
  refine Tape.replay_without fun id side px qty hm hid => ?_
  have hle := h.added id side px qty hm
  have hlt := List.mem_range.mp hid
  omega

/-- A snapshot is the last message of its iteration. -/
theorem Valid.shown (h : Valid start d) (hr : Reachable start d)
    (hpx : Text.Signed (price start.cfg r)) {pre : List Message} {bid ask : Option (Int × Qty)}
    (hpre : pre ++ [.snapshot bid ask] <+: (d.iteration r).offered)
    (hnew : ¬ pre ++ [.snapshot bid ask] <+: d.offered) :
    Shown start (d.iteration r) pre bid ask d r := by
  have hfits : Text.Signed (price d.cfg r) := h.cfg ▸ hpx
  have hnext := h.step hfits
  have hd := h.does hfits
  generalize he : d.iteration r = d' at hpre hnext hd
  cases hd with
  | quiet _ _ _ _ _ _ _ hoffered => exact absurd (hoffered ▸ hpre) hnew
  | told op _ hop hbook _ _ _ hoffered hquiet =>
    have hwhole := hpre
    rw [hoffered] at hwhole
    rcases h.quoted.published_cases hop with hno | ⟨ms, hms, hno, ht⟩
    · exact absurd (prefix_of_not_mem hwhole (hno bid ask)) hnew
    · rw [hms, ← List.append_assoc] at hwhole
      rcases List.prefix_concat_iff.mp hwhole with hlast | hwhole
      · obtain ⟨rfl, hsnap⟩ := List.append_inj' hlast rfl
        obtain ⟨rfl, rfl⟩ := Message.snapshot.inj (List.singleton_inj.mp hsnap)
        have hoff : d'.offered = (d.offered ++ ms) ++
            [.snapshot (top (d.book.apply op) .buy) (top (d.book.apply op) .sell)] := by
          rw [hoffered, hms, List.append_assoc]
        have htold := hnext.told
        rw [hoff, Tape.replay_append] at htold
        rw [← hbook] at hoff ⊢
        exact {
          reached := hr
          before := List.prefix_append _ _
          offered := he ▸ hoff
          later := he ▸ Run.Reach.init
          told := he ▸ htold
          bestBid := he ▸ hnext.quoted.best .buy
          bestAsk := he ▸ hnext.quoted.best .sell }
      · exact absurd (prefix_of_not_mem hwhole (hno bid ask)) hnew

/-- Every snapshot was shown by an iteration of the run. -/
theorem Reachable.shown (h : Reachable start d) (hs : start.WarmedUp) {pre : List Message}
    {bid ask : Option (Int × Qty)} (hpre : pre ++ [.snapshot bid ask] <+: d.offered) :
    ∃ y r, Shown start d pre bid ask y r := by
  induction h with
  | init =>
    obtain ⟨_, _, _, _, hstart⟩ := hs.steps
    rw [hstart] at hpre
    exact absurd (List.prefix_nil.mp hpre) (List.append_ne_nil_of_right_ne_nil _ nofun)
  | next d r hr hpx ih =>
    by_cases hold : pre ++ [.snapshot bid ask] <+: d.offered
    · obtain ⟨y, r', hy⟩ := ih hold
      exact ⟨y, r', { hy with later := Run.Reach.next d r hy.later hpx }⟩
    · exact ⟨d, r, (Reachable.valid hr hs).shown hr hpx hpre hold⟩

/-- In every run, what the publisher was called with tells the book, but for the orders without a
message. -/
theorem reachable_told (h : Reachable start d) (hs : start.WarmedUp) : Told start d :=
  have hv := h.valid hs
  ⟨hv.told, hv.newcomer hs, fun _ _ _ hpre => h.shown hs hpre⟩

/-- Without a step of the simulator. -/
def cold : Driver := { cfg := {}, engine := .new (.new bookOrders) }

/-- One order of each side, one of them without a message, trades on both sides and a
cancellation. -/
def draws : List Draws :=
  [⟨.cancel, true, 1, 0, fun _ => 0⟩, ⟨.limit, false, 2, 0, fun _ => 0⟩,
    ⟨.limit, true, 3, 0, fun _ => 0⟩, ⟨.market, false, 1, 1, fun _ => 0⟩,
    ⟨.market, true, 1, 0, fun _ => 0⟩, ⟨.cancel, true, 1, 0, fun _ => 1⟩]

theorem warmedUp_cold : cold.WarmedUp where
  small := by decide
  fits := ⟨by decide, by decide⟩
  steps := ⟨[], _, .nil _, List.forall_mem_nil _, rfl⟩

theorem reachable_told_draws : Told cold (draws.foldl iteration cold) :=
  reachable_told (Run.Reach.foldl Run.Reach.init (by unfold Text.Signed; decide)) warmedUp_cold

end Driver

end Lob.Md
