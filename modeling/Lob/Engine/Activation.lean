import Lob.Engine.Runs

/-!
# The life of a stop

The log tells what becomes of every submitted stop. It is activated at most once, by
a pass whose batch of fills ended at a price that triggers it and that began after
its submission, and the event after the activation is the order it stands for. Until
then it is registered and pending.
-/

namespace Lob

/-- The submission of a stop that is registered as `x`. -/
def Event.submission (id : Nat) (x : Order) : Event :=
  .stop id x.side x.stopPrice x.qty x.stopType x.price x.displayQty

/-- The event is the submission of the order that stop `x` stands for; a limit order is accepted. -/
def Event.Executes (x : Order) : Event → Prop
  | .market side qty _ => x.stopType = .stopMarket ∧ side = x.side ∧ qty = x.qty
  | .limit id side price qty display => x.stopType = .stopLimit ∧ id ≠ 0 ∧ side = x.side ∧
      price = x.price ∧ qty = x.qty ∧ display = x.displayQty
  | _ => False

/-- Event `j` of the log is a market order whose fills end at price `last`. -/
def TradedAt (log : List Event) (j : Nat) (last : Int) : Prop :=
  ∃ side qty fills f, log[j]? = some (.market side qty fills) ∧ fills.getLast? = some f ∧
    f.price = last

/-- The activation at position `k` of the log: the stop was submitted before the trade its pass
began with, that trade's price triggers it, and its order is submitted next. -/
def Explained (log : List Event) (k : Nat) (a : Activation) : Prop :=
  ∃ i j x, i < j ∧ j < k ∧ a.pass = j + 1 ∧ log[i]? = some (.submission a.id x) ∧
    TradedAt log j a.last ∧ MatchingEngine.triggered a.last x = true ∧
    ∃ b, log[k + 1]? = some b ∧ b.Executes x

/-- The log of an engine with registered stops `S`, ids below `N` and waiting entries `tasks`. -/
structure Chronicle (log : List Event) (S : Nat → Option (Ptr × Order)) (N : Nat)
    (tasks : List Task) : Prop where
  /-- A registered stop was submitted before the trade of any waiting pass. -/
  registered : ∀ id o x, S id = some (o, x) →
    ∃ i, log[i]? = some (.submission id x) ∧ ∀ t ∈ tasks, i + 1 < t.pass
  traded : ∀ t ∈ tasks, ∃ j, t.pass = j + 1 ∧ TradedAt log j t.last
  explained : ∀ k a, log[k]?.bind Event.activation = some a → Explained log k a
  once : ((log.filterMap Event.activation).map Activation.id).Nodup
  spent : ∀ a ∈ log.filterMap Event.activation, S a.id = none ∧ a.id < N
  kept : ∀ id side stopPrice qty stopType limitPrice display,
    .stop id side stopPrice qty stopType limitPrice display ∈ log → id ≠ 0 →
    (∃ a ∈ log.filterMap Event.activation, a.id = id) ∨ ∃ o x, S id = some (o, x) ∧
      .submission id x = Event.stop id side stopPrice qty stopType limitPrice display

variable {log : List Event} {S S' : Nat → Option (Ptr × Order)} {N N' : Nat}
  {tasks tasks' K : List Task} {a b : Event} {i j k id pass : Nat} {last : Int} {o : Ptr}
  {x : Order} {t : Task} {v : Activation}

theorem getElem?_log (L : List Event) (h : log[k]? = some a) : (log ++ L)[k]? = some a := by
  obtain ⟨hlt, _⟩ := List.getElem?_eq_some_iff.mp h
  rw [List.getElem?_append_left hlt, h]

theorem TradedAt.append (L : List Event) (h : TradedAt log j last) :
    TradedAt (log ++ L) j last := by
  obtain ⟨side, qty, fills, f, hj, hrest⟩ := h
  exact ⟨side, qty, fills, f, getElem?_log L hj, hrest⟩

theorem TradedAt.lt (h : TradedAt log j last) : j < log.length := by
  obtain ⟨_, _, _, _, hj, _⟩ := h
  exact (List.getElem?_eq_some_iff.mp hj).1

theorem Explained.append (L : List Event) (h : Explained log k v) : Explained (log ++ L) k v := by
  obtain ⟨i, j, x, hij, hjk, hpass, hi, hj, ht, b, hb, he⟩ := h
  exact ⟨i, j, x, hij, hjk, hpass, getElem?_log L hi, hj.append L, ht, b, getElem?_log L hb, he⟩

/-- Activations are found in the longer log where they were in the shorter one. -/
theorem activation_append (L : List Event) (h : (log ++ L)[k]?.bind Event.activation = some v) :
    log[k]?.bind Event.activation = some v ∨
      ∃ l a, k = log.length + l ∧ L[l]? = some a ∧ a.activation = some v := by
  rw [List.getElem?_append] at h
  split at h
  · exact Or.inl h
  · next hlt =>
    obtain ⟨a, ha, hv⟩ := Option.bind_eq_some_iff.mp h
    exact Or.inr ⟨k - log.length, a, by omega, ha, hv⟩

namespace Chronicle

/-- Fewer waiting entries, later ids. -/
theorem mono (h : Chronicle log S N tasks) (hsub : ∀ t ∈ tasks', t ∈ tasks) (hN : N ≤ N') :
    Chronicle log S N' tasks' where
  registered id o x hx := by
    obtain ⟨i, hi, ht⟩ := h.registered id o x hx
    exact ⟨i, hi, fun t htt => ht t (hsub t htt)⟩
  traded t ht := h.traded t (hsub t ht)
  explained := h.explained
  once := h.once
  spent v hv := ⟨(h.spent v hv).1, Nat.lt_of_lt_of_le (h.spent v hv).2 hN⟩
  kept := h.kept

/-- An event that neither registers nor activates a stop. -/
theorem quiet (h : Chronicle log S N tasks) (ha : a.activation = none)
    (hs : ∀ id side stopPrice qty stopType limitPrice display,
      a = .stop id side stopPrice qty stopType limitPrice display → id = 0) :
    Chronicle (log ++ [a]) S N tasks := by
  have hmap : (log ++ [a]).filterMap Event.activation = log.filterMap Event.activation := by
    simp [ha]
  constructor
  · intro id o x hx
    obtain ⟨i, hi, ht⟩ := h.registered id o x hx
    exact ⟨i, getElem?_log _ hi, ht⟩
  · intro t ht
    obtain ⟨j, hp, hj⟩ := h.traded t ht
    exact ⟨j, hp, hj.append _⟩
  · intro k v hv
    rcases activation_append _ hv with hv | ⟨l, b, _, hb, hbv⟩
    · exact (h.explained k v hv).append _
    · obtain rfl : a = b := by
        obtain ⟨_, hb⟩ := List.getElem?_eq_some_iff.mp hb
        simpa using hb
      simp [ha] at hbv
  · rw [hmap]
    exact h.once
  · rw [hmap]
    exact h.spent
  · intro id side stopPrice qty stopType limitPrice display hmem hid
    rw [hmap]
    rcases List.mem_append.mp hmem with hmem | hmem
    · exact h.kept _ _ _ _ _ _ _ hmem hid
    · exact absurd (hs _ _ _ _ _ _ _ (List.mem_singleton.mp hmem).symm) hid

/-- A new pass, when the log ends with its trade. -/
theorem begin (h : Chronicle log S N tasks) (q : List Ptr) (ht : TradedAt log j last)
    (hj : log.length = j + 1) :
    Chronicle log S N ((q.map fun o => ⟨o, last, log.length⟩) ++ tasks) where
  registered id o x hx := by
    obtain ⟨i, hi, hlt⟩ := h.registered id o x hx
    have hij : i ≠ j := by
      rintro rfl
      obtain ⟨_, _, _, _, hm, _⟩ := ht
      rw [hi] at hm
      exact Event.noConfusion (Option.some.inj hm)
    have hil := (List.getElem?_eq_some_iff.mp hi).1
    refine ⟨i, hi, fun t ht => ?_⟩
    rcases List.mem_append.mp ht with ht | ht
    · obtain ⟨p, _, rfl⟩ := List.mem_map.mp ht
      simp only
      omega
    · exact hlt t ht
  traded t htt := by
    rcases List.mem_append.mp htt with htt | htt
    · obtain ⟨p, _, rfl⟩ := List.mem_map.mp htt
      exact ⟨j, hj, ht⟩
    · exact h.traded t htt
  explained := h.explained
  once := h.once
  spent := h.spent
  kept := h.kept

/-- An activation and the order it submits. -/
theorem activate (h : Chronicle log S N (t :: K)) (hx : S id = some (o, x)) (hid : id < N)
    (ht : MatchingEngine.triggered t.last x = true) (hb : b.Executes x)
    (hS : S' = fun j => if j = id then none else S j) (hN : N ≤ N') :
    Chronicle (log ++ [.trigger id t.last t.pass, b]) S' N' K := by
  have hact : b.activation = none := by
    cases b <;> first | rfl | exact hb.elim
  have hmap : (log ++ [.trigger id t.last t.pass, b]).filterMap Event.activation =
      log.filterMap Event.activation ++ [⟨id, t.last, t.pass⟩] := by
    rw [List.filterMap_append, List.filterMap_cons, List.filterMap_cons, hact]
    rfl
  have hkeep {j : Nat} {p : Ptr} {y : Order} (hy : S' j = some (p, y)) : S j = some (p, y) := by
    simp only [hS] at hy
    split at hy
    · contradiction
    · exact hy
  constructor
  · intro j p y hy
    obtain ⟨i, hi, hlt⟩ := h.registered j p y (hkeep hy)
    exact ⟨i, getElem?_log _ hi, fun u hu => hlt u (List.mem_cons_of_mem t hu)⟩
  · intro u hu
    obtain ⟨j, hp, hj⟩ := h.traded u (List.mem_cons_of_mem t hu)
    exact ⟨j, hp, hj.append _⟩
  · intro k v hv
    rcases activation_append _ hv with hv | ⟨l, c, hk, hc, hcv⟩
    · exact (h.explained k v hv).append _
    · obtain ⟨i, hi, hlt⟩ := h.registered id o x hx
      obtain ⟨j, hpass, hj⟩ := h.traded t List.mem_cons_self
      have hij := hlt t List.mem_cons_self
      have hjlt := hj.lt
      match l with
      | 0 =>
        obtain rfl := Option.some.inj hc
        obtain rfl := Option.some.inj hcv
        refine ⟨i, j, x, by omega, by omega, hpass, getElem?_log _ hi, hj.append _, ht, b, ?_, hb⟩
        rw [hk, Nat.add_zero, List.getElem?_append_right (Nat.le_succ _)]
        simp
      | 1 =>
        obtain rfl := Option.some.inj hc
        rw [hact] at hcv
        contradiction
      | l + 2 => simp at hc
  · rw [hmap, List.map_append, List.nodup_append]
    refine ⟨h.once, List.nodup_singleton _, ?_⟩
    rintro n hn m hm rfl
    obtain ⟨v, hv, rfl⟩ := List.mem_map.mp hn
    have hnone := (h.spent v hv).1
    simp only [List.map_cons, List.map_nil, List.mem_singleton] at hm
    rw [hm, hx] at hnone
    contradiction
  · rw [hmap]
    intro v hv
    simp only [hS]
    rcases List.mem_append.mp hv with hv | hv
    · obtain ⟨hnone, hlt⟩ := h.spent v hv
      refine ⟨?_, by omega⟩
      split
      · rfl
      · exact hnone
    · rw [List.mem_singleton.mp hv]
      exact ⟨if_pos rfl, Nat.lt_of_lt_of_le hid hN⟩
  · intro j side stopPrice qty stopType limitPrice display hmem hj
    rw [hmap]
    have hmem' : Event.stop j side stopPrice qty stopType limitPrice display ∈ log := by
      rcases List.mem_append.mp hmem with hmem | hmem
      · exact hmem
      · simp only [List.mem_cons, reduceCtorEq, List.not_mem_nil, or_false, false_or] at hmem
        rw [← hmem] at hb
        exact hb.elim
    rcases h.kept _ _ _ _ _ _ _ hmem' hj with ⟨v, hv, hvj⟩ | ⟨p, y, hy, he⟩
    · exact Or.inl ⟨v, List.mem_append_left _ hv, hvj⟩
    · by_cases hji : j = id
      · exact Or.inl ⟨_, List.mem_append_right _ (List.mem_singleton_self _), hji.symm⟩
      · exact Or.inr ⟨p, y, by rw [hS]; simp only [if_neg hji, hy], he⟩

/-- A submission between two calls. -/
theorem submit (h : Chronicle log S N []) (hN : S N = none)
    (hS : S' = fun j => if j = N then some (o, x) else S j)
    (hb : b = .submission N x) : Chronicle (log ++ [b]) S' (N + 1) [] := by
  have hmap : (log ++ [b]).filterMap Event.activation = log.filterMap Event.activation := by
    simp [hb, Event.submission, Event.activation]
  constructor
  · intro j p y hy
    simp only [hS] at hy
    suffices hi : ∃ i, (log ++ [b])[i]? = some (Event.submission j y) from
      hi.imp fun i hi => ⟨hi, fun t ht => absurd ht List.not_mem_nil⟩
    split at hy
    · next hj =>
      simp only [Option.some.injEq, Prod.mk.injEq] at hy
      exact ⟨log.length, by rw [List.getElem?_concat_length, hb, hj, hy.2]⟩
    · obtain ⟨i, hi, _⟩ := h.registered j p y hy
      exact ⟨i, getElem?_log _ hi⟩
  · simp
  · intro k v hv
    rcases activation_append _ hv with hv | ⟨l, c, _, hc, hcv⟩
    · exact (h.explained k v hv).append _
    · obtain rfl : b = c := by
        obtain ⟨_, hc⟩ := List.getElem?_eq_some_iff.mp hc
        simpa using hc
      simp [hb, Event.submission, Event.activation] at hcv
  · rw [hmap]
    exact h.once
  · rw [hmap]
    intro v hv
    obtain ⟨hnone, hlt⟩ := h.spent v hv
    simp only [hS, if_neg (Nat.ne_of_lt hlt)]
    exact ⟨hnone, Nat.lt_succ_of_lt hlt⟩
  · intro j side stopPrice qty stopType limitPrice display hmem hj
    rw [hmap]
    simp only [hS]
    rcases List.mem_append.mp hmem with hmem | hmem
    · rcases h.kept _ _ _ _ _ _ _ hmem hj with hv | ⟨p, y, hy, he⟩
      · exact Or.inl hv
      · have hjN : j ≠ N := by
          rintro rfl
          rw [hN] at hy
          contradiction
        exact Or.inr ⟨p, y, by rw [if_neg hjN, hy], he⟩
    · have he := (List.mem_singleton.mp hmem).trans hb
      have hjN : j = N := (Event.stop.inj he).1
      exact Or.inr ⟨o, x, if_pos hjN, by rw [hjN] at he ⊢; exact he.symm⟩

end Chronicle

namespace Config

open MatchingEngine

/-- The log of a configuration. -/
def Logged (c : Config) : Prop :=
  Chronicle c.engine.log c.engine.book.stopSlot c.engine.book.nextOrderId c.tasks

variable {c c' : Config} {e : MatchingEngine} {side : Side} {qty : Qty}

/-- A launched market order has logged its fills. -/
theorem logged_launch (h : Logged ⟨e.matched side qty, K⟩) : (launch e side qty K).Logged := by
  cases hl : e.lastPrice side qty with
  | none =>
    rw [launch_none hl]
    exact h
  | some p =>
    rw [launch_some hl]
    obtain ⟨f, hf, hp⟩ := Option.map_eq_some_iff.mp hl
    have ht : TradedAt (e.matched side qty).log e.log.length p :=
      ⟨side, qty, e.batch side qty, f, List.getElem?_concat_length, hf, hp⟩
    exact Chronicle.begin h ((e.matched side qty).pendingStops ++
      (e.matched side qty).book.pendingStopStorage) ht (by simp [matched])

/-- The slot of an activated stop is there for the limit order it stands for. -/
theorem fire_limitId (hw : e.book.WellFormed) (hst : e.book.pendingStopStorage = [])
    (hx : e.book.stopSlot id = some (o, x)) : (e.fire id o last pass).limitId ≠ 0 := by
  have hpool : (e.fire id o last pass).book.pool = e.book.pool.deallocate o :=
    (OrderBook.detach_frame hx hst).2.2.1
  obtain ⟨r, hr⟩ := Option.ne_none_iff_exists'.mp (OrderBook.allocate_deallocate e.book o)
  rw [limitId, hpool, hr, Option.isSome_some, if_pos rfl]
  exact Nat.ne_of_gt (OrderBook.Grows.nextOrderId_pos (fire_wellFormed hw hst hx))

theorem Step.logged (h : Step c c') (hc : c.Sound) (hl : c.Logged) : c'.Logged := by
  obtain ⟨hw, hst⟩ := hc
  have htail {e : MatchingEngine} {t : Task} {K : List Task} (h : Logged ⟨e, t :: K⟩) :
      Logged ⟨e, K⟩ :=
    Chronicle.mono h (fun u hu => List.mem_cons_of_mem t hu) (Nat.le_refl _)
  cases h with
  | stale e t K hnone =>
    have hq := Chronicle.quiet (a := .staleRead t.slot) (htail hl) rfl
      (fun _ _ _ _ _ _ _ he => Event.noConfusion he)
    rw [Logged, log_stale, book_stale]
    exact hq
  | requeue e t K id x hx ht => exact htail hl
  | market e t K id x hx ht hs =>
    have hfired : (e.fire id t.slot t.last t.pass).book.WellFormed := fire_wellFormed hw hst hx
    have hm := matched_refines hfired x.side x.qty
    have hfire : OrderBook.Ages e.book (e.fire id t.slot t.last t.pass).book :=
      fire_ages hw hst hx
    have hact := Chronicle.activate (b := .market x.side x.qty
        ((e.fire id t.slot t.last t.pass).batch x.side x.qty)) hl hx
      (hw.id_lt (OrderBook.stopSlot_eq_some.mp hx).1) ht ⟨hs, rfl, rfl⟩
      (hm.stops.trans (fire_stopSlot hw hst hx)) (Nat.le_trans hfire.next hm.ages.next)
    refine logged_launch ?_
    rw [Logged, matched, log_record, fire, log_record, List.append_assoc]
    exact hact
  | limit e t K id x hx ht hs =>
    have hfired : (e.fire id t.slot t.last t.pass).book.WellFormed := fire_wellFormed hw hst hx
    obtain ⟨hret, hr⟩ := submitLimit_refines hfired x.side x.price x.qty x.displayQty
    have hid : (e.fire id t.slot t.last t.pass).limitId ≠ 0 := fire_limitId hw hst hx
    rw [← hret] at hid
    have hfire : OrderBook.Ages e.book (e.fire id t.slot t.last t.pass).book :=
      fire_ages hw hst hx
    have hact := Chronicle.activate
      (b := .limit ((e.fire id t.slot t.last t.pass).submitLimit x.side x.price x.qty
        x.displayQty).1 x.side x.price x.qty x.displayQty) hl hx
      (hw.id_lt (OrderBook.stopSlot_eq_some.mp hx).1) ht ⟨hs, hid, rfl, rfl, rfl, rfl⟩
      (hr.stops.trans (fire_stopSlot hw hst hx)) (Nat.le_trans hfire.next hr.ages.next)
    have hlog : (e.fire id t.slot t.last t.pass).log = e.log ++ [.trigger id t.last t.pass] := rfl
    rw [Logged, log_submitLimit, hlog, List.append_assoc]
    exact hact

end Config

namespace MatchingEngine

open Config

/-- What the log of an engine says about its stops between calls. -/
structure Accounted (e : MatchingEngine) : Prop where
  /-- No stop is activated twice. -/
  once : ((e.log.filterMap Event.activation).map Activation.id).Nodup
  /-- Every activation follows a trade at a price that triggers the stop, after its submission,
  and submits the order the stop stands for. -/
  explained : ∀ k a, e.log[k]?.bind Event.activation = some a → Explained e.log k a
  /-- A stop that has not been activated is registered and pending. -/
  kept : ∀ id side stopPrice qty stopType limitPrice display,
    .stop id side stopPrice qty stopType limitPrice display ∈ e.log → id ≠ 0 →
    (∃ a ∈ e.log.filterMap Event.activation, a.id = id) ∨ ∃ o x,
      e.book.stopSlot id = some (o, x) ∧ o ∈ e.pendingStops ∧
      .submission id x = Event.stop id side stopPrice qty stopType limitPrice display

variable {e : MatchingEngine} {capacity : Nat} {mode : AllocMode} {policy : MatchingPolicy}

theorem logged_new (capacity : Nat) (mode : AllocMode) (policy : MatchingPolicy) :
    Logged ⟨new (OrderBook.new capacity mode) policy, []⟩ := by
  have hnone (id : Nat) : (OrderBook.new capacity mode).stopSlot id = none := by
    rw [OrderBook.stopSlot, OrderBook.findId_new]
    rfl
  constructor
  · intro id o x hx
    simp [new, hnone] at hx
  all_goals simp [new]

/-- Every call keeps the log in order. -/
theorem Settled.logged_apply (h : e.Settled) (hl : Logged ⟨e, []⟩) (a : Call)
    (ha : e.Admissible a) : Logged ⟨e.apply a, []⟩ := by
  have hw := h.wf
  cases a with
  | limit side price qty display =>
    have hr := (submitLimit_refines hw side price qty display).2
    have hq := Chronicle.quiet (a := .limit (e.submitLimit side price qty display).1 side price qty
      display) hl rfl (fun _ _ _ _ _ _ _ he => Event.noConfusion he)
    have hm := Chronicle.mono hq (fun t ht => ht) hr.ages.next
    rw [← hr.stops] at hm
    exact hm
  | market side qty =>
    have hm := matched_refines hw side qty
    have hq := Chronicle.quiet (a := .market side qty (e.batch side qty)) hl rfl
      (fun _ _ _ _ _ _ _ he => Event.noConfusion he)
    have hn := Chronicle.mono hq (fun t ht => ht) hm.ages.next
    rw [← hm.stops] at hn
    exact Steps.of_launch hw (h.market_steps side qty).1 (logged_launch hn)
      fun c c' _ hc hi hs => hs.logged hc hi
  | stop side stopPrice qty stopType limitPrice display =>
    rw [MatchingEngine.apply]
    cases hal : e.book.pool.allocate with
    | none =>
      rw [submitStop_full hal]
      exact Chronicle.quiet hl rfl (fun _ _ _ _ _ _ _ he => (Event.stop.inj he).1.symm)
    | some r =>
      obtain ⟨o, pool⟩ := r
      have hslot :=
        OrderBook.addPendingStop_stopSlot hal hw ha side stopPrice qty limitPrice display
      have hg := OrderBook.addPendingStop_grows hal hw ha side stopPrice qty limitPrice display
      rw [submitStop_eq hal hw ha]
      have hsub := Chronicle.submit hl (stopSlot_of_ge hw (Nat.le_refl _)) hslot
        (b := .stop e.book.nextOrderId side stopPrice qty stopType limitPrice display) rfl
      rw [← hg.next] at hsub
      exact hsub
  | cancel id =>
    have hr := cancelOrder_refines hw ha
    have hm := Chronicle.mono hl (fun t ht => ht) hr.ages.next
    rw [← hr.stops] at hm
    rw [Logged, MatchingEngine.apply, cancelOrder_log]
    split
    · exact Chronicle.quiet hm rfl (fun _ _ _ _ _ _ _ he => Event.noConfusion he)
    · exact hm

theorem Reachable.logged (h : Reachable capacity mode policy e) : Logged ⟨e, []⟩ :=
  Reachable.invariant (I := fun e => Logged ⟨e, []⟩) h (logged_new capacity mode policy)
    fun _ a hs hl ha => hs.logged_apply hl a ha

/-- Every stop ever submitted is accounted for between any two calls. -/
theorem reachable_accounted (h : Reachable capacity mode policy e) : e.Accounted := by
  have hl := h.logged
  refine ⟨hl.once, hl.explained, ?_⟩
  intro id side stopPrice qty stopType limitPrice display hmem hid
  refine (hl.kept _ _ _ _ _ _ _ hmem hid).imp_right ?_
  rintro ⟨o, x, hx, he⟩
  exact ⟨o, x, hx, h.settled.held id o x hx, he⟩

/-- A cascade that activates a stop-market and a stop-limit order. -/
def stopsActivated : List Call :=
  [.limit .sell 100 1 0, .limit .sell 105 1 0, .stop .buy 104 3 .stopLimit 50 1,
    .stop .buy 100 1 .stopMarket 0 0, .stop .sell 10 1 .stopMarket 0 0, .market .buy 1]

theorem reachable_accounted_activated :
    (stopsActivated.foldl apply (new (OrderBook.new 8) .fifoStack)).Accounted :=
  reachable_accounted
    (Run.Reach.foldl Run.Reach.init (by decide +kernel))

end MatchingEngine

end Lob
