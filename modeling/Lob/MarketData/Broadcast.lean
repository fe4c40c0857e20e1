import Lob.MarketData.Driver
import Lob.MarketData.Feed

/-!
# From the book to the observer

The matching thread of `run_pipeline` calls the publisher for one message after
the other, while the publisher thread, the network and a receiver take their
steps. An observer applies what the receiver decodes.
-/

namespace Lob.Md

open Ring (Outcome)

/-- The event with which the publisher is called for a message. -/
def Message.event (ns : UInt64) : Message → Event
  | .add id side px qty => addEvent (UInt64.ofNat id) side (Int64.ofInt px) qty ns
  | .cancel id => cancelEvent (UInt64.ofNat id) ns
  | .execute id px qty => executeEvent (UInt64.ofNat id) (Int64.ofInt px) qty ns
  | .snapshot bid ask => snapshotEvent (bid.map fun t => (Int64.ofInt t.1, t.2))
      (ask.map fun t => (Int64.ofInt t.1, t.2)) ns

/-- What an observer reads in a decoded message. -/
def Decoded.message (d : Decoded) : Message :=
  if d.type = MsgType.add.toByte then
    .add d.orderId.toNat (if d.side = sideByte .buy then .buy else .sell) d.price.toInt d.qty
  else if d.type = MsgType.cancel.toByte then .cancel d.orderId.toNat
  else if d.type = MsgType.execute.toByte then .execute d.orderId.toNat d.price.toInt d.qty
  else
    .snapshot (if d.snapFlags &&& 1 = 0 then none else some (d.bid.toInt, d.bidQty))
      (if d.snapFlags &&& 2 = 0 then none else some (d.ask.toInt, d.askQty))

theorem toInt_of_signed {px : Int} (h : Text.Signed px) : (Int64.ofInt px).toInt = px :=
  Int64.toInt_ofInt_of_le h.1 h.2

theorem toNat_of_id {id : Nat} (h : id < 2 ^ 64) : (UInt64.ofNat id).toNat = id :=
  UInt64.toNat_ofNat_of_lt' h

/-- A message whose numbers fit is read as it was. -/
theorem message_decoded {m : Message} (h : m.Fits (2 ^ 64)) (ns : UInt64) :
    (m.event ns).decoded.message = m := by
  cases m with
  | add id side px qty =>
    change Message.add (UInt64.ofNat id).toNat
      (if sideByte side = sideByte .buy then .buy else .sell) (Int64.ofInt px).toInt qty = _
    rw [toNat_of_id h.1, toInt_of_signed h.2]
    cases side with
    | buy => rfl
    | sell => rfl
  | cancel id =>
    change Message.cancel (UInt64.ofNat id).toNat = _
    rw [toNat_of_id h]
  | execute id px qty =>
    change Message.execute (UInt64.ofNat id).toNat (Int64.ofInt px).toInt qty = _
    rw [toNat_of_id h.1, toInt_of_signed h.2]
  | snapshot bid ask =>
    have hbid : ∀ t ∈ bid, (Int64.ofInt t.1).toInt = t.1 := fun t ht =>
      toInt_of_signed (h t (List.mem_append_left _ (Option.mem_toList.mpr ht)))
    have hask : ∀ t ∈ ask, (Int64.ofInt t.1).toInt = t.1 := fun t ht =>
      toInt_of_signed (h t (List.mem_append_right _ (Option.mem_toList.mpr ht)))
    have hflags : (2 : UInt8) &&& 1 = 0 ∧ (1 : UInt8) &&& 2 = 0 ∧
        ¬ ((1 : UInt8) ||| 2) &&& 1 = 0 ∧ ¬ ((1 : UInt8) ||| 2) &&& 2 = 0 := by decide
    unfold Message.event snapshotEvent Event.decoded Decoded.message
    cases bid with
    | none =>
      cases ask with
      | none => simp [MsgType.toByte]
      | some t => simp [MsgType.toByte, hflags, hask t rfl]
    | some u =>
      cases ask with
      | none => simp [MsgType.toByte, hflags, hbid u rfl]
      | some t => simp [MsgType.toByte, hflags, hbid u rfl, hask t rfl]

/-- The matching thread with the publisher it calls, the network and a receiver. -/
structure Broadcast where
  driver : Driver
  /-- The messages for which the publisher is still to be called. -/
  todo : List Message := []
  feed : Feed := .start

namespace Broadcast

/-- A step of the matching thread, or one of another thread or of the network. -/
inductive Action where
  /-- The calls on the book of an iteration. -/
  | iterate (r : Draws)
  /-- The next step of the call of the publisher, with the time at which it is made. -/
  | publish (ns : UInt64)
  | other (a : Feed.Action)

def step (s : Broadcast) : Action → Broadcast
  | .iterate r =>
    let driver := s.driver.iteration r
    { s with driver, todo := driver.offered.drop s.driver.offered.length }
  | .publish ns =>
    match s.todo with
    | [] => s
    | m :: ms =>
      let feed := s.feed.enqueueStep (m.event ns)
      match s.feed.caller with
      | .pushing => { s with feed }
      | .counting _ => { s with feed, todo := ms }
  | .other a => { s with feed := s.feed.step a }

/-- An iteration makes its calls of the publisher before the next one begins. The limit prices and
the ids fit, and only the matching thread calls the publisher. -/
def Allowed (start : Driver) (s : Broadcast) : Action → Prop
  | .iterate r => s.todo = [] ∧ Text.Signed (Driver.price start.cfg r) ∧
      s.driver.book.nextOrderId < 2 ^ 64
  | .publish _ => True
  | .other a => ∀ v, a ≠ .enqueue v

instance (start : Driver) (s : Broadcast) (a : Action) : Decidable (Allowed start s a) :=
  match a with
  | .iterate _ => inferInstanceAs (Decidable (_ ∧ (_ ∧ _) ∧ _))
  | .publish _ => .isTrue trivial
  | .other a => inferInstanceAs (Decidable (∀ v, a ≠ .enqueue v))

/-- The states of any interleaving. -/
def Reachable (start : Driver) : Broadcast → Prop :=
  Run.Reach step (Allowed start) { driver := start }

/-- The messages that an observer has read. -/
def read (s : Broadcast) : List Message := s.feed.receiver.decoded.map Decoded.message

/-- Nothing has been refused, has failed to be sent or is still on its way. -/
structure Drained (s : Broadcast) : Prop where
  refused : s.feed.refused = 0
  failed : s.feed.failed = []
  arrived : s.feed.arrived = s.feed.wire
  todo : s.todo = []
  inHand : s.feed.publisher.inHand = []
  backlog : s.feed.publisher.backlog = []

/-- What an observer knows of the book. -/
structure Observed (start : Driver) (s : Broadcast) : Prop where
  /-- Behind a network that keeps the order and repeats nothing an observer misses messages only. -/
  sublist : s.feed.arrived.Sublist s.feed.wire → s.read.Sublist s.driver.offered
  /-- As long as nothing is refused or lost, an observer lags behind. -/
  lagging : s.feed.refused = 0 → s.feed.failed = [] → s.feed.arrived <+: s.feed.wire →
    s.read <+: s.driver.offered
  complete : s.Drained → s.read = s.driver.offered
  /-- An observer who knew the book at the start knows it now. -/
  orders : s.Drained → (tape s.driver.book.queues).without s.driver.quiet =
    (tape start.book.queues).replay s.read
  /-- One who knew nothing knows the orders that have been told. -/
  newcomer : s.Drained → (tape s.driver.book.queues).without
    (List.range start.book.nextOrderId ++ s.driver.quiet) = Tape.replay (fun _ _ => []) s.read

/-- The messages of the accepted events. -/
def taken (s : Broadcast) : List Message :=
  s.feed.publisher.accepted.map fun v => v.decoded.message

/-- The message that has been accepted by a call that has not returned. -/
def pending (todo : List Message) : Caller → List Message
  | .counting true => todo.take 1
  | .pushing | .counting false => []

/-- The calls of the publisher: those for the messages `done` have returned, one may be under way,
and those for `todo` remain. -/
structure Calling (todo taken : List Message) (refused : Nat) (caller : Caller)
    (value : Option Event) (done : List Message) : Prop where
  sublist : taken.Sublist (done ++ pending todo caller)
  exact : refused = 0 → taken = done ++ pending todo caller
  /-- The call that is under way is the one for the next message. -/
  held : ∀ v ∈ value, ∃ m ms, todo = m :: ms ∧ v.decoded.message = m
  counting : ∀ ok, caller = .counting ok → todo ≠ [] ∧ value = none ∧ (ok = false → refused ≠ 0)

variable {start : Driver} {s : Broadcast} {todo done taken ms new : List Message} {m : Message}
  {ns : UInt64} {refused : Nat} {caller : Caller} {value : Option Event} {v : Event} {ok : Bool}
  {r : Draws}

namespace Calling

/-- `try_push` goes on. -/
theorem running (h : Calling (m :: ms) taken refused .pushing value done)
    (hv : v.decoded.message = m) : Calling (m :: ms) taken refused .pushing (some v) done where
  sublist := h.sublist
  exact := h.exact
  held _ hw := ⟨m, ms, rfl, Option.some.inj hw ▸ hv⟩
  counting _ hok := nomatch hok

theorem refuse (h : Calling (m :: ms) taken refused .pushing value done) :
    Calling (m :: ms) taken (refused + 1) (.counting false) none done where
  sublist := h.sublist
  exact hr := absurd hr (Nat.succ_ne_zero _)
  held _ hw := nomatch hw
  counting _ _ := ⟨List.cons_ne_nil m ms, rfl, fun _ => Nat.succ_ne_zero _⟩

theorem accept (h : Calling (m :: ms) taken refused .pushing value done) :
    Calling (m :: ms) (taken ++ [m]) refused (.counting true) none done where
  sublist := by
    have hsub := h.sublist
    rw [show pending (m :: ms) .pushing = [] from rfl, List.append_nil] at hsub
    exact hsub.append (List.Sublist.refl _)
  exact hr := by
    have hexact := h.exact hr
    rw [show pending (m :: ms) .pushing = [] from rfl, List.append_nil] at hexact
    rw [hexact]
    rfl
  held _ hw := nomatch hw
  counting _ hok := ⟨List.cons_ne_nil m ms, rfl, fun hf => nomatch hok.trans (congrArg _ hf)⟩

/-- The call returns. -/
theorem returns (h : Calling (m :: ms) taken refused (.counting ok) value done) :
    Calling ms taken refused .pushing value (done ++ [m]) where
  sublist := by
    rw [show pending ms .pushing = [] from rfl, List.append_nil]
    refine h.sublist.trans ?_
    cases ok with
    | true => exact List.Sublist.refl _
    | false => exact (List.append_sublist_append_left _).mpr (List.nil_sublist _)
  exact hr := by
    rw [show pending ms .pushing = [] from rfl, List.append_nil, h.exact hr]
    cases ok with
    | true => rfl
    | false => exact absurd hr ((h.counting false rfl).2.2 rfl)
  held w hw := by
    rw [(h.counting ok rfl).2.1] at hw
    contradiction
  counting _ hok := nomatch hok

/-- New messages when no call is left. -/
theorem more (h : Calling [] taken refused caller value done) :
    Calling new taken refused caller value done := by
  have hnone : ∀ ok, caller ≠ .counting ok := fun ok hok => (h.counting ok hok).1 rfl
  have hpending : pending new caller = pending [] caller := by
    cases caller with
    | pushing => rfl
    | counting ok => exact absurd rfl (hnone ok)
  refine ⟨?_, ?_, fun w hw => ?_, fun ok hok => absurd hok (hnone ok)⟩
  · rw [hpending]
    exact h.sublist
  · rw [hpending]
    exact h.exact
  · obtain ⟨m, ms, hm, -⟩ := h.held w hw
    contradiction

end Calling

/-- The invariant of the feed and of the threads around it. -/
structure Valid (start : Driver) (s : Broadcast) : Prop where
  driver : Driver.Valid start s.driver
  ids : s.driver.book.nextOrderId ≤ 2 ^ 64
  feed : s.feed.Valid
  calling : ∃ done, s.driver.offered = done ++ s.todo ∧
    Calling s.todo s.taken s.feed.refused s.feed.caller s.feed.publisher.q.producer.value done

/-- A step of `try_push`. -/
theorem calling_push {f : Feed} (h : Calling (m :: ms)
    (f.publisher.accepted.map fun v => v.decoded.message) f.refused f.caller
    f.publisher.q.producer.value done) (hfits : m.Fits (2 ^ 64)) (hcaller : f.caller = .pushing) :
    Calling (m :: ms)
      ((f.enqueueStep (m.event ns)).publisher.accepted.map fun v => v.decoded.message)
      (f.enqueueStep (m.event ns)).refused (f.enqueueStep (m.event ns)).caller
      (f.enqueueStep (m.event ns)).publisher.q.producer.value done := by
  have hvalue : (f.publisher.q.producer.value.getD (m.event ns)).decoded.message = m := by
    cases hv : f.publisher.q.producer.value with
    | none => exact message_decoded hfits ns
    | some v =>
      obtain ⟨m', ms', htodo, hm'⟩ := h.held v hv
      rw [Option.getD_some, hm', (List.cons.inj htodo).1]
  have hpush := SpscRing.value_pushStep (k := kQueueBits) f.publisher.q (m.event ns)
  rw [hcaller] at h
  unfold Feed.enqueueStep
  rw [hcaller]
  dsimp only
  unfold Publisher.step Publisher.accepted at *
  cases hout : (f.publisher.q.pushStep kQueueBits (m.event ns)).1 with
  | running =>
    rw [hout] at hpush
    dsimp only
    rw [hpush.1, hpush.2]
    exact h.running hvalue
  | refused =>
    rw [hout] at hpush
    dsimp only
    rw [hpush.1, hpush.2]
    exact h.refuse
  | done w =>
    rw [hout] at hpush
    dsimp only
    rw [hpush.2.1, Option.getD_some] at hvalue
    rw [hpush.1, hpush.2.2, List.map_append, List.map_singleton, hvalue]
    exact h.accept

/-- The other threads and the network do not touch what the matching thread works with. -/
theorem frame (f : Feed) (a : Feed.Action) (ha : ∀ v, a ≠ .enqueue v) :
    (f.step a).publisher.q.pushed = f.publisher.q.pushed ∧
      (f.step a).publisher.q.producer = f.publisher.q.producer ∧
      (f.step a).caller = f.caller ∧ (f.step a).refused = f.refused := by
  cases a with
  | enqueue v => exact absurd rfl (ha v)
  | thread now ok =>
    have hframe := Feed.threadStep_frame f.publisher now
    unfold Feed.step Feed.threadStep
    dsimp only
    cases f.sender with
    | running =>
      dsimp only
      cases f.publisher.thread with
      | polling | packing b | exited => exact ⟨hframe.1, hframe.2, rfl, rfl⟩
      | sending b =>
        cases ok with
        | true => exact ⟨hframe.1, hframe.2, rfl, rfl⟩
        | false => exact ⟨hframe.1, hframe.2, rfl, rfl⟩
    | failing | counting | adding => exact ⟨rfl, rfl, rfl, rfl⟩
  | stop =>
    unfold Feed.step Publisher.stopStep
    dsimp only
    split
    · exact ⟨rfl, rfl, rfl, rfl⟩
    · split
      · exact ⟨rfl, rfl, rfl, rfl⟩
      · exact ⟨rfl, rfl, rfl, rfl⟩
    · exact ⟨rfl, rfl, rfl, rfl⟩
  | deliver i =>
    unfold Feed.step Feed.deliver
    dsimp only
    split
    · exact ⟨rfl, rfl, rfl, rfl⟩
    · exact ⟨rfl, rfl, rfl, rfl⟩
  | fail => exact ⟨rfl, rfl, rfl, rfl⟩

theorem Valid.iterate (h : Valid start s) (ha : Allowed start s (.iterate r)) :
    Valid start (s.step (.iterate r)) := by
  obtain ⟨htodo, hpx, hids⟩ := ha
  obtain ⟨done, hoffered, hcalling⟩ := h.calling
  have hpx' : Text.Signed (Driver.price s.driver.cfg r) := h.driver.cfg ▸ hpx
  obtain ⟨hnext, new, hnew⟩ := h.driver.next_le hpx'
  have htaken : (s.step (.iterate r)).todo = new := by
    unfold step
    dsimp only
    rw [← hnew, List.drop_left]
  refine ⟨h.driver.step hpx', Nat.le_trans hnext hids, h.feed, s.driver.offered, ?_, ?_⟩
  · rw [htaken]
    exact hnew.symm
  · rw [htodo, List.append_nil] at hoffered
    rw [htodo, ← hoffered] at hcalling
    rw [htaken]
    exact hcalling.more

theorem Valid.publish (h : Valid start s) (ns : UInt64) : Valid start (s.step (.publish ns)) := by
  obtain ⟨done, hoffered, hcalling⟩ := h.calling
  unfold step
  cases htodo : s.todo with
  | nil => exact h
  | cons m ms =>
    have hfeed := h.feed.enqueueStep (m.event ns)
    rw [htodo] at hoffered hcalling
    dsimp only
    cases hcaller : s.feed.caller with
    | pushing =>
      have hfits : m.Fits (2 ^ 64) :=
        (h.driver.fits m (hoffered ▸ List.mem_append_right _ List.mem_cons_self)).mono h.ids
      exact ⟨h.driver, h.ids, hfeed, done, hoffered, calling_push hcalling hfits hcaller⟩
    | counting ok =>
      rw [hcaller] at hcalling
      refine ⟨h.driver, h.ids, hfeed, done ++ [m], ?_, ?_⟩
      · rw [List.append_assoc]
        exact hoffered
      · unfold taken Feed.enqueueStep
        rw [hcaller]
        exact hcalling.returns

theorem Valid.other (h : Valid start s) {a : Feed.Action} (ha : ∀ v, a ≠ .enqueue v) :
    Valid start (s.step (.other a)) := by
  obtain ⟨done, hoffered, hcalling⟩ := h.calling
  obtain ⟨hpushed, hproducer, hcaller, hrefused⟩ := frame s.feed a ha
  refine ⟨h.driver, h.ids, h.feed.step a, done, hoffered, ?_⟩
  unfold taken step Publisher.accepted
  dsimp only
  rw [hpushed, hproducer, hcaller, hrefused]
  exact hcalling

theorem Valid.step {a : Action} (h : Valid start s) (ha : Allowed start s a) :
    Valid start (s.step a) := by
  cases a with
  | iterate r => exact h.iterate ha
  | publish ns => exact h.publish ns
  | other a => exact h.other ha

theorem valid_start (hs : start.WarmedUp) (hids : start.book.nextOrderId ≤ 2 ^ 64) :
    Valid start { driver := start } := by
  have hv := hs.valid
  obtain ⟨_, _, _, _, hstart⟩ := hs.steps
  have hoffered : start.offered = [] := by rw [hstart]
  refine ⟨hv, hids, Feed.valid_start, [], hoffered, ?_⟩
  exact ⟨List.Sublist.refl _, fun _ => rfl, nofun, nofun⟩

theorem Reachable.valid (h : Reachable start s) (hs : start.WarmedUp)
    (hids : start.book.nextOrderId ≤ 2 ^ 64) : Valid start s :=
  Run.Reach.invariant (I := Valid start) h (valid_start hs hids) fun _ _ hv ha => hv.step ha

/-- What the receiver has decoded is what the datagrams that arrived were packed from. -/
theorem Valid.read_eq (h : Valid start s) : s.read =
    (s.feed.arrived.flatMap Datagram.events).map fun v => v.decoded.message := by
  unfold read
  rw [h.feed.decoded, List.map_map]
  rfl

/-- What has been accepted is, in order, among what was offered. -/
theorem Valid.taken_sublist (h : Valid start s) : s.taken.Sublist s.driver.offered := by
  obtain ⟨done, hoffered, hcalling⟩ := h.calling
  rw [hoffered]
  refine hcalling.sublist.trans ((List.append_sublist_append_left _).mpr ?_)
  unfold pending
  split
  · exact List.take_sublist _ _
  · exact List.nil_sublist _
  · exact List.nil_sublist _

/-- When nothing has been refused it is all that was offered, up to some point. -/
theorem Valid.taken_prefix (h : Valid start s) (hr : s.feed.refused = 0) :
    s.taken <+: s.driver.offered ∧ (s.todo = [] → s.taken = s.driver.offered) := by
  obtain ⟨done, hoffered, hcalling⟩ := h.calling
  rw [hcalling.exact hr, hoffered]
  constructor
  · refine (List.prefix_append_right_inj _).mpr ?_
    unfold pending
    split
    · exact List.take_prefix _ _
    · exact List.nil_prefix
    · exact List.nil_prefix
  · intro htodo
    rw [htodo]
    unfold pending
    split
    · rfl
    · rfl
    · rfl

/-- What was handed to `sendto` comes first in what was accepted. -/
theorem Valid.delivered_prefix (h : Valid start s) :
    (s.feed.publisher.sent.flatMap Datagram.events).map (fun v => v.decoded.message) <+:
      s.taken := by
  have haccepted := h.feed.publisher.accepted_eq
  unfold taken
  rw [← haccepted, List.append_assoc]
  exact (List.prefix_append _ _).map _

/-- Nothing has failed to be sent. -/
theorem Valid.wire_eq (h : Valid start s) (hfailed : s.feed.failed = []) :
    s.feed.wire = s.feed.publisher.sent := by
  have hlen := h.feed.split.length_eq
  rw [hfailed, List.append_nil] at hlen
  exact h.feed.inOrder.eq_of_length hlen

theorem Valid.complete (h : Valid start s) (hd : s.Drained) : s.read = s.driver.offered := by
  have haccepted := h.feed.publisher.accepted_eq
  rw [hd.inHand, hd.backlog, List.append_nil, List.append_nil] at haccepted
  rw [← (h.taken_prefix hd.refused).2 hd.todo, h.read_eq, hd.arrived, h.wire_eq hd.failed]
  unfold taken
  rw [← haccepted]
  rfl

/-- In every interleaving an observer learns what the matching thread has published, and once
everything has arrived, the orders of the book. -/
theorem reachable_observed (h : Reachable start s) (hs : start.WarmedUp)
    (hids : start.book.nextOrderId ≤ 2 ^ 64) : Observed start s := by
  have hv := h.valid hs hids
  refine ⟨fun harrived => ?_, fun hr hfailed harrived => ?_, hv.complete, fun hd => ?_,
    fun hd => ?_⟩
  · rw [hv.read_eq]
    have hsub := ((harrived.trans hv.feed.inOrder).flatMap Datagram.events).map
      fun v => v.decoded.message
    exact (hsub.trans hv.delivered_prefix.sublist).trans hv.taken_sublist
  · rw [hv.wire_eq hfailed] at harrived
    rw [hv.read_eq]
    have hpre := (harrived.flatMap Datagram.events).map fun v => v.decoded.message
    exact (hpre.trans hv.delivered_prefix).trans (hv.taken_prefix hr).1
  · rw [hv.complete hd]
    exact hv.driver.told
  · rw [hv.complete hd]
    exact hv.driver.newcomer hs

/-- A limit order is published, sent and delivered. -/
def delivery : List Action :=
  [.iterate ⟨.limit, true, 3, 0, fun _ => 0⟩] ++ List.replicate 5 (.publish 7) ++
    List.replicate 11 (.other (.thread 8 true)) ++ [.other (.deliver 0)]

theorem reachable_observed_delivery :
    Observed .cold (delivery.foldl step { driver := .cold }) :=
  reachable_observed (Run.Reach.foldl Run.Reach.init (by decide)) Driver.warmedUp_cold (by decide)

end Broadcast

end Lob.Md
