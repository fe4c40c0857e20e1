import Mathlib.Data.List.Flatten
import Lob.MarketData.Egress

/-!
# The feed from the matching thread to a receiver

The publisher with its counters, the network and a receiver, in any order of
steps. `sendto` succeeds or fails. The network delivers a datagram it was given
any number of times and in any order, or never.
-/

namespace Lob.Md

open Ring (Outcome)

/-- `Publisher::Stats`, without the latencies. -/
structure Counters where
  enqueued : UInt64 := 0
  dropped : UInt64 := 0
  packets : UInt64 := 0
  messages : UInt64 := 0
  sendFail : UInt64 := 0
  deriving DecidableEq, Repr

/-- Where the matching thread is in `enqueue`. -/
inductive Caller where
  /-- In `try_push`, or between two calls. -/
  | pushing
  /-- `try_push` has returned `ok`, a counter is next. -/
  | counting (ok : Bool)
  deriving DecidableEq, Repr

/-- Where the publisher thread is behind `sendto`. -/
inductive Sender where
  | running
  /-- `send_fail` is next. -/
  | failing
  /-- `packets` is next. -/
  | counting (count : UInt8)
  /-- `messages` is next. -/
  | adding (count : UInt8)
  deriving DecidableEq, Repr

/-- The counters once the pending call of `enqueue` has counted. -/
def Caller.settle (c : Counters) : Caller → Counters
  | pushing => c
  | counting true => { c with enqueued := c.enqueued + 1 }
  | counting false => { c with dropped := c.dropped + 1 }

/-- The counters once the pending datagram has been counted. -/
def Sender.settle (c : Counters) : Sender → Counters
  | running => c
  | failing => { c with sendFail := c.sendFail + 1 }
  | counting count =>
    { c with packets := c.packets + 1, messages := c.messages + UInt64.ofNat count.toNat }
  | adding count => { c with messages := c.messages + UInt64.ofNat count.toNat }

/-- The publisher, the network and a receiver. -/
structure Feed where
  publisher : Publisher
  counters : Counters
  caller : Caller
  sender : Sender
  receiver : Receiver
  /-- The calls of `try_push` that were refused. -/
  refused : Nat
  /-- The datagrams for which `sendto` succeeded, in order. -/
  wire : List Datagram
  /-- The datagrams for which `sendto` failed, in order. -/
  failed : List Datagram
  /-- The datagrams the network has delivered, in order. -/
  arrived : List Datagram
  /-- The calls of `recvfrom` that failed. -/
  errors : Nat

namespace Feed

def start : Feed :=
  { publisher := .start, counters := {}, caller := .pushing, sender := .running, receiver := {}
    refused := 0, wire := [], failed := [], arrived := [], errors := 0 }

/-- The next step of `enqueue`; an idle thread calls it with `v`. -/
def enqueueStep (f : Feed) (v : Event) : Feed :=
  match f.caller with
  | .pushing =>
    let publisher := f.publisher.step (.enqueue v)
    match (f.publisher.q.pushStep kQueueBits v).1 with
    | .running => { f with publisher }
    | .refused => { f with publisher, caller := .counting false, refused := f.refused + 1 }
    | .done _ => { f with publisher, caller := .counting true }
  | .counting _ => { f with counters := f.caller.settle f.counters, caller := .pushing }

/-- The next step of `thread_main`. When it is `sendto`, `ok` is whether all bytes were sent. -/
def threadStep (f : Feed) (now : UInt64) (ok : Bool) : Feed :=
  match f.sender with
  | .running =>
    let publisher := f.publisher.threadStep now
    match f.publisher.thread with
    | .sending b =>
      let d : Datagram := ⟨(b.header f.publisher.pktSeq now).pack ++ b.payload, b.events⟩
      if ok then { f with publisher, sender := .counting b.count, wire := f.wire ++ [d] }
      else { f with publisher, sender := .failing, failed := f.failed ++ [d] }
    | .polling | .packing _ | .exited => { f with publisher }
  | .counting count =>
    { f with
      counters := { f.counters with packets := f.counters.packets + 1 }
      sender := .adding count }
  | .failing | .adding _ => { f with counters := f.sender.settle f.counters, sender := .running }

/-- `poll_once` when the network delivers the datagram `i`, or has nothing. -/
def deliver (f : Feed) (i : Nat) : Feed :=
  match f.wire[i]? with
  | some d =>
    { f with
      receiver := (f.receiver.pollOnce (.datagram d.bytes)).2
      arrived := f.arrived ++ [d] }
  | none => { f with receiver := (f.receiver.pollOnce .again).2 }

/-- A step of one of the threads or of the network. -/
inductive Action where
  | enqueue (v : Event)
  | thread (now : UInt64) (ok : Bool)
  | stop
  | deliver (i : Nat)
  /-- `recvfrom` fails. -/
  | fail
  deriving DecidableEq, Repr

/-- The feed after a step. -/
def step (f : Feed) : Action → Feed
  | .enqueue v => f.enqueueStep v
  | .thread now ok => f.threadStep now ok
  | .stop => { f with publisher := f.publisher.stopStep }
  | .deliver i => f.deliver i
  | .fail =>
    { f with receiver := (f.receiver.pollOnce .failed).2, errors := f.errors + 1 }

instance (a : Action) : Decidable (∀ v, a ≠ .enqueue v) :=
  match a with
  | .enqueue v => .isFalse fun h => h v rfl
  | .thread _ _ | .stop | .deliver _ | .fail => .isTrue nofun

/-- The states of any interleaving. -/
def Reachable : Feed → Prop := Run.Reach step (fun _ _ => True) start

/-- The counters once what is pending has been counted. -/
def settled (f : Feed) : Counters := f.sender.settle (f.caller.settle f.counters)

/-- Every event and every datagram is accounted for. -/
structure Balanced (f : Feed) : Prop where
  settled : f.settled =
    { enqueued := UInt64.ofNat f.publisher.accepted.length
      dropped := UInt64.ofNat f.refused
      packets := UInt64.ofNat f.wire.length
      messages := UInt64.ofNat (f.wire.flatMap Datagram.events).length
      sendFail := UInt64.ofNat f.failed.length }
  numbered : f.settled.packets + f.settled.sendFail = f.publisher.pktSeq
  conserved : f.settled.enqueued = f.settled.messages + UInt64.ofNat
    (f.failed.flatMap Datagram.events ++ f.publisher.inHand ++ f.publisher.backlog).length
  /-- Each accepted event has been sent, has failed to be sent, is being packed or is in the
  ring. -/
  held : (f.wire.flatMap Datagram.events ++ f.failed.flatMap Datagram.events ++
    f.publisher.inHand ++ f.publisher.backlog).Perm f.publisher.accepted

/-- What has arrived is what was sent, each message as it was. -/
structure Arrives (f : Feed) : Prop where
  sent : ∀ d ∈ f.arrived, d ∈ f.wire
  decoded : f.receiver.decoded = (f.arrived.flatMap Datagram.events).map Event.decoded
  bad : f.receiver.bad = UInt64.ofNat f.errors
  packets : f.receiver.packets = UInt64.ofNat f.arrived.length
  messages : f.receiver.messages = UInt64.ofNat f.receiver.decoded.length
  last : f.receiver.last = f.receiver.decoded.getLastD {}
  /-- A network that keeps the order and repeats nothing loses whole datagrams only. -/
  ordered : f.arrived.Sublist f.wire →
    f.receiver.decoded.Sublist (f.publisher.accepted.map Event.decoded)
  /-- One that loses nothing either delivers the accepted events. -/
  complete : f.arrived = f.wire → f.failed = [] → f.publisher.inHand = [] →
    f.publisher.backlog = [] → f.receiver.decoded = f.publisher.accepted.map Event.decoded

/-- A datagram is a good header and the messages it counts. -/
def Packed (d : Datagram) : Prop :=
  ∃ hdr : PktHdr, hdr.magic = kMagic ∧ hdr.version = kVersion ∧
    hdr.count.toNat = d.events.length ∧ d.bytes = hdr.pack ++ d.events.flatMap packMsg ∧
    d.bytes.length ≤ kUdpPayload

/-- The invariant of the feed. -/
structure Valid (f : Feed) : Prop where
  publisher : f.publisher.Valid
  inOrder : f.wire.Sublist f.publisher.sent
  split : (f.wire ++ f.failed).Perm f.publisher.sent
  packed : ∀ d ∈ f.wire, Packed d
  settled : f.settled =
    { enqueued := UInt64.ofNat f.publisher.accepted.length
      dropped := UInt64.ofNat f.refused
      packets := UInt64.ofNat f.wire.length
      messages := UInt64.ofNat (f.wire.flatMap Datagram.events).length
      sendFail := UInt64.ofNat f.failed.length }
  sent : ∀ d ∈ f.arrived, d ∈ f.wire
  ready : f.receiver.ready = true
  decoded : f.receiver.decoded = (f.arrived.flatMap Datagram.events).map Event.decoded
  bad : f.receiver.bad = UInt64.ofNat f.errors
  packets : f.receiver.packets = UInt64.ofNat f.arrived.length
  messages : f.receiver.messages = UInt64.ofNat f.receiver.decoded.length
  last : f.receiver.last = f.receiver.decoded.getLastD {}

variable {f : Feed}

theorem valid_start : start.Valid where
  publisher := Publisher.valid_start
  inOrder := List.Sublist.refl _
  split := List.Perm.refl _
  packed _ hd := absurd hd List.not_mem_nil
  settled := rfl
  sent _ hd := absurd hd List.not_mem_nil
  ready := rfl
  decoded := rfl
  bad := rfl
  packets := rfl
  messages := rfl
  last := rfl

/-- The publisher thread leaves the producer's end of the ring alone. -/
theorem threadStep_frame (p : Publisher) (now : UInt64) :
    (p.threadStep now).q.pushed = p.q.pushed ∧ (p.threadStep now).q.producer = p.q.producer := by
  have hpop := (SpscRing.popStep_producer (k := kQueueBits) p.q).symm
  unfold Publisher.threadStep Publisher.endBatch
  cases ht : p.thread with
  | polling | exited | sending b => exact ⟨rfl, rfl⟩
  | packing b =>
    dsimp only
    generalize p.q.popStep kQueueBits = r at hpop ⊢
    obtain ⟨out, q⟩ := r
    split
    · cases out with
      | running | refused => exact hpop
      | done ev =>
        dsimp only
        split
        · exact hpop
        · exact hpop
    · exact ⟨rfl, rfl⟩

/-- Only `sendto` sends. -/
theorem sent_threadStep (p : Publisher) (now : UInt64) (hne : ∀ b, p.thread ≠ .sending b) :
    (p.threadStep now).sent = p.sent := by
  unfold Publisher.threadStep Publisher.endBatch
  cases ht : p.thread with
  | polling | exited => rfl
  | sending b => exact absurd ht (hne b)
  | packing b =>
    dsimp only
    generalize p.q.popStep kQueueBits = r
    obtain ⟨out, q⟩ := r
    split
    · cases out with
      | running | refused => rfl
      | done ev =>
        dsimp only
        split
        · rfl
        · rfl
    · rfl

/-- A step of the publisher that sends and accepts nothing. -/
theorem Valid.quiet (h : f.Valid) {p : Publisher} (hp : p.Valid) (hsent : p.sent = f.publisher.sent)
    (haccepted : p.accepted = f.publisher.accepted) :
    ({ f with publisher := p } : Feed).Valid := by
  refine { h with publisher := hp, inOrder := ?_, split := ?_, settled := ?_ }
  · rw [hsent]
    exact h.inOrder
  · rw [hsent]
    exact h.split
  · rw [haccepted]
    exact h.settled

/-- The two threads count different things. -/
theorem settle_comm (c : Counters) (s : Sender) (k : Caller) :
    s.settle (k.settle c) = k.settle (s.settle c) := by
  cases s with
  | running | failing | counting | adding =>
    cases k with
    | pushing => rfl
    | counting ok => cases ok <;> rfl

/-- A call that has not returned from `try_push` has nothing to count. -/
theorem settled_pushing (hc : f.caller = .pushing) : f.settled = f.sender.settle f.counters := by
  unfold settled
  rw [hc]
  rfl

theorem Valid.enqueueStep (h : f.Valid) (v : Event) : (f.enqueueStep v).Valid := by
  have hp := h.publisher.enqueue v
  have hsettled := h.settled
  have hpush := SpscRing.value_pushStep (k := kQueueBits) f.publisher.q v
  unfold Feed.enqueueStep
  cases hc : f.caller with
  | pushing =>
    rw [settled_pushing hc] at hsettled
    dsimp only
    cases hout : (f.publisher.q.pushStep kQueueBits v).1 with
    | running =>
      rw [hout] at hpush
      have hquiet := h.quiet hp rfl hpush.1
      rw [hc] at hquiet
      exact hquiet
    | refused =>
      rw [hout] at hpush
      refine { h.quiet hp rfl hpush.1 with settled := ?_ }
      have haccepted : (f.publisher.step (.enqueue v)).accepted = f.publisher.accepted := hpush.1
      have hcount := settle_comm f.counters f.sender (.counting false)
      rw [hsettled] at hcount
      rw [haccepted, UInt64.ofNat_add]
      exact hcount
    | done w =>
      rw [hout] at hpush
      refine { h with publisher := hp, settled := ?_ }
      have haccepted : (f.publisher.step (.enqueue v)).accepted.length =
          f.publisher.accepted.length + 1 := by
        unfold Publisher.accepted
        rw [show (f.publisher.step (.enqueue v)).q.pushed = _ from hpush.1]
        exact List.length_append
      have hcount := settle_comm f.counters f.sender (.counting true)
      rw [hsettled] at hcount
      rw [haccepted, UInt64.ofNat_add]
      exact hcount
  | counting ok =>
    refine { h with settled := ?_ }
    rw [← hsettled]
    unfold Feed.settled
    rw [hc]
    rfl

/-- The datagram handed to `sendto`. -/
theorem Valid.packed_sending (h : f.Valid) {b : Batch} (ht : f.publisher.thread = .sending b)
    (now : UInt64) :
    Packed ⟨(b.header f.publisher.pktSeq now).pack ++ b.payload, b.events⟩ := by
  have hholds := h.publisher.holds
  unfold Publisher.Holds at hholds
  simp only [ht] at hholds
  obtain ⟨hb, -, -⟩ := hholds
  refine ⟨b.header f.publisher.pktSeq now, rfl, rfl, hb.count, ?_, ?_⟩
  · dsimp only
    rw [hb.payload]
  · dsimp only
    rw [List.length_append, PktHdr.length_pack]
    exact hb.fits

/-- `sendto` puts the datagram on the wire, and is counted next. -/
theorem Valid.sent_ok (h : f.Valid) {p : Publisher} {d : Datagram} {count : UInt8} (hp : p.Valid)
    (hrun : f.sender = .running) (hsent : p.sent = f.publisher.sent ++ [d])
    (haccepted : p.accepted = f.publisher.accepted) (hd : Packed d)
    (hcount : count.toNat = d.events.length) :
    ({ f with publisher := p, sender := .counting count, wire := f.wire ++ [d] } : Feed).Valid := by
  have hsettled := h.settled
  have hbefore : f.settled = f.caller.settle f.counters := by
    unfold Feed.settled
    rw [hrun]
    rfl
  rw [hbefore] at hsettled
  refine { h with
    publisher := hp, inOrder := ?_, split := ?_, packed := ?_, settled := ?_, sent := ?_ }
  · rw [hsent]
    exact h.inOrder.append (List.Sublist.refl _)
  · have hmove : (f.wire ++ [d] ++ f.failed).Perm (f.wire ++ f.failed ++ [d]) := by
      rw [List.append_assoc, List.append_assoc]
      exact List.perm_append_comm.append_left _
    rw [hsent]
    exact hmove.trans (h.split.append_right _)
  · intro d' hd'
    rcases List.mem_append.mp hd' with hd' | hd'
    · exact h.packed d' hd'
    · rw [List.mem_singleton.mp hd']
      exact hd
  · unfold Feed.settled
    dsimp only
    rw [hsettled, haccepted, List.flatMap_append, List.length_append, List.length_append,
      UInt64.ofNat_add, UInt64.ofNat_add, List.flatMap_singleton, ← hcount]
    rfl
  · exact fun d' hd' => List.mem_append_left _ (h.sent d' hd')

/-- `sendto` fails, which is counted next. -/
theorem Valid.sent_failed (h : f.Valid) {p : Publisher} {d : Datagram} (hp : p.Valid)
    (hrun : f.sender = .running) (hsent : p.sent = f.publisher.sent ++ [d])
    (haccepted : p.accepted = f.publisher.accepted) :
    ({ f with publisher := p, sender := .failing, failed := f.failed ++ [d] } : Feed).Valid := by
  have hsettled := h.settled
  have hbefore : f.settled = f.caller.settle f.counters := by
    unfold Feed.settled
    rw [hrun]
    rfl
  rw [hbefore] at hsettled
  refine { h with publisher := hp, inOrder := ?_, split := ?_, settled := ?_ }
  · rw [hsent]
    exact h.inOrder.trans (List.sublist_append_left _ _)
  · rw [hsent, ← List.append_assoc]
    exact h.split.append_right _
  · unfold Feed.settled
    dsimp only
    rw [hsettled, haccepted, List.length_append, UInt64.ofNat_add]
    rfl

theorem Valid.threadStep (h : f.Valid) (now : UInt64) (ok : Bool) :
    (f.threadStep now ok).Valid := by
  have hp := h.publisher.threadStep now
  have hsettled := h.settled
  have haccepted := (threadStep_frame f.publisher now).1
  have hsent := sent_threadStep f.publisher now
  unfold Feed.threadStep
  cases hs : f.sender with
  | running =>
    dsimp only
    have hquiet (hne : ∀ b, f.publisher.thread ≠ .sending b) :
        ({ f with publisher := f.publisher.threadStep now, sender := .running } : Feed).Valid := by
      have hquiet := h.quiet hp (hsent hne) haccepted
      rw [hs] at hquiet
      exact hquiet
    cases ht : f.publisher.thread with
    | polling | packing b | exited => exact hquiet fun _ => by rw [ht]; exact fun hc => nomatch hc
    | sending b =>
      have hpacked := h.packed_sending ht now
      have hnew : (f.publisher.threadStep now).sent = f.publisher.sent ++
          [⟨(b.header f.publisher.pktSeq now).pack ++ b.payload, b.events⟩] := by
        unfold Publisher.threadStep
        rw [ht]
      have hholds := h.publisher.holds
      unfold Publisher.Holds at hholds
      simp only [ht] at hholds
      cases ok with
      | true => exact h.sent_ok hp hs hnew haccepted hpacked hholds.1.count
      | false => exact h.sent_failed hp hs hnew haccepted
  | failing | counting count | adding count =>
    refine { h with settled := ?_ }
    rw [← hsettled]
    unfold Feed.settled
    rw [hs]
    cases f.caller with
    | pushing => rfl
    | counting ok => cases ok <;> rfl

/-- A poll of a packed datagram. -/
theorem Valid.deliver (h : f.Valid) (i : Nat) : (f.deliver i).Valid := by
  unfold Feed.deliver
  cases hd : f.wire[i]? with
  | none =>
    have hpoll : (f.receiver.pollOnce .again).2 = f.receiver := by
      unfold Receiver.pollOnce
      rw [h.ready]
      rfl
    dsimp only
    rw [hpoll]
    exact { h with }
  | some d =>
    have hmem := List.mem_of_getElem? hd
    obtain ⟨hdr, hmagic, hversion, hcount, hbytes, hsize⟩ := h.packed d hmem
    have hpoll := Receiver.pollOnce_packed h.ready hdr d.events hmagic hversion hcount
      (hbytes ▸ hsize)
    rw [← hbytes] at hpoll
    dsimp only
    rw [hpoll]
    refine { h with
      sent := ?_, decoded := ?_, packets := ?_, messages := ?_, last := ?_ }
    · intro d' hd'
      rcases List.mem_append.mp hd' with hd' | hd'
      · exact h.sent d' hd'
      · rw [List.mem_singleton.mp hd']
        exact hmem
    · dsimp only
      rw [h.decoded]
      simp
    · dsimp only
      rw [h.packets, List.length_append, UInt64.ofNat_add]
      rfl
    · dsimp only
      rw [h.messages, List.length_append, UInt64.ofNat_add, List.length_map]
    · dsimp only
      rw [h.last]
      simp [List.getLastD_eq_getLast?, List.getLast?_append]

theorem Valid.stop (h : f.Valid) : ({ f with publisher := f.publisher.stopStep } : Feed).Valid := by
  have hp := h.publisher.stopStep
  have hq : f.publisher.stopStep.q = f.publisher.q ∧
      f.publisher.stopStep.sent = f.publisher.sent := by
    unfold Publisher.stopStep
    split
    · exact ⟨rfl, rfl⟩
    · split <;> exact ⟨rfl, rfl⟩
    · exact ⟨rfl, rfl⟩
  exact h.quiet hp hq.2 (congrArg SpscRing.pushed hq.1)

theorem Valid.step (h : f.Valid) (a : Action) : (f.step a).Valid := by
  cases a with
  | enqueue v => exact h.enqueueStep v
  | thread now ok => exact h.threadStep now ok
  | stop => exact h.stop
  | deliver i => exact h.deliver i
  | fail =>
    have hpoll : f.receiver.pollOnce .failed = (0, f.receiver.countBad) := by
      unfold Receiver.pollOnce
      rw [h.ready]
      rfl
    unfold Feed.step
    dsimp only
    rw [hpoll]
    refine { h with bad := ?_ }
    unfold Receiver.countBad
    dsimp only
    rw [h.bad, UInt64.ofNat_add]
    rfl

theorem Reachable.valid (h : Reachable f) : f.Valid :=
  Run.Reach.invariant (I := Valid) h valid_start fun _ a hs _ => hs.step a

/-- In every interleaving the counters, once what is pending has been counted, are the numbers
of what has happened, and no accepted event is unaccounted for. -/
theorem reachable_balanced (h : Reachable f) : f.Balanced := by
  have hv := h.valid
  have hsettled := hv.settled
  have hlen := hv.split.length_eq
  have hheld : (f.wire.flatMap Datagram.events ++ f.failed.flatMap Datagram.events ++
      f.publisher.inHand ++ f.publisher.backlog).Perm f.publisher.accepted := by
    rw [← List.flatMap_append, ← hv.publisher.accepted_eq]
    exact ((hv.split.flatMap_right Datagram.events).append_right _).append_right _
  refine ⟨hsettled, ?_, ?_, hheld⟩
  · rw [hsettled, hv.publisher.seq, ← hlen, List.length_append, UInt64.ofNat_add]
  · rw [hsettled]
    dsimp only
    rw [← hheld.length_eq, ← UInt64.ofNat_add]
    congr 1
    simp only [List.length_append]
    omega

/-- In every interleaving, whatever the network loses, repeats or reorders, the receiver decodes
the messages of the datagrams that arrive, as they were enqueued. -/
theorem reachable_arrives (h : Reachable f) : f.Arrives := by
  have hv := h.valid
  have haccepted := hv.publisher.accepted_eq
  refine ⟨hv.sent, hv.decoded, hv.bad, hv.packets, hv.messages, hv.last, ?_, ?_⟩
  · intro harrived
    rw [hv.decoded, ← haccepted, List.append_assoc]
    have hsub := (harrived.trans hv.inOrder).flatMap Datagram.events
    exact (hsub.trans (List.sublist_append_left _ _)).map _
  · intro harrived hfailed hhand hbacklog
    have hsplit := hv.split.length_eq
    rw [hfailed, List.append_nil] at hsplit
    have hwire := hv.inOrder.eq_of_length hsplit
    rw [hv.decoded, harrived, hwire, ← haccepted, hhand, hbacklog, List.append_nil,
      List.append_nil]
    rfl

/-- Two cancels leave in two datagrams. The first `sendto` fails, the second datagram arrives
twice. -/
def bumpy : Feed :=
  (List.replicate 5 (Action.enqueue (cancelEvent 7 5)) ++
    List.replicate 9 (Action.thread 3 false) ++
    List.replicate 5 (Action.enqueue (cancelEvent 8 6)) ++
    List.replicate 11 (Action.thread 4 true) ++
    [Action.deliver 0, Action.fail, Action.deliver 1, Action.deliver 0]).foldl step start

theorem reachable_balanced_bumpy : bumpy.Balanced :=
  reachable_balanced (Run.Reach.foldl Run.Reach.init (by decide))

theorem reachable_arrives_bumpy : bumpy.Arrives :=
  reachable_arrives (Run.Reach.foldl Run.Reach.init (by decide))

end Feed

end Lob.Md
