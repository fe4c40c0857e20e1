import Lob.Concurrent.SpscRing
import Lob.MarketData.Receiver

/-!
# The publisher

The thread that enqueues, the publisher thread and the caller of `stop` take
steps in any order. The publisher thread takes events from the ring, packs them
into one datagram until a bound is met, and sends it. The events of a datagram
are history.
-/

namespace Lob.Md

open Ring (Outcome)

/-- `kQueue` is `1 << 16`. -/
def kQueueBits : Nat := 16

/-- The event of `try_publish_add`. -/
def addEvent (id : UInt64) (side : Side) (px : Int64) (qty : Qty) (eventNs : UInt64) : Event :=
  { type := .add, side, orderId := id, price := px, qty, eventNs }

/-- The event of `try_publish_cancel`. -/
def cancelEvent (id : UInt64) (eventNs : UInt64) : Event :=
  { type := .cancel, orderId := id, eventNs }

/-- The event of `try_publish_execute`. -/
def executeEvent (id : UInt64) (px : Int64) (qty : Qty) (eventNs : UInt64) : Event :=
  { type := .execute, orderId := id, price := px, qty, eventNs }

/-- The event of `try_publish_snapshot`, from the best prices and their quantities. -/
def snapshotEvent (bid ask : Option (Int64 × Qty)) (eventNs : UInt64) : Event :=
  let e : Event := { type := .snapshot, eventNs }
  let e := match bid with
    | some (px, qty) => { e with snapFlags := e.snapFlags ||| 1, bid := px, bidQty := qty }
    | none => e
  match ask with
  | some (px, qty) => { e with snapFlags := e.snapFlags ||| 2, ask := px, askQty := qty }
  | none => e

/-- The datagram that an iteration builds: `count` and the bytes behind the header. -/
structure Batch where
  count : UInt8 := 0
  payload : List UInt8 := []
  /-- The events packed so far. -/
  events : List Event := []
  deriving DecidableEq, Repr

namespace Batch

/-- `off`, the next byte to write. -/
def off (b : Batch) : Nat := PktHdr.size + b.payload.length

/-- The loop condition, up to the call of `try_pop`. -/
def HasRoom (b : Batch) : Prop := b.count < 64 ∧ b.off + kMaxMsgBytes ≤ kUdpPayload

instance (b : Batch) : Decidable b.HasRoom := inferInstanceAs (Decidable (_ ∧ _))

/-- Pack one more event. -/
def add (b : Batch) (e : Event) : Batch :=
  { count := b.count + 1, payload := b.payload ++ packMsg e, events := b.events ++ [e] }

/-- The header of the datagram. -/
def header (b : Batch) (pktSeq sendNs : UInt64) : PktHdr :=
  { magic := kMagic, version := kVersion, count := b.count
    nbytes := UInt16.ofNat (b.off - PktHdr.size), pktSeq, sendNs }

end Batch

/-- The bytes handed to `sendto`, with the events packed into them. -/
structure Datagram where
  bytes : List UInt8
  events : List Event
  deriving DecidableEq, Repr

/-- Where the publisher thread is in `thread_main`. -/
inductive Thread where
  /-- `run_` is about to be loaded. -/
  | polling
  /-- The loop condition is about to be evaluated, or `try_pop` is under way. -/
  | packing (b : Batch)
  /-- The datagram is about to be sent. -/
  | sending (b : Batch)
  | exited
  deriving DecidableEq, Repr

/-- Where the caller of `stop` is. -/
inductive Stopper where
  | idle
  /-- `run_` has been cleared, the thread is being joined. -/
  | joining
  | returned
  deriving DecidableEq, Repr

/-- `class Publisher`. -/
structure Publisher where
  q : SpscRing Event
  run : Bool
  pktSeq : UInt64
  thread : Thread
  stopper : Stopper
  /-- The datagrams handed to `sendto`, in order. -/
  sent : List Datagram

namespace Publisher

/-- A started publisher with a valid group address. -/
def start : Publisher :=
  { q := SpscRing.new, run := true, pktSeq := 0, thread := .polling, stopper := .idle, sent := [] }

/-- What follows the packing loop. -/
def endBatch (p : Publisher) (b : Batch) : Publisher :=
  { p with thread := if b.count = 0 then .polling else .sending b }

/-- The next step of `thread_main`. The time goes into the header; the result of `sendto` only
goes into the counters. -/
def threadStep (p : Publisher) (now : UInt64) : Publisher :=
  match p.thread with
  | .polling => { p with thread := if p.run then .packing {} else .exited }
  | .packing b =>
    if b.HasRoom then
      match p.q.popStep kQueueBits with
      | (.running, q) => { p with q }
      | (.refused, q) => { p with q }.endBatch b
      | (.done ev, q) =>
        if (packMsg ev).length = 0 then { p with q }.endBatch b
        else { p with q, thread := .packing (b.add ev) }
    else p.endBatch b
  | .sending b =>
    { p with
      pktSeq := p.pktSeq + 1
      thread := .polling
      sent := p.sent ++ [⟨(b.header p.pktSeq now).pack ++ b.payload, b.events⟩] }
  | .exited => p

/-- The next step of the caller of `stop`. -/
def stopStep (p : Publisher) : Publisher :=
  match p.stopper with
  | .idle => { p with run := false, stopper := if p.run then .joining else .returned }
  | .joining => if p.thread = .exited then { p with stopper := .returned } else p
  | .returned => p

/-- A step of one of the threads; an idle one that enqueues calls `try_push` with `v`. -/
inductive Action where
  | enqueue (v : Event)
  | thread (now : UInt64)
  | stop
  deriving DecidableEq, Repr

/-- The publisher after a step. -/
def step (p : Publisher) : Action → Publisher
  | .enqueue v => { p with q := (p.q.pushStep kQueueBits v).2 }
  | .thread now => p.threadStep now
  | .stop => p.stopStep

/-- The states of any interleaving of the threads. -/
def Reachable : Publisher → Prop := Run.Reach step (fun _ _ => True) start

/-- The events that `enqueue` has accepted, in order. -/
def accepted (p : Publisher) : List Event := p.q.pushed

/-- The events that wait in the ring. -/
def backlog (p : Publisher) : List Event := p.q.content kQueueBits

/-- The events of the datagrams handed to `sendto`. -/
def delivered (p : Publisher) : List Event := p.sent.flatMap Datagram.events

/-- The events of the datagram being built. -/
def inHand (p : Publisher) : List Event :=
  match p.thread with
  | .packing b | .sending b => b.events
  | .polling | .exited => []

end Publisher

/-- A batch holds the packed events it counts, and fits a datagram. -/
structure Batch.Valid (b : Batch) : Prop where
  payload : b.payload = b.events.flatMap packMsg
  count : b.count.toNat = b.events.length
  few : b.events.length ≤ 64
  fits : b.off ≤ kUdpPayload

theorem Batch.valid_empty : ({} : Batch).Valid where
  payload := rfl
  count := rfl
  few := by decide
  fits := by decide

/-- The count of a batch is zero when no event is packed. -/
theorem Batch.Valid.count_eq_zero {b : Batch} (h : b.Valid) : b.count = 0 ↔ b.events = [] := by
  have hcount := h.count
  constructor
  · intro hz
    rw [hz] at hcount
    exact List.eq_nil_of_length_eq_zero hcount.symm
  · intro hnil
    rw [hnil] at hcount
    exact UInt8.toNat_inj.mp hcount

/-- What one more message does to the count and to the next byte. -/
theorem Batch.count_add {b : Batch} (hroom : b.HasRoom) (e : Event) :
    b.count.toNat < 64 ∧ (b.add e).count.toNat = b.count.toNat + 1 := by
  have hlt : b.count.toNat < 64 := UInt8.lt_iff_toNat_lt.mp hroom.1
  have hone : (1 : UInt8).toNat = 1 := rfl
  refine ⟨hlt, ?_⟩
  unfold Batch.add
  rw [UInt8.toNat_add, hone]
  omega

theorem Batch.off_add (b : Batch) (e : Event) : (b.add e).off = b.off + e.type.size := by
  unfold Batch.off Batch.add
  rw [List.length_append, length_packMsg, Nat.add_assoc]

/-- There is room for any message. -/
theorem Batch.Valid.add {b : Batch} (h : b.Valid) (hroom : b.HasRoom) (e : Event) :
    (b.add e).Valid where
  payload := by
    unfold Batch.add
    rw [List.flatMap_append, ← h.payload]
    simp
  count := by
    rw [(b.count_add hroom e).2, h.count]
    simp only [Batch.add, List.length_append, List.length_singleton]
  few := by
    have hlt := (b.count_add hroom e).1
    rw [h.count] at hlt
    simp only [Batch.add, List.length_append, List.length_singleton]
    omega
  fits := by
    have hsize := e.type.size_le
    have hle := hroom.2
    rw [b.off_add]
    omega

end Lob.Md
