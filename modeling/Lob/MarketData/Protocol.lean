import Lob.Core.Bytes
import Lob.Model.Order

/-!
# The wire format

The messages of `itch_protocol.hpp`, packed and big-endian. Unpacking a packed
message gives back the fields that its type carries.
-/

namespace Lob.Md

open Bytes

def kMagic : UInt32 := 0x49544348

def kVersion : UInt8 := 1

def kUdpPayload : Nat := 1400

inductive MsgType where
  | add
  | cancel
  | execute
  | snapshot
  deriving DecidableEq, Repr

/-- The enumerator's value. -/
def MsgType.toByte : MsgType → UInt8
  | .add => 1
  | .cancel => 2
  | .execute => 3
  | .snapshot => 4

/-- `sizeof` of the body. -/
def MsgType.bodySize : MsgType → Nat
  | .add => 33
  | .cancel => 16
  | .execute => 32
  | .snapshot => 41

/-- The bytes of a message of the type. -/
def MsgType.size (t : MsgType) : Nat := 1 + t.bodySize

/-- `kMaxMsgBytes`, a snapshot with its type byte. -/
def kMaxMsgBytes : Nat := 1 + MsgType.snapshot.bodySize

/-- The enumerator's value. -/
def sideByte : Side → UInt8
  | .buy => 0
  | .sell => 1

/-- `struct Event`. -/
structure Event where
  type : MsgType := .add
  side : Side := .buy
  orderId : UInt64 := 0
  price : Int64 := 0
  qty : Qty := 0
  bid : Int64 := 0
  bidQty : Qty := 0
  ask : Int64 := 0
  askQty : Qty := 0
  snapFlags : UInt8 := 0
  eventNs : UInt64 := 0
  deriving DecidableEq, Repr, Inhabited

/-- `struct Decoded`. The two enumerations are cast from a byte and keep it. -/
structure Decoded where
  type : UInt8 := 1
  side : UInt8 := 0
  orderId : UInt64 := 0
  price : Int64 := 0
  qty : Qty := 0
  bid : Int64 := 0
  bidQty : Qty := 0
  ask : Int64 := 0
  askQty : Qty := 0
  snapFlags : UInt8 := 0
  eventNs : UInt64 := 0
  deriving DecidableEq, Repr

/-- `pack_msg`: the bytes it writes. Their number is what it returns. -/
def packMsg (e : Event) : List UInt8 :=
  e.type.toByte :: match e.type with
    | .add => put64 e.orderId ++ (sideByte e.side :: (putI64 e.price ++ (put64 e.qty ++
        put64 e.eventNs)))
    | .cancel => put64 e.orderId ++ put64 e.eventNs
    | .execute => put64 e.orderId ++ (putI64 e.price ++ (put64 e.qty ++ put64 e.eventNs))
    | .snapshot => e.snapFlags :: (putI64 e.bid ++ (put64 e.bidQty ++ (putI64 e.ask ++
        (put64 e.askQty ++ put64 e.eventNs))))

/-- `unpack_msg`: the number of bytes it consumes, `0` on error, and what `out` holds. -/
def unpackMsg : List UInt8 → Nat × Decoded
  | [] => (0, {})
  | t :: body =>
    let out : Decoded := { type := t }
    if t = MsgType.add.toByte then
      if body.length < MsgType.add.bodySize then (0, out)
      else
        let (orderId, body) := get64 body
        let (side, body) := get8 body
        let (price, body) := getI64 body
        let (qty, body) := get64 body
        let (eventNs, _) := get64 body
        (MsgType.add.size, { out with orderId, side, price, qty, eventNs })
    else if t = MsgType.cancel.toByte then
      if body.length < MsgType.cancel.bodySize then (0, out)
      else
        let (orderId, body) := get64 body
        let (eventNs, _) := get64 body
        (MsgType.cancel.size, { out with orderId, eventNs })
    else if t = MsgType.execute.toByte then
      if body.length < MsgType.execute.bodySize then (0, out)
      else
        let (orderId, body) := get64 body
        let (price, body) := getI64 body
        let (qty, body) := get64 body
        let (eventNs, _) := get64 body
        (MsgType.execute.size, { out with orderId, price, qty, eventNs })
    else if t = MsgType.snapshot.toByte then
      if body.length < MsgType.snapshot.bodySize then (0, out)
      else
        let (snapFlags, body) := get8 body
        let (bid, body) := getI64 body
        let (bidQty, body) := get64 body
        let (ask, body) := getI64 body
        let (askQty, body) := get64 body
        let (eventNs, _) := get64 body
        (MsgType.snapshot.size, { out with snapFlags, bid, bidQty, ask, askQty, eventNs })
    else (0, out)

/-- `struct PktHdr`. -/
structure PktHdr where
  magic : UInt32
  version : UInt8
  count : UInt8
  nbytes : UInt16
  pktSeq : UInt64
  sendNs : UInt64
  deriving DecidableEq, Repr

/-- `sizeof(PktHdr)`. -/
def PktHdr.size : Nat := 24

namespace PktHdr

/-- The bytes of the header. -/
def pack (h : PktHdr) : List UInt8 :=
  put32 h.magic ++ (h.version :: h.count :: (put16 h.nbytes ++ (put64 h.pktSeq ++
    put64 h.sendNs)))

/-- The header at the start of a datagram. -/
def unpack (buf : List UInt8) : PktHdr :=
  let (magic, buf) := get32 buf
  let (version, buf) := get8 buf
  let (count, buf) := get8 buf
  let (nbytes, buf) := get16 buf
  let (pktSeq, buf) := get64 buf
  let (sendNs, _) := get64 buf
  { magic, version, count, nbytes, pktSeq, sendNs }

theorem length_pack (h : PktHdr) : h.pack.length = size := by
  simp only [pack, List.length_append, List.length_cons, length_put16, length_put32, length_put64]
  rfl

theorem unpack_pack (h : PktHdr) (rest : List UInt8) : unpack (h.pack ++ rest) = h := by
  simp only [unpack, pack, List.append_assoc, List.cons_append, get8_cons, get16_put16,
    get32_put32, get64_put64]

/-- The bytes of the header that is read from them. -/
theorem pack_unpack {bytes : List UInt8} (h : bytes.length = size) :
    (unpack bytes).pack = bytes := by
  have h : bytes.length = 24 := h
  simp only [pack, unpack]
  rw [put64_get64_last (get64 (get16 (get8 (get8 (get32 bytes).2).2).2).2).2 (by simp [h]),
    put64_get64 (by simp [h]), put16_get16 (by simp [h]), cons_get8 (by simp [h]),
    cons_get8 (by simp [h]), put32_get32 (by simp [h])]

/-- The header is read from the first bytes. -/
theorem unpack_take {bytes : List UInt8} (h : size ≤ bytes.length) :
    unpack (bytes.take size) = unpack bytes := by
  have hunpack := unpack_pack (unpack (bytes.take size)) (bytes.drop size)
  rw [pack_unpack (List.length_take_of_le h), List.take_append_drop] at hunpack
  exact hunpack.symm

/-- A datagram is its header and what follows it. -/
theorem pack_unpack_append {bytes : List UInt8} (h : size ≤ bytes.length) :
    (unpack bytes).pack ++ bytes.drop size = bytes := by
  rw [← unpack_take h, pack_unpack (List.length_take_of_le h), List.take_append_drop]

end PktHdr

/-- The fields that the event's type carries, the others as a fresh `Decoded` has them. -/
def Event.decoded (e : Event) : Decoded :=
  match e.type with
  | .add => { type := MsgType.add.toByte, side := sideByte e.side, orderId := e.orderId
              price := e.price, qty := e.qty, eventNs := e.eventNs }
  | .cancel => { type := MsgType.cancel.toByte, orderId := e.orderId, eventNs := e.eventNs }
  | .execute => { type := MsgType.execute.toByte, orderId := e.orderId, price := e.price
                  qty := e.qty, eventNs := e.eventNs }
  | .snapshot => { type := MsgType.snapshot.toByte, snapFlags := e.snapFlags, bid := e.bid
                   bidQty := e.bidQty, ask := e.ask, askQty := e.askQty, eventNs := e.eventNs }

theorem length_packMsg (e : Event) : (packMsg e).length = e.type.size := by
  unfold packMsg
  cases e.type with
  | add => simp [MsgType.size, MsgType.bodySize]
  | cancel => simp [MsgType.size, MsgType.bodySize]
  | execute => simp [MsgType.size, MsgType.bodySize]
  | snapshot => simp [MsgType.size, MsgType.bodySize]

theorem MsgType.size_pos (t : MsgType) : 0 < t.size := by
  unfold size
  omega

/-- No message is longer than a snapshot. -/
theorem MsgType.size_le (t : MsgType) : t.size ≤ kMaxMsgBytes := by
  cases t with
  | add => decide
  | cancel => decide
  | execute => decide
  | snapshot => decide

/-- Unpacking takes the packed message and leaves what follows. -/
theorem unpackMsg_packMsg (e : Event) (rest : List UInt8) :
    unpackMsg (packMsg e ++ rest) = (e.type.size, e.decoded) := by
  unfold packMsg Event.decoded
  cases e.type with
  | add =>
    simp [unpackMsg, MsgType.toByte, MsgType.bodySize]
    intro hshort
    omega
  | cancel =>
    simp [unpackMsg, MsgType.toByte, MsgType.bodySize]
    intro hshort
    omega
  | execute =>
    simp [unpackMsg, MsgType.toByte, MsgType.bodySize]
    intro hshort
    omega
  | snapshot =>
    simp [unpackMsg, MsgType.toByte, MsgType.bodySize]
    intro hshort
    omega

end Lob.Md
