import Lob.MarketData.Protocol

/-!
# The receiver

`Receiver::poll_once` on what `recvfrom` returns. The decoded messages are
history: the receiver itself keeps the last one.
-/

namespace Lob.Md

/-- What a non-blocking `recvfrom` returns: an error that means that nothing is there, another
error, or the bytes of a datagram. -/
inductive Received where
  | again
  | failed
  | datagram (bytes : List UInt8)
  deriving DecidableEq, Repr

/-- `class Receiver`. -/
structure Receiver where
  /-- `fd_ >= 0`. -/
  ready : Bool := true
  packets : UInt64 := 0
  messages : UInt64 := 0
  bad : UInt64 := 0
  last : Decoded := {}
  /-- Every message decoded so far. -/
  decoded : List Decoded := []
  deriving DecidableEq, Repr

/-- The loop of `poll_once` over `count` messages from `off` on, and whether a message that
cannot be unpacked ends it. -/
def decodeLoop (buf : List UInt8) : Nat → Nat → List Decoded × Bool
  | 0, _ => ([], false)
  | count + 1, off =>
    let (used, d) := unpackMsg (buf.drop off)
    if used = 0 then ([], true)
    else
      let (ds, bad) := decodeLoop buf count (off + used)
      (d :: ds, bad)

namespace Receiver

/-- `stats_.bad.fetch_add(1)`. -/
def countBad (r : Receiver) : Receiver := { r with bad := r.bad + 1 }

/-- `Receiver::poll_once`. `recvfrom` cuts a datagram at the size of `buf_`. -/
def pollOnce (r : Receiver) (received : Received) : Nat × Receiver :=
  if r.ready = false then (0, r)
  else
    match received with
    | .again => (0, r)
    | .failed => (0, r.countBad)
    | .datagram bytes =>
      let buf := bytes.take kUdpPayload
      if buf.length < PktHdr.size then (0, r.countBad)
      else
        let hdr := PktHdr.unpack buf
        if hdr.magic ≠ kMagic ∨ hdr.version ≠ kVersion then (0, r.countBad)
        else
          let (ds, bad) := decodeLoop buf hdr.count.toNat PktHdr.size
          (ds.length, { r with
            packets := r.packets + 1
            messages := r.messages + UInt64.ofNat ds.length
            bad := if bad then r.bad + 1 else r.bad
            last := ds.getLastD r.last
            decoded := r.decoded ++ ds })

end Receiver

/-- The loop decodes the messages that were packed one after the other. -/
theorem decodeLoop_packed (pre rest : List UInt8) (es : List Event) :
    decodeLoop (pre ++ (es.flatMap packMsg ++ rest)) es.length pre.length =
      (es.map Event.decoded, false) := by
  induction es generalizing pre with
  | nil => rfl
  | cons e es ih =>
    have hlen : (pre ++ packMsg e).length = pre.length + e.type.size := by
      rw [List.length_append, length_packMsg]
    have hrest := ih (pre ++ packMsg e)
    rw [hlen] at hrest
    rw [List.length_cons]
    unfold decodeLoop
    dsimp only
    rw [List.flatMap_cons, List.append_assoc, List.drop_left, unpackMsg_packMsg]
    dsimp only
    rw [if_neg (Nat.ne_of_gt e.type.size_pos), ← List.append_assoc, hrest]
    rfl

/-- The datagram has a header, of the right magic and version. -/
structure GoodHeader (bytes : List UInt8) : Prop where
  size : PktHdr.size ≤ bytes.length
  magic : (PktHdr.unpack bytes).magic = kMagic
  version : (PktHdr.unpack bytes).version = kVersion

/-- A poll of a datagram with a good header takes what the loop gives. -/
theorem Receiver.pollOnce_of_goodHeader {r : Receiver} (hr : r.ready = true) {bytes : List UInt8}
    (hn : bytes.length ≤ kUdpPayload) (h : GoodHeader bytes) {ds : List Decoded} {bad : Bool}
    (hloop : decodeLoop bytes (PktHdr.unpack bytes).count.toNat PktHdr.size = (ds, bad)) :
    r.pollOnce (.datagram bytes) = (ds.length, { r with
      packets := r.packets + 1
      messages := r.messages + UInt64.ofNat ds.length
      bad := if bad then r.bad + 1 else r.bad
      last := ds.getLastD r.last
      decoded := r.decoded ++ ds }) := by
  have hready : r.ready ≠ false := by
    rw [hr]
    decide
  have hgood : ¬ ((PktHdr.unpack bytes).magic ≠ kMagic ∨
      (PktHdr.unpack bytes).version ≠ kVersion) := by
    rw [h.magic, h.version]
    decide
  unfold pollOnce
  rw [if_neg hready]
  dsimp only
  rw [List.take_of_length_le hn, if_neg (Nat.not_lt.mpr h.size), if_neg hgood, hloop]

/-- A poll of a datagram without a good header counts it as bad and takes nothing from it. -/
theorem Receiver.pollOnce_of_not_goodHeader {r : Receiver} (hr : r.ready = true)
    {bytes : List UInt8} (hn : bytes.length ≤ kUdpPayload) (h : ¬ GoodHeader bytes) :
    r.pollOnce (.datagram bytes) = (0, r.countBad) := by
  have hready : r.ready ≠ false := by
    rw [hr]
    decide
  unfold pollOnce
  rw [if_neg hready]
  dsimp only
  rw [List.take_of_length_le hn]
  by_cases hlen : bytes.length < PktHdr.size
  · rw [if_pos hlen]
  · have hbad : (PktHdr.unpack bytes).magic ≠ kMagic ∨
        (PktHdr.unpack bytes).version ≠ kVersion := by
      by_contra hgood
      obtain ⟨hmagic, hversion⟩ := not_or.mp hgood
      exact h ⟨Nat.le_of_not_lt hlen, not_not.mp hmagic, not_not.mp hversion⟩
    rw [if_neg hlen, if_pos hbad]

/-- A datagram with a good header is decoded message by message. -/
theorem Receiver.pollOnce_packed {r : Receiver} (hr : r.ready = true) (hdr : PktHdr)
    (es : List Event) (hmagic : hdr.magic = kMagic) (hversion : hdr.version = kVersion)
    (hcount : hdr.count.toNat = es.length)
    (hsize : (hdr.pack ++ es.flatMap packMsg).length ≤ kUdpPayload) :
    r.pollOnce (.datagram (hdr.pack ++ es.flatMap packMsg)) =
      (es.length, { r with
        packets := r.packets + 1
        messages := r.messages + UInt64.ofNat es.length
        last := (es.map Event.decoded).getLastD r.last
        decoded := r.decoded ++ es.map Event.decoded }) := by
  have hpacked := decodeLoop_packed hdr.pack [] es
  rw [List.append_nil, hdr.length_pack] at hpacked
  have hloop : decodeLoop (hdr.pack ++ es.flatMap packMsg)
      (PktHdr.unpack (hdr.pack ++ es.flatMap packMsg)).count.toNat PktHdr.size =
      (es.map Event.decoded, false) := by
    rw [PktHdr.unpack_pack, hcount]
    exact hpacked
  have hgood : GoodHeader (hdr.pack ++ es.flatMap packMsg) := by
    refine ⟨?_, ?_, ?_⟩
    · rw [List.length_append, hdr.length_pack]
      omega
    · rw [PktHdr.unpack_pack, hmagic]
    · rw [PktHdr.unpack_pack, hversion]
  rw [pollOnce_of_goodHeader hr hsize hgood hloop, List.length_map]
  rfl

end Lob.Md
