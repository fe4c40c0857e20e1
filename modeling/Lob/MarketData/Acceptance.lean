import Lob.MarketData.Polling

/-!
# The datagrams the receiver accepts

A datagram is not counted as bad iff a good header is followed by the messages
it announces. The header's byte count, what follows the last message and the
side of an added order are not looked at.
-/

namespace Lob.Md

/-- The bytes are one message of a known type. -/
def IsMessage (m : List UInt8) : Prop := ∃ t : MsgType, m.head? = some t.toByte ∧ m.length = t.size

/-- The datagram is a header, the messages it announces and what follows them. -/
structure Framed (bytes : List UInt8) (hdr : PktHdr) (msgs : List (List UInt8))
    (rest : List UInt8) : Prop where
  bytes : bytes = hdr.pack ++ (msgs.flatten ++ rest)
  magic : hdr.magic = kMagic
  version : hdr.version = kVersion
  count : msgs.length = hdr.count.toNat
  messages : ∀ m ∈ msgs, IsMessage m

/-- A good header is followed by the messages it announces. -/
def Acceptable (bytes : List UInt8) : Prop := ∃ hdr msgs rest, Framed bytes hdr msgs rest

/-- The side byte of a message that adds an order is one of the two. -/
def SideKnown (m : List UInt8) : Prop :=
  m.head? = some MsgType.add.toByte → m[9]? = some 0 ∨ m[9]? = some 1

/-- The datagram is acceptable, with nothing behind its messages, the length it declares and known
sides. -/
def WellFormed (bytes : List UInt8) : Prop :=
  ∃ hdr msgs, Framed bytes hdr msgs [] ∧ hdr.nbytes.toNat = bytes.length - PktHdr.size ∧
    ∀ m ∈ msgs, SideKnown m

/-- A message is consumed, whatever follows it. -/
theorem IsMessage.unpackMsg {m : List UInt8} (h : IsMessage m) (rest : List UInt8) :
    (unpackMsg (m ++ rest)).1 = m.length := by
  obtain ⟨t, hhead, hlen⟩ := h
  cases m with
  | nil => contradiction
  | cons b body =>
    obtain rfl := Option.some.inj hhead
    rw [hlen, List.cons_append, unpackMsg_body]
    rw [MsgType.size, List.length_cons] at hlen
    rw [List.length_append]
    omega

/-- What is consumed is a message. -/
theorem isMessage_of_unpackMsg {bs : List UInt8} (h : (unpackMsg bs).1 ≠ 0) :
    (unpackMsg bs).1 ≤ bs.length ∧ IsMessage (bs.take (unpackMsg bs).1) := by
  cases bs with
  | nil => exact absurd rfl h
  | cons type body =>
    cases ht : MsgType.ofByte type with
    | none =>
      rw [unpackMsg_unknown ht] at h
      exact absurd rfl h
    | some t =>
      obtain rfl := MsgType.ofByte_eq_some.mp ht
      rcases Nat.lt_or_ge body.length t.bodySize with hshort | hlong
      · rw [unpackMsg_short hshort] at h
        exact absurd rfl h
      · have hle : t.size ≤ (t.toByte :: body).length := by
          rw [MsgType.size, List.length_cons]
          omega
        rw [unpackMsg_body hlong]
        refine ⟨hle, t, ?_, List.length_take_of_le hle⟩
        rw [MsgType.size, Nat.add_comm, List.take_succ_cons]
        rfl

/-- The loop ends without a bad message iff all messages stand one after the other. -/
theorem decodeLoop_good_iff {buf : List UInt8} {count off : Nat} :
    (decodeLoop buf count off).2 = false ↔
      ∃ (msgs : List (List UInt8)) (rest : List UInt8),
        buf.drop off = msgs.flatten ++ rest ∧ msgs.length = count ∧
        ∀ m ∈ msgs, IsMessage m := by
  induction count generalizing off with
  | zero =>
    constructor
    · intro _
      exact ⟨[], buf.drop off, rfl, rfl, fun m hm => absurd hm List.not_mem_nil⟩
    · intro _
      rfl
  | succ count ih =>
    have hstep : (decodeLoop buf (count + 1) off).2 = false ↔ (unpackMsg (buf.drop off)).1 ≠ 0 ∧
        (decodeLoop buf count (off + (unpackMsg (buf.drop off)).1)).2 = false := by
      rw [decodeLoop]
      by_cases hused : (unpackMsg (buf.drop off)).1 = 0
      · simp [hused]
      · simp [hused]
    rw [hstep]
    constructor
    · rintro ⟨hused, hloop⟩
      obtain ⟨_, hmsg⟩ := isMessage_of_unpackMsg hused
      obtain ⟨msgs, rest, hdrop, hlen, hall⟩ := ih.mp hloop
      refine ⟨(buf.drop off).take (unpackMsg (buf.drop off)).1 :: msgs, rest, ?_, ?_, ?_⟩
      · rw [List.flatten_cons, List.append_assoc, ← hdrop, ← List.drop_drop, List.take_append_drop]
      · rw [List.length_cons, hlen]
      · intro m hm
        rcases List.mem_cons.mp hm with rfl | hm
        · exact hmsg
        · exact hall m hm
    · rintro ⟨msgs, rest, hdrop, hlen, hall⟩
      cases msgs with
      | nil => contradiction
      | cons m msgs =>
        have hm := hall m List.mem_cons_self
        rw [List.flatten_cons, List.append_assoc] at hdrop
        have hused := hm.unpackMsg (msgs.flatten ++ rest)
        rw [← hdrop] at hused
        refine ⟨?_, ih.mpr ⟨msgs, rest, ?_, Nat.succ.inj hlen, fun m' hm' =>
          hall m' (List.mem_cons_of_mem m hm')⟩⟩
        · obtain ⟨t, _, hsize⟩ := hm
          have hpos := t.size_pos
          omega
        · rw [hused, ← List.drop_drop, hdrop, List.drop_left]

theorem Framed.hdr_eq {bytes : List UInt8} {hdr : PktHdr} {msgs : List (List UInt8)}
    {rest : List UInt8} (h : Framed bytes hdr msgs rest) : PktHdr.unpack bytes = hdr := by
  rw [h.bytes, PktHdr.unpack_pack]

theorem Framed.drop_eq {bytes : List UInt8} {hdr : PktHdr} {msgs : List (List UInt8)}
    {rest : List UInt8} (h : Framed bytes hdr msgs rest) :
    bytes.drop PktHdr.size = msgs.flatten ++ rest := by
  rw [h.bytes, ← hdr.length_pack, List.drop_left]

/-- A datagram is acceptable iff its header is good and the loop finds no bad message. -/
theorem acceptable_iff {bytes : List UInt8} :
    Acceptable bytes ↔ GoodHeader bytes ∧
      (decodeLoop bytes (PktHdr.unpack bytes).count.toNat PktHdr.size).2 = false := by
  constructor
  · rintro ⟨hdr, msgs, rest, h⟩
    have hhdr := h.hdr_eq
    have hlen := congrArg List.length h.bytes
    rw [List.length_append, hdr.length_pack] at hlen
    refine ⟨⟨by omega, by rw [hhdr, h.magic], by rw [hhdr, h.version]⟩, ?_⟩
    exact decodeLoop_good_iff.mpr ⟨msgs, rest, h.drop_eq, by rw [hhdr, h.count], h.messages⟩
  · rintro ⟨hgood, hloop⟩
    obtain ⟨msgs, rest, hdrop, hlen, hall⟩ := decodeLoop_good_iff.mp hloop
    refine ⟨PktHdr.unpack bytes, msgs, rest, ?_, hgood.magic, hgood.version, hlen, hall⟩
    rw [← hdrop, PktHdr.pack_unpack_append hgood.size]

/-- A datagram leaves the count of bad ones alone iff it is acceptable, and adds one to it iff it
is not. -/
theorem Receiver.bad_pollOnce_iff {r : Receiver} (hr : r.ready = true) {bytes : List UInt8}
    (hn : bytes.length ≤ kUdpPayload) :
    ((r.pollOnce (.datagram bytes)).2.bad = r.bad ↔ Acceptable bytes) ∧
      ((r.pollOnce (.datagram bytes)).2.bad = r.bad + 1 ↔ ¬ Acceptable bytes) := by
  have hne : r.bad + 1 ≠ r.bad := by
    intro he
    grind
  rw [acceptable_iff]
  by_cases hgood : GoodHeader bytes
  · rcases hloop : decodeLoop bytes (PktHdr.unpack bytes).count.toNat PktHdr.size with ⟨ds, bad⟩
    rw [pollOnce_of_goodHeader hr hn hgood hloop]
    cases bad with
    | false => simp [hgood, hne.symm]
    | true => simp [hne]
  · rw [pollOnce_of_not_goodHeader hr hn hgood]
    simp [hgood, countBad, hne]

/-- A header that declares five bytes where there are none. -/
def misdeclared : List UInt8 := PktHdr.pack ⟨kMagic, kVersion, 0, 5, 0, 0⟩

/-- A byte behind the last message. -/
def trailing : List UInt8 := PktHdr.pack ⟨kMagic, kVersion, 0, 1, 0, 0⟩ ++ [0]

/-- An added order with side byte `2`. -/
def strangeSide : List UInt8 :=
  PktHdr.pack ⟨kMagic, kVersion, 1, 34, 0, 0⟩ ++ (Decoded.pack { side := 2 }).2

theorem Receiver.bad_pollOnce_truncated :
    (({} : Receiver).pollOnce (.datagram truncated)).2.bad = 1 ↔ ¬ Acceptable truncated :=
  (bad_pollOnce_iff rfl (by decide)).2

/-- A new receiver does not count the datagram as bad, though it is not well formed. -/
def Receiver.Overlooks (bytes : List UInt8) : Prop :=
  bytes.length ≤ kUdpPayload ∧ (({} : Receiver).pollOnce (.datagram bytes)).2.bad = 0 ∧
    ¬ WellFormed bytes

/-- The receiver accepts a wrong length, bytes behind the last message and an unknown side. -/
theorem Receiver.accepts_malformed :
    Overlooks misdeclared ∧ Overlooks trailing ∧ Overlooks strangeSide := by
  refine ⟨?_, ?_, ?_⟩
  · refine ⟨by decide, by decide +kernel, ?_⟩
    rintro ⟨hdr, msgs, hf, hbytes, _⟩
    rw [← hf.hdr_eq] at hbytes
    exact absurd hbytes (by decide +kernel)
  · refine ⟨by decide, by decide +kernel, ?_⟩
    rintro ⟨hdr, msgs, hf, _, _⟩
    have hcount : msgs.length = 0 := by
      rw [hf.count, ← hf.hdr_eq]
      decide +kernel
    have hdrop := hf.drop_eq
    rw [List.eq_nil_of_length_eq_zero hcount] at hdrop
    exact absurd hdrop (by decide +kernel)
  · refine ⟨by decide, by decide +kernel, ?_⟩
    rintro ⟨hdr, msgs, hf, _, hside⟩
    have hcount : msgs.length = 1 := by
      rw [hf.count, ← hf.hdr_eq]
      decide +kernel
    obtain ⟨m, rfl⟩ := List.length_eq_one_iff.mp hcount
    have hdrop := hf.drop_eq
    rw [List.flatten_singleton, List.append_nil] at hdrop
    have hm := hside m List.mem_cons_self
    rw [← hdrop] at hm
    exact absurd (hm (by decide +kernel)) (by decide +kernel)

end Lob.Md
