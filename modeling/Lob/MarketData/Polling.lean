import Lob.Core.Word
import Lob.MarketData.Codec
import Lob.MarketData.Receiver

/-!
# Polling the receive buffer

`poll_once` on the memory that `recvfrom` has filled, with offsets as machine
words. It reads no byte past those received, whatever they are, and does what
the receiver does on the received list.
-/

namespace Lob.Md

/-- A call of `unpack_msg` in the loop: where, what it is told to be left, and what it consumes. -/
structure Unpacking where
  off : UInt64
  avail : UInt64
  used : Nat
  deriving DecidableEq, Repr

/-- The variables of the loop of `poll_once` when it ends, with its calls of `unpack_msg`. -/
structure Polled where
  off : UInt64
  messages : List Decoded
  /-- A message that cannot be unpacked has ended the loop. -/
  bad : Bool
  calls : List Unpacking
  deriving DecidableEq, Repr

/-- The loop of `poll_once` over the `n` bytes received at `buf`, from `off` on. -/
def pollLoop (buf : Buffer) (n : UInt64) : Nat → UInt64 → Option Polled
  | 0, off => some { off, messages := [], bad := false, calls := [] }
  | count + 1, off => do
    let (used, d) ← unpackAt buf off.toNat (n - off).toNat {}
    let call : Unpacking := { off, avail := n - off, used }
    if used = 0 then some { off, messages := [], bad := true, calls := [call] }
    else do
      let p ← pollLoop buf n count (off + UInt64.ofNat used)
      some { p with messages := d :: p.messages, calls := call :: p.calls }

/-- `Receiver::poll_once` after `recvfrom` has put `n` bytes at `buf`. -/
def Receiver.pollBuffer (r : Receiver) (buf : Buffer) (n : UInt64) : Option (Nat × Receiver) :=
  if n < UInt64.ofNat PktHdr.size then some (0, r.countBad)
  else do
    let bytes ← buf.load 0 PktHdr.size
    let hdr := PktHdr.unpack bytes
    if hdr.magic ≠ kMagic ∨ hdr.version ≠ kVersion then some (0, r.countBad)
    else do
      let p ← pollLoop buf n hdr.count.toNat (UInt64.ofNat PktHdr.size)
      some (p.messages.length, { r with
        packets := r.packets + 1
        messages := r.messages + UInt64.ofNat p.messages.length
        bad := if p.bad then r.bad + 1 else r.bad
        last := p.messages.getLastD r.last
        decoded := r.decoded ++ p.messages })

/-- The loop has stayed inside the `n` bytes received, over `count` messages at most. -/
structure Polled.Inside (p : Polled) (n count : Nat) : Prop where
  /-- Where the loop ends. -/
  ends : PktHdr.size ≤ p.off.toNat ∧ p.off.toNat ≤ n
  /-- Where each message is looked for, and that what is left does not wrap. -/
  starts : ∀ c ∈ p.calls, PktHdr.size ≤ c.off.toNat ∧ c.off.toNat ≤ n ∧
    c.avail.toNat = n - c.off.toNat
  stops : p.calls.length ≤ count
  /-- The messages are those consumed before the first that is not. -/
  counts : p.messages.length = (p.calls.takeWhile fun c => c.used ≠ 0).length

/-- Up to the size of the buffer, the subtraction of an offset does not wrap. -/
theorem toNat_left {n : Nat} (hn : n ≤ kUdpPayload) {off : UInt64} (hoff : off.toNat ≤ n) :
    (UInt64.ofNat n - off).toNat = n - off.toNat := by
  have hlt : n < 2 ^ 64 := Nat.lt_of_le_of_lt hn (by decide)
  have hnat : (UInt64.ofNat n).toNat = n := UInt64.toNat_ofNat_of_lt' hlt
  rw [UInt64.toNat_sub_of_le _ _ (by rw [UInt64.le_iff_toNat_le, hnat]; exact hoff), hnat]

/-- The loop on memory that has the received bytes stays inside them and does what the loop on
their list does. -/
theorem pollLoop_spec {bytes : List UInt8} (hn : bytes.length ≤ kUdpPayload) {buf : Buffer}
    (hbuf : buf.Holds 0 bytes) (count : Nat) (off : UInt64) (hlo : PktHdr.size ≤ off.toNat)
    (hhi : off.toNat ≤ bytes.length) :
    ∃ p, pollLoop buf (UInt64.ofNat bytes.length) count off = some p ∧
      p.Inside bytes.length count ∧
      decodeLoop bytes count off.toNat = (p.messages, p.bad) := by
  induction count generalizing off with
  | zero =>
    exact ⟨_, rfl, ⟨⟨hlo, hhi⟩, fun c hc => absurd hc List.not_mem_nil, Nat.le_refl 0, rfl⟩, rfl⟩
  | succ count ih =>
    have hleft := toNat_left hn hhi
    have hunpack : unpackAt buf off.toNat (UInt64.ofNat bytes.length - off).toNat {} =
        some (unpackMsg (bytes.drop off.toNat)) := by
      rw [hleft, ← List.length_drop]
      exact unpackAt_eq_unpackMsg (hbuf.drop off.toNat)
    rcases hmsg : unpackMsg (bytes.drop off.toNat) with ⟨used, d⟩
    unfold pollLoop decodeLoop
    rw [hunpack, hmsg]
    simp only [Option.bind_eq_bind, Option.bind_some]
    by_cases hused : used = 0
    · rw [if_pos hused, if_pos hused]
      refine ⟨_, rfl, ⟨⟨hlo, hhi⟩, fun c hc => ?_, Nat.succ_le_succ (Nat.zero_le _), ?_⟩, rfl⟩
      · obtain rfl := List.mem_singleton.mp hc
        exact ⟨hlo, hhi, hleft⟩
      · simp [hused]
    · rw [if_neg hused, if_neg hused]
      have hfits : used ≤ bytes.length - off.toNat := by
        rw [hmsg] at hunpack
        rw [← hleft]
        exact (pack_of_unpackAt hunpack (Nat.pos_of_ne_zero hused)).2.1
      have hlt : bytes.length < 2 ^ 64 := Nat.lt_of_le_of_lt hn (by decide)
      have hofNat : (UInt64.ofNat used).toNat = used :=
        UInt64.toNat_ofNat_of_lt' (show used < 2 ^ 64 by omega)
      have hnext : (off + UInt64.ofNat used).toNat = off.toNat + used := by
        rw [Word.toNat_add (by omega), hofNat]
      obtain ⟨p, hp, hinside, hloop⟩ := ih (off + UInt64.ofNat used) (by omega) (by omega)
      rw [hnext] at hloop
      rw [hp, hloop]
      refine ⟨_, rfl, ⟨hinside.ends, fun c hc => ?_, Nat.succ_le_succ hinside.stops, ?_⟩, rfl⟩
      · rcases List.mem_cons.mp hc with rfl | hc
        · exact ⟨hlo, hhi, hleft⟩
        · exact hinside.starts c hc
      · have hcounts := hinside.counts
        rw [List.takeWhile_cons_of_pos (by simpa using hused), List.length_cons, List.length_cons,
          hcounts]

/-- `poll_once` on memory that has the received bytes does what it does on their list. -/
theorem Receiver.pollBuffer_eq {r : Receiver} (hr : r.ready = true) {bytes : List UInt8}
    (hn : bytes.length ≤ kUdpPayload) {buf : Buffer} (hbuf : buf.Holds 0 bytes) :
    r.pollBuffer buf (UInt64.ofNat bytes.length) = some (r.pollOnce (.datagram bytes)) := by
  have hready : r.ready ≠ false := by
    rw [hr]
    decide
  have hlt : bytes.length < 2 ^ 64 := Nat.lt_of_le_of_lt hn (by decide)
  have hnat : (UInt64.ofNat bytes.length).toNat = bytes.length := UInt64.toNat_ofNat_of_lt' hlt
  have hsize : (UInt64.ofNat PktHdr.size).toNat = PktHdr.size := rfl
  have hshort : UInt64.ofNat bytes.length < UInt64.ofNat PktHdr.size ↔
      bytes.length < PktHdr.size := by
    rw [UInt64.lt_iff_toNat_lt, hnat, hsize]
  unfold pollBuffer pollOnce
  rw [if_neg hready]
  dsimp only
  rw [List.take_of_length_le hn]
  by_cases hlen : bytes.length < PktHdr.size
  · rw [if_pos hlen, if_pos (hshort.mpr hlen)]
  · rw [if_neg hlen, if_neg fun h => hlen (hshort.mp h)]
    have hlong : PktHdr.size ≤ bytes.length := Nat.le_of_not_lt hlen
    have hhdr := PktHdr.unpack_take hlong
    obtain ⟨p, hp, _, hloop⟩ := pollLoop_spec hn hbuf (PktHdr.unpack bytes).count.toNat
      (UInt64.ofNat PktHdr.size) (Nat.le_refl _) (Nat.le_of_not_lt hlen)
    rw [hbuf.load hlong]
    simp only [Option.bind_eq_bind, Option.bind_some]
    rw [hhdr]
    by_cases hbad : (PktHdr.unpack bytes).magic ≠ kMagic ∨ (PktHdr.unpack bytes).version ≠ kVersion
    · rw [if_pos hbad, if_pos hbad]
    · have hloop : decodeLoop bytes (PktHdr.unpack bytes).count.toNat PktHdr.size =
          (p.messages, p.bad) := hloop
      rw [if_neg hbad, if_neg hbad, hp, hloop]
      rfl

/-- On memory of which only the received bytes are known to be there, `poll_once` returns; its loop
stays inside them, ends after the messages announced, and the messages it adds to the statistics
are those before the first that cannot be unpacked. -/
theorem poll_stays_inside {r : Receiver} (hr : r.ready = true) {bytes : List UInt8}
    (hn : bytes.length ≤ kUdpPayload) {buf : Buffer} (hbuf : buf.Holds 0 bytes) :
    r.pollBuffer buf (UInt64.ofNat bytes.length) = some (r.pollOnce (.datagram bytes)) ∧
    (GoodHeader bytes → ∃ p,
      pollLoop buf (UInt64.ofNat bytes.length) (PktHdr.unpack bytes).count.toNat
        (UInt64.ofNat PktHdr.size) = some p ∧
      p.Inside bytes.length (PktHdr.unpack bytes).count.toNat ∧
      (r.pollOnce (.datagram bytes)).2.messages =
        r.messages + UInt64.ofNat p.messages.length) ∧
    (¬ GoodHeader bytes → (r.pollOnce (.datagram bytes)).2.messages = r.messages) := by
  refine ⟨Receiver.pollBuffer_eq hr hn hbuf, fun hgood => ?_, fun hbad => ?_⟩
  · obtain ⟨p, hp, hinside, hloop⟩ := pollLoop_spec hn hbuf (PktHdr.unpack bytes).count.toNat
      (UInt64.ofNat PktHdr.size) (Nat.le_refl _) hgood.size
    exact ⟨p, hp, hinside, by rw [Receiver.pollOnce_of_goodHeader hr hn hgood hloop]⟩
  · rw [Receiver.pollOnce_of_not_goodHeader hr hn hbad]
    rfl

/-- A datagram that announces two messages and is cut off in the second. -/
def truncated : List UInt8 :=
  PktHdr.pack ⟨kMagic, kVersion, 2, 19, 0, 0⟩ ++ packMsg { type := .cancel, orderId := 7 } ++ [1, 2]

theorem poll_stays_inside_truncated :
    ({} : Receiver).pollBuffer (fun i => (truncated ++ [])[i]?) (UInt64.ofNat truncated.length) =
      some (({} : Receiver).pollOnce (.datagram truncated)) :=
  (poll_stays_inside rfl (by decide) (Buffer.holds_getElem? truncated [])).1

end Lob.Md
