import Lob.MarketData.Publisher

/-!
# Market data on its way out

In every interleaving the events that `enqueue` accepts leave in order: the
datagrams hold the first of them, the ring the others, and a receiver decodes
every datagram to the events that were packed into it.
-/

namespace Lob.Md

/-- What a datagram sent as number `seq` promises. -/
structure Datagram.Conforms (d : Datagram) (seq : Nat) : Prop where
  size : d.bytes.length ≤ kUdpPayload
  some : 1 ≤ d.events.length
  few : d.events.length ≤ 64
  pktSeq : (PktHdr.unpack d.bytes).pktSeq = UInt64.ofNat seq
  nbytes : (PktHdr.unpack d.bytes).nbytes.toNat = d.bytes.length - PktHdr.size
  count : (PktHdr.unpack d.bytes).count.toNat = d.events.length
  /-- `poll_once` returns the count, counts nothing bad and decodes every event. -/
  decodes : ∀ r : Receiver, r.ready = true →
    (r.pollOnce (.datagram d.bytes)).1 = d.events.length ∧
    (r.pollOnce (.datagram d.bytes)).2.bad = r.bad ∧
    (r.pollOnce (.datagram d.bytes)).2.decoded = r.decoded ++ d.events.map Event.decoded

namespace Publisher

/-- What the publisher promises in one state of a run. -/
structure LossFree (p : Publisher) : Prop where
  /-- Between iterations the datagrams and the ring hold the accepted events, in order. -/
  ordered : p.thread = .polling ∨ p.thread = .exited → p.delivered ++ p.backlog = p.accepted
  /-- The datagrams are numbered from `0` on. -/
  conforms : ∀ (i : Nat) (d : Datagram), p.sent[i]? = some d → d.Conforms i

/-- What the publisher thread holds where it is. -/
def Holds (p : Publisher) : Prop :=
  match p.thread with
  | .packing b => b.Valid ∧ (p.q.consumer = .idle ∨ b.HasRoom)
  | .sending b => b.Valid ∧ b.events ≠ [] ∧ p.q.consumer = .idle
  | .polling | .exited => p.q.consumer = .idle

/-- The invariant of the publisher: what was popped has been packed. -/
structure Valid (p : Publisher) : Prop where
  ring : p.q.Valid kQueueBits
  packed : p.delivered ++ p.inHand = p.q.popped
  seq : p.pktSeq = UInt64.ofNat p.sent.length
  conforms : ∀ (i : Nat) (d : Datagram), p.sent[i]? = some d → d.Conforms i
  holds : p.Holds

variable {p : Publisher} {b : Batch}

theorem kQueueBits_lt : kQueueBits < 64 := by decide

theorem valid_start : start.Valid where
  ring := SpscRing.valid_new
  packed := rfl
  seq := rfl
  conforms i d hd := by simp [start] at hd
  holds := rfl

/-- The datagram of a valid batch conforms. -/
theorem conforms_of_batch (h : b.Valid) (hne : b.events ≠ []) (i : Nat) (now : UInt64) :
    (⟨(b.header (UInt64.ofNat i) now).pack ++ b.payload, b.events⟩ : Datagram).Conforms i := by
  have hoff : b.off ≤ kUdpPayload := h.fits
  have hlen : ((b.header (UInt64.ofNat i) now).pack ++ b.payload).length = b.off := by
    rw [List.length_append, PktHdr.length_pack]
    rfl
  have hsize : ((b.header (UInt64.ofNat i) now).pack ++ b.events.flatMap packMsg).length ≤
      kUdpPayload := by
    rw [← h.payload, hlen]
    exact hoff
  have hunpack := PktHdr.unpack_pack (b.header (UInt64.ofNat i) now) b.payload
  constructor
  · exact hlen.trans_le hoff
  · exact List.length_pos_iff.mpr hne
  · exact h.few
  · exact congrArg PktHdr.pktSeq hunpack
  · dsimp only
    rw [hunpack, hlen]
    have hlt : b.off - PktHdr.size < 2 ^ 16 := by
      unfold kUdpPayload at hoff
      omega
    exact UInt16.toNat_ofNat_of_lt' hlt
  · dsimp only
    rw [hunpack]
    exact h.count
  · intro r hr
    have hpoll := Receiver.pollOnce_packed hr (b.header (UInt64.ofNat i) now) b.events rfl rfl
      h.count hsize
    rw [← h.payload] at hpoll
    dsimp only
    rw [hpoll]
    exact ⟨rfl, rfl, rfl⟩

theorem Valid.enqueue (h : p.Valid) (v : Event) : (p.step (.enqueue v)).Valid where
  ring := h.ring.push kQueueBits_lt v
  packed := by
    have hpacked := h.packed
    unfold step
    rw [(SpscRing.pushStep_consumer p.q v).2]
    exact hpacked
  seq := h.seq
  conforms := h.conforms
  holds := by
    have hholds := h.holds
    unfold Holds at hholds ⊢
    unfold step
    dsimp only
    rw [(SpscRing.pushStep_consumer p.q v).1]
    exact hholds

theorem Valid.stopStep (h : p.Valid) : p.stopStep.Valid := by
  unfold Publisher.stopStep
  split
  · exact { h with }
  · split
    · exact { h with }
    · exact h
  · exact h

/-- The packing loop ends with an empty batch, which is dropped, or one that is sent. -/
theorem Valid.endBatch {q : SpscRing Event} (h : p.Valid) (ht : p.thread = .packing b)
    (hring : q.Valid kQueueBits) (hpopped : q.popped = p.q.popped) (hidle : q.consumer = .idle) :
    (({ p with q } : Publisher).endBatch b).Valid := by
  have hholds := h.holds
  have hpacked := h.packed
  unfold Holds at hholds
  unfold inHand at hpacked
  simp only [ht] at hholds hpacked
  unfold Publisher.endBatch
  by_cases hz : b.count = 0
  · have hnil := hholds.1.count_eq_zero.mp hz
    rw [if_pos hz]
    refine { h with ring := hring, packed := ?_, holds := hidle }
    unfold inHand
    dsimp only
    rw [hpopped, ← hpacked, hnil]
    rfl
  · have hne : b.events ≠ [] := fun hnil => hz (hholds.1.count_eq_zero.mpr hnil)
    rw [if_neg hz]
    refine { h with ring := hring, packed := ?_, holds := ⟨hholds.1, hne, hidle⟩ }
    unfold inHand
    dsimp only
    rw [hpopped, ← hpacked]
    rfl

/-- A refused `try_pop` has found the ring empty. -/
theorem backlog_of_refused (h : p.Valid) (hc : p.q.consumer = .checking p.q.head) :
    p.backlog = [] := by
  have hpop := h.ring.popping
  unfold SpscRing.Popping at hpop
  simp only [hc] at hpop
  unfold backlog SpscRing.content
  rw [hpop, UInt64.sub_self]
  rfl

/-- What a step of the publisher thread does. -/
inductive Moves (p : Publisher) (now : UInt64) : Publisher → Prop
  | poll (ht : p.thread = .polling) :
      Moves p now { p with thread := if p.run then .packing {} else .exited }
  /-- `try_pop` is under way. -/
  | popping (b : Batch) (q : SpscRing Event) (ht : p.thread = .packing b) (hroom : b.HasRoom)
      (hring : q.Valid kQueueBits) (hpop : q.popped = p.q.popped)
      (hrest : q.content kQueueBits = p.backlog) : Moves p now { p with q }
  | pack (b : Batch) (q : SpscRing Event) (v : Event) (ht : p.thread = .packing b)
      (hroom : b.HasRoom) (hring : q.Valid kQueueBits) (hpop : q.popped = p.q.popped ++ [v])
      (hrest : v :: q.content kQueueBits = p.backlog) (hidle : q.consumer = .idle) :
      Moves p now { p with q, thread := .packing (b.add v) }
  /-- The packing loop ends at an empty ring or a full batch. -/
  | last (b : Batch) (q : SpscRing Event) (ht : p.thread = .packing b)
      (hring : q.Valid kQueueBits) (hpop : q.popped = p.q.popped)
      (hrest : q.content kQueueBits = p.backlog) (hidle : q.consumer = .idle)
      (hend : p.backlog = [] ∨ ¬ b.HasRoom) : Moves p now (({ p with q } : Publisher).endBatch b)
  | send (b : Batch) (ht : p.thread = .sending b) : Moves p now
      { p with
        pktSeq := p.pktSeq + 1
        thread := .polling
        sent := p.sent ++ [⟨(b.header p.pktSeq now).pack ++ b.payload, b.events⟩] }
  | stay (ht : p.thread = .exited) : Moves p now p

/-- Every step of the publisher thread is one of these. -/
theorem Valid.moves (h : p.Valid) (now : UInt64) : Moves p now (p.threadStep now) := by
  have hholds := h.holds
  unfold Holds at hholds
  unfold Publisher.threadStep
  cases ht : p.thread with
  | polling => exact .poll ht
  | packing b =>
    simp only [ht] at hholds
    dsimp only
    split
    · next hroom =>
      have hring : (p.q.popStep kQueueBits).2.Valid kQueueBits := h.ring.pop kQueueBits_lt
      have hbefore : p.q.popped ++ p.backlog = p.q.pushed := h.ring.popped_content kQueueBits_lt
      have hafter := hring.popped_content kQueueBits_lt
      rw [p.q.popStep_producer.2, ← hbefore] at hafter
      rcases p.q.popStep_cases (k := kQueueBits) with ⟨ho, hpop⟩ | ⟨ho, hpop, hidle, hc⟩ |
        ⟨v, ho, hpop, hidle⟩
      · generalize p.q.popStep kQueueBits = r at *
        obtain ⟨out, q⟩ := r
        obtain rfl : out = .running := ho
        rw [hpop] at hafter
        rw [← ht]
        exact .popping b q ht hroom hring hpop (List.append_cancel_left hafter)
      · generalize p.q.popStep kQueueBits = r at *
        obtain ⟨out, q⟩ := r
        obtain rfl : out = .refused := ho
        rw [hpop] at hafter
        rw [← ht]
        exact .last b q ht hring hpop (List.append_cancel_left hafter) hidle
          (Or.inl (backlog_of_refused h hc))
      · generalize p.q.popStep kQueueBits = r at *
        obtain ⟨out, q⟩ := r
        obtain rfl : out = .done v := ho
        have hsize : (packMsg v).length ≠ 0 := by
          rw [length_packMsg]
          exact Nat.ne_of_gt v.type.size_pos
        rw [hpop, List.append_assoc] at hafter
        dsimp only
        rw [if_neg hsize]
        exact .pack b q v ht hroom hring hpop (List.append_cancel_left hafter) hidle
    · next hroom =>
      exact .last b p.q ht h.ring rfl rfl (hholds.2.resolve_right hroom) (Or.inr hroom)
  | sending b => exact .send b ht
  | exited => exact .stay ht

/-- Every step of the publisher thread keeps the invariant. -/
theorem Valid.threadStep (h : p.Valid) (now : UInt64) : (p.threadStep now).Valid := by
  have hholds := h.holds
  have hpacked := h.packed
  unfold Holds at hholds
  unfold inHand at hpacked
  have hmoves := h.moves now
  generalize p.threadStep now = p' at hmoves
  cases hmoves with
  | poll ht =>
    simp only [ht] at hholds hpacked
    split
    · exact { h with packed := hpacked, holds := ⟨Batch.valid_empty, Or.inl hholds⟩ }
    · exact { h with packed := hpacked, holds := hholds }
  | popping b q ht hroom hring hpop =>
    simp only [ht] at hholds hpacked
    refine { h with ring := hring, packed := ?_, holds := ?_ }
    · unfold inHand
      simp only [delivered, ht]
      rw [hpop]
      exact hpacked
    · unfold Holds
      simp only [ht]
      exact ⟨hholds.1, Or.inr hroom⟩
  | pack b q v ht hroom hring hpop hrest hidle =>
    simp only [ht] at hholds hpacked
    refine { h with
      ring := hring
      packed := ?_
      holds := ⟨hholds.1.add hroom v, Or.inl hidle⟩ }
    unfold inHand Batch.add
    dsimp only [delivered]
    rw [hpop, ← hpacked, List.append_assoc]
    rfl
  | last b q ht hring hpop hrest hidle hend => exact h.endBatch ht hring hpop hidle
  | send b ht =>
    simp only [ht] at hholds hpacked
    obtain ⟨hb, hne, hidle⟩ := hholds
    refine { ring := h.ring, packed := ?_, seq := ?_, conforms := ?_, holds := hidle }
    · unfold inHand delivered
      dsimp only
      rw [List.flatMap_append, List.append_nil, ← hpacked]
      simp [delivered]
    · dsimp only
      rw [h.seq, List.length_append, UInt64.ofNat_add]
      rfl
    · intro i d hd
      rw [h.seq] at hd
      rcases Nat.lt_trichotomy i p.sent.length with hi | hi | hi
      · rw [List.getElem?_append_left hi] at hd
        exact h.conforms i d hd
      · subst hi
        rw [List.getElem?_concat_length, Option.some.injEq] at hd
        rw [← hd]
        exact conforms_of_batch hb hne _ now
      · rw [List.getElem?_eq_none (by simp; omega)] at hd
        contradiction
  | stay => exact h

theorem Valid.step (h : p.Valid) (a : Action) : (p.step a).Valid := by
  cases a with
  | enqueue v => exact h.enqueue v
  | thread now => exact h.threadStep now
  | stop => exact h.stopStep

/-- What is delivered, in hand and in the ring is what was accepted. -/
theorem Valid.accepted_eq (h : p.Valid) :
    p.delivered ++ p.inHand ++ p.backlog = p.accepted := by
  rw [h.packed]
  exact h.ring.popped_content kQueueBits_lt

/-- Between iterations nothing is in hand. -/
theorem Valid.lossFree (h : p.Valid) : p.LossFree where
  ordered ht := by
    have heq := h.accepted_eq
    have hnil : p.inHand = [] := by
      unfold inHand
      rcases ht with ht | ht
      · rw [ht]
      · rw [ht]
    rw [hnil, List.append_nil] at heq
    exact heq
  conforms := h.conforms

/-- In every interleaving the accepted events leave in order and arrive as they were. -/
theorem reachable_lossFree (h : Reachable p) : p.LossFree :=
  (h.invariant valid_start fun _ a hs _ => hs.step a).lossFree

/-- A cancel is accepted, packed and sent. -/
def sentCancel : Publisher :=
  [.enqueue (cancelEvent 7 5), .enqueue (cancelEvent 7 5), .enqueue (cancelEvent 7 5),
    .enqueue (cancelEvent 7 5), .thread 0, .thread 0, .thread 0, .thread 0, .thread 0, .thread 0,
    .thread 0, .thread 9].foldl step start

theorem reachable_lossFree_sent : sentCancel.LossFree :=
  reachable_lossFree (Run.Reach.foldl Run.Reach.init (by simp [Run.Allowed]))

end Publisher

end Lob.Md
