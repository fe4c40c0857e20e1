import Lob.MarketData.Egress

/-!
# Stopping the publisher

`stop` clears `run_` and joins the publisher thread, which leaves at its next
load of the flag. The thread ends the iteration it is in, so the events that are
delivered are those that this iteration still takes from the ring.
-/

namespace Lob.Md

namespace Publisher

/-- The calls that enqueue are over when `stop` is called. -/
def Allowed (p : Publisher) : Action → Prop
  | .enqueue _ => p.stopper = .idle
  | .stop => p.q.producer = .idle
  | .thread _ => True

instance (p : Publisher) (a : Action) : Decidable (p.Allowed a) := by
  cases a <;> simp only [Allowed] <;> infer_instance

/-- The states of a publisher that is started, fed and stopped. -/
def Lived : Publisher → Prop := Run.Reach step Allowed start

/-- Every accepted event has been handed to `sendto`. -/
def Delivers (p : Publisher) : Prop := p.delivered = p.accepted ∧ p.backlog = []

instance (p : Publisher) : Decidable p.Delivers := inferInstanceAs (Decidable (_ ∧ _))

/-- The bytes of the messages of `es`. -/
def bytesOf (es : List Event) : Nat := (es.map fun e => e.type.size).sum

/-- The backlog goes into the datagram that the thread is building, if any: their number is at
most what the count still allows, and there is room before the last of them. -/
def Fits (p : Publisher) : Prop :=
  match p.thread with
  | .packing b =>
    p.backlog = [] ∨
      (b.count.toNat + p.backlog.length ≤ 64 ∧
        b.off + bytesOf p.backlog.dropLast + kMaxMsgBytes ≤ kUdpPayload)
  | .polling | .sending _ | .exited => p.backlog = []

instance (p : Publisher) : Decidable p.Fits := by
  unfold Fits
  cases p.thread <;> infer_instance

/-- `stop` is called in `p`, and has returned in the later state `p'`. -/
structure Stops (p p' : Publisher) : Prop where
  lived : p.Lived
  idle : p.stopper = .idle
  call : p.Allowed .stop
  later : Run.Reach step Allowed (p.step .stop) p'
  returned : p'.stopper = .returned

variable {p p' : Publisher} {b : Batch} {v : Event} {es : List Event}

theorem Lived.valid (h : p.Lived) : p.Valid :=
  Run.Reach.invariant h valid_start fun _ a hs _ => hs.step a

/-- After the packing loop the backlog waits for another iteration. -/
theorem fits_endBatch : (p.endBatch b).Fits ↔ p.backlog = [] := by
  unfold endBatch
  by_cases hz : b.count = 0
  · rw [if_pos hz]
    exact Iff.rfl
  · rw [if_neg hz]
    exact Iff.rfl

/-- The backlog fits iff its first event does and the others fit behind it. -/
theorem fits_cons (hroom : b.HasRoom) :
    (v :: es = [] ∨ (b.count.toNat + (v :: es).length ≤ 64 ∧
        b.off + bytesOf (v :: es).dropLast + kMaxMsgBytes ≤ kUdpPayload)) ↔
      (es = [] ∨ ((b.add v).count.toNat + es.length ≤ 64 ∧
        (b.add v).off + bytesOf es.dropLast + kMaxMsgBytes ≤ kUdpPayload)) := by
  obtain ⟨hlt, hcount⟩ := b.count_add hroom v
  have hoff := b.off_add v
  have hle := hroom.2
  cases es with
  | nil =>
    have hnil : bytesOf ([v] : List Event).dropLast = 0 := rfl
    simp only [List.length_singleton, hnil, true_or, iff_true]
    right
    omega
  | cons w ws =>
    have hbytes : bytesOf (v :: w :: ws).dropLast = v.type.size + bytesOf (w :: ws).dropLast := by
      unfold bytesOf
      rw [List.dropLast_cons_cons, List.map_cons, List.sum_cons]
    simp only [hbytes, hoff, hcount, List.length_cons, List.cons_ne_nil, false_or]
    omega

/-- A full batch takes nothing more of the backlog. -/
theorem fits_full (hroom : ¬ b.HasRoom) (hfit : b.count.toNat + es.length ≤ 64 ∧
    b.off + bytesOf es.dropLast + kMaxMsgBytes ≤ kUdpPayload) : es = [] := by
  obtain ⟨hcount, hbytes⟩ := hfit
  by_contra hne
  have hpos := List.length_pos_iff.mpr hne
  have h64 : (64 : UInt8).toNat = 64 := rfl
  refine hroom ⟨UInt8.lt_iff_toNat_lt.mpr ?_, ?_⟩
  · omega
  · omega

theorem fits_packing (ht : p.thread = .packing b) : p.Fits ↔
    (p.backlog = [] ∨ (b.count.toNat + p.backlog.length ≤ 64 ∧
      b.off + bytesOf p.backlog.dropLast + kMaxMsgBytes ≤ kUdpPayload)) := by
  unfold Fits
  rw [ht]

/-- Once `run_` is cleared the publisher thread does not change whether the backlog fits. -/
theorem fits_threadStep (h : p.Valid) (hrun : p.run = false) (now : UInt64) :
    (p.threadStep now).Fits ↔ p.Fits := by
  have hmoves := h.moves now
  generalize p.threadStep now = p' at hmoves
  cases hmoves with
  | poll ht =>
    simp only [hrun, Fits, ht]
    exact Iff.rfl
  | popping b q ht hroom hring hpop hrest =>
    unfold Fits
    simp only [ht, ← hrest]
    exact Iff.rfl
  | pack b q v ht hroom hring hpop hrest =>
    rw [fits_packing ht, ← hrest, fits_cons hroom]
    exact Iff.rfl
  | last b q ht hring hpop hrest hidle hend =>
    rw [fits_endBatch, fits_packing ht]
    change q.content kQueueBits = [] ↔ _
    rw [hrest]
    constructor
    · exact Or.inl
    · intro hfit
      rcases hfit with hnil | hfit
      · exact hnil
      · exact hend.elim id fun hroom => fits_full hroom hfit
  | send b ht =>
    simp only [Fits, ht]
    exact Iff.rfl
  | stay => exact Iff.rfl

/-- The publisher thread only loads the flag. -/
theorem threadStep_flags (p : Publisher) (now : UInt64) :
    (p.threadStep now).stopper = p.stopper ∧ (p.threadStep now).run = p.run := by
  unfold threadStep endBatch
  split
  · exact ⟨rfl, rfl⟩
  · split
    · split
      · exact ⟨rfl, rfl⟩
      · exact ⟨rfl, rfl⟩
      · split
        · exact ⟨rfl, rfl⟩
        · exact ⟨rfl, rfl⟩
    · exact ⟨rfl, rfl⟩
  · exact ⟨rfl, rfl⟩
  · exact ⟨rfl, rfl⟩

/-- `run_` is set until `stop` is called. -/
theorem Lived.run (h : p.Lived) : p.stopper = .idle → p.run = true := by
  refine Run.Reach.invariant (I := fun p => p.stopper = .idle → p.run = true) h (fun _ => rfl) ?_
  intro p a hp _ hidle
  cases a with
  | enqueue v => exact hp hidle
  | thread now =>
    obtain ⟨hstopper, hrun⟩ := p.threadStep_flags now
    exact hrun.trans (hp (hstopper.symm.trans hidle))
  | stop =>
    change p.stopStep.stopper = .idle at hidle
    unfold stopStep at hidle
    split at hidle
    · split at hidle
      · contradiction
      · contradiction
    · next hs =>
      split at hidle
      · contradiction
      · rw [hs] at hidle
        contradiction
    · next hs =>
      rw [hs] at hidle
      contradiction

/-- What holds in `p'` once `stop` has been called in `p`. -/
structure Draining (p p' : Publisher) : Prop where
  valid : p'.Valid
  run : p'.run = false
  called : p'.stopper ≠ .idle
  /-- `stop` returns behind the join. -/
  joined : p'.stopper = .returned → p'.thread = .exited
  fits : p'.Fits ↔ p.Fits

theorem draining_stop (h : p.Lived) (hidle : p.stopper = .idle) :
    Draining p (p.step .stop) := by
  have hrun := h.run hidle
  have hstop : p.step .stop = { p with run := false, stopper := .joining } := by
    change p.stopStep = _
    unfold stopStep
    rw [hidle, hrun]
    rfl
  rw [hstop]
  refine ⟨{ h.valid with }, rfl, ?_, ?_, Iff.rfl⟩
  · intro hs
    contradiction
  · intro hs
    contradiction

theorem Draining.step (h : Draining p p') (a : Action) (ha : p'.Allowed a) :
    Draining p (p'.step a) := by
  have hvalid := h.valid.step a
  cases a with
  | enqueue v => exact absurd ha h.called
  | thread now =>
    obtain ⟨hstopper, hrun⟩ := p'.threadStep_flags now
    have hcalled : (p'.threadStep now).stopper ≠ .idle := by
      rw [hstopper]
      exact h.called
    refine ⟨hvalid, hrun.trans h.run, hcalled, ?_, (fits_threadStep h.valid h.run now).trans h.fits⟩
    intro hs
    have hexit := h.joined (hstopper.symm.trans hs)
    change (p'.threadStep now).thread = .exited
    unfold threadStep
    rw [hexit]
    exact hexit
  | stop =>
    change Draining p p'.stopStep
    change p'.stopStep.Valid at hvalid
    unfold stopStep at hvalid ⊢
    cases hs : p'.stopper with
    | idle => exact absurd hs h.called
    | joining =>
      simp only [hs] at hvalid ⊢
      split
      · next hexit =>
        rw [if_pos hexit] at hvalid
        exact ⟨hvalid, h.run, by simp, fun _ => hexit, h.fits⟩
      · exact h
    | returned => exact h

/-- Every run in which `stop` has returned called it once. -/
theorem exists_stops (h : p'.Lived) (hret : p'.stopper = .returned) : ∃ p, Stops p p' := by
  suffices hex : ∀ p', p'.Lived → p'.stopper ≠ .idle → ∃ p : Publisher, p.Lived ∧
      p.stopper = .idle ∧ p.Allowed .stop ∧ Run.Reach Publisher.step Allowed (p.step .stop) p' by
    obtain ⟨p, hlived, hidle, hcall, hlater⟩ := hex p' h (by rw [hret]; decide)
    exact ⟨p, hlived, hidle, hcall, hlater, hret⟩
  intro p' h
  induction h with
  | init =>
    intro hne
    exact absurd rfl hne
  | next s a hs ha ih =>
    intro hne
    by_cases hidle : s.stopper = .idle
    · cases a with
      | enqueue v => exact absurd hidle hne
      | thread now => exact absurd ((s.threadStep_flags now).1.trans hidle) hne
      | stop => exact ⟨s, hs, hidle, ha, Run.Reach.init⟩
    · obtain ⟨p, hlived, hpidle, hcall, hlater⟩ := ih hidle
      exact ⟨p, hlived, hpidle, hcall, Run.Reach.next s a hlater ha⟩

/-- When `stop` has returned, every accepted event has been sent iff the backlog that `stop` found
fitted the datagram that the thread was building. -/
theorem stops_delivers_iff (h : p'.Lived) (hret : p'.stopper = .returned) :
    (∃ p, Stops p p') ∧ ∀ p, Stops p p' → (p'.Delivers ↔ p.Fits) := by
  refine ⟨exists_stops h hret, fun p hp => ?_⟩
  have hdrain : Draining p p' :=
    hp.later.invariant (draining_stop hp.lived hp.idle) fun _ a hs ha => hs.step a ha
  have hexit := hdrain.joined hret
  have hordered := hdrain.valid.lossFree.ordered (Or.inr hexit)
  rw [← hdrain.fits]
  unfold Delivers Fits
  rw [hexit]
  dsimp only
  constructor
  · exact And.right
  · intro hnil
    rw [hnil, List.append_nil] at hordered
    exact ⟨hordered, hnil⟩

/-- A cancel is accepted and waits in the ring. -/
def waiting : Publisher :=
  (List.replicate 4 (Action.enqueue (cancelEvent 1 0))).foldl step start

/-- The thread loads `run_` before `stop` clears it. -/
def packing : Publisher := waiting.step (.thread 0)

/-- The steps from the call of `stop` until it returns. -/
def shutdown : List Action := List.replicate 8 (.thread 0) ++ [.stop]

theorem lived_packing : packing.Lived :=
  Run.Reach.next _ _ (Run.Reach.foldl Run.Reach.init (by decide)) trivial

theorem stops_delivers_iff_packing : (shutdown.foldl step (packing.step .stop)).Delivers := by
  have hlater : Run.Reach step Allowed (packing.step .stop)
      (shutdown.foldl step (packing.step .stop)) := Run.Reach.foldl Run.Reach.init (by decide)
  have hlived : (shutdown.foldl step (packing.step .stop)).Lived :=
    Run.Reach.foldl (Run.Reach.next _ _ lived_packing (by decide)) (by decide)
  have hret : (shutdown.foldl step (packing.step .stop)).stopper = .returned := by decide
  exact ((stops_delivers_iff hlived hret).2 packing
    ⟨lived_packing, by decide, by decide, hlater, hret⟩).mpr (by decide)

/-- The thread loads `run_` after `stop` has cleared it. -/
def stoppedEarly : Publisher :=
  [Action.stop, Action.thread 0, Action.stop].foldl step waiting

/-- An accepted event is never sent. -/
theorem not_delivers_early : ¬ ∀ p : Publisher, p.Lived → p.stopper = .returned → p.Delivers := by
  intro h
  have hlived : stoppedEarly.Lived :=
    Run.Reach.foldl (Run.Reach.foldl Run.Reach.init (by decide)) (by decide)
  exact absurd (h stoppedEarly hlived (by decide)) (by decide)

end Publisher

end Lob.Md
