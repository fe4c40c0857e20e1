import Lob.Flow.Steps

/-!
# Runs of the simulator

Steps alternate with calls of others on the book. The list of live ids covers
what the simulator has added: an id leaves it only after its order has left the
book, and ids do not come back.
-/

namespace Lob.OrderFlowSimulator

open OrderBook (Refines)

/-- A step with these draws, or a call of someone else on the book. -/
inductive Action where
  | step (d : Draws)
  | outside (op : Op)

/-- The simulator after a call of someone else. -/
def outside (s : OrderFlowSimulator) (op : Op) : OrderFlowSimulator :=
  { s with book := s.book.apply op }

/-- All of the actions can be taken, one after the other, and lead from the one simulator to the
other. -/
inductive Runs : OrderFlowSimulator → List Action → OrderFlowSimulator → Prop
  | nil (s : OrderFlowSimulator) : Runs s [] s
  | step {s s₁ s' : OrderFlowSimulator} {d : Draws} {ok : Bool} {acts : List Action}
      (hstep : s.Completes d ok s₁) (hrest : Runs s₁ acts s') : Runs s (.step d :: acts) s'
  | outside {s s' : OrderFlowSimulator} {op : Op} {acts : List Action}
      (hrest : Runs (s.outside op) acts s') : Runs s (.outside op :: acts) s'

/-- What holds of every step of a run in the state it is taken in. -/
def EveryStep (P : OrderFlowSimulator → Draws → Prop) : OrderFlowSimulator → List Action → Prop
  | _, [] => True
  | s, .step d :: acts => P s d ∧ ∀ ok s', s.Completes d ok s' → EveryStep P s' acts
  | s, .outside op :: acts => EveryStep P (s.outside op) acts

/-- Others leave the pending stops of the book alone. -/
def Spares (b : OrderBook) (acts : List Action) : Prop :=
  ∀ op, .outside op ∈ acts → ∀ id ∈ op.target, b.stopSlot id = none

/-- The invariant of a run on a book with the pending stops of `b`. -/
structure Sound (b : OrderBook) (s : OrderFlowSimulator) : Prop where
  wf : s.book.WellFormed
  stops : s.book.stopSlot = b.stopSlot
  placed : ∀ id ∈ s.placed, b.stopSlot id = none ∧ id < s.book.nextOrderId
  known : ∀ id ∈ s.live, id ∈ s.placed
  covered : ∀ id ∈ s.placed, ¬ s.Stale id → id ∈ s.live
  nodup : s.live.Nodup

variable {b : OrderBook} {s s' : OrderFlowSimulator} {d : Draws} {ok : Bool} {id : Nat} {op : Op}

namespace Sound

/-- Counters and history do not matter. -/
theorem congr (h : s.Sound b) (hbook : s'.book = s.book) (hlive : s'.live = s.live)
    (hplaced : s'.placed = s.placed) : s'.Sound b := by
  obtain ⟨hwf, hstops, hpl, hknown, hcov, hnodup⟩ := h
  refine ⟨by rwa [hbook], by rwa [hbook], ?_, ?_, ?_, by rwa [hlive]⟩
  · rwa [hplaced, hbook]
  · rwa [hlive, hplaced]
  · unfold Stale
    rwa [hplaced, hlive, hbook]

/-- A call on the book that spares the stops keeps the list covering. -/
theorem refines (h : s.Sound b) {book : OrderBook} {B : Queue.Book}
    (hr : Refines s.book book B) : ({ s with book } : OrderFlowSimulator).Sound b where
  wf := hr.wf
  stops := hr.stops.trans h.stops
  placed id hid := ⟨(h.placed id hid).1, Nat.lt_of_lt_of_le (h.placed id hid).2 hr.ages.next⟩
  known := h.known
  covered id hid hthere := by
    refine h.covered id hid fun hstale => ?_
    rcases hr.ages.ids id (h.placed id hid).2 with hn | he
    · exact hthere hn
    · exact hthere (he.trans hstale)
  nodup := h.nodup

/-- Ids whose orders are gone may be dropped from the list. -/
theorem drop (h : s.Sound b) {gone live : List Nat} (hperm : (gone ++ live).Perm s.live)
    (hgone : ∀ id ∈ gone, s.Stale id) : ({ s with live } : OrderFlowSimulator).Sound b where
  wf := h.wf
  stops := h.stops
  placed := h.placed
  known id hid := h.known id (hperm.subset (List.mem_append_right gone hid))
  covered id hid hthere := by
    rcases List.mem_append.mp (hperm.symm.subset (h.covered id hid hthere)) with hg | hl
    · exact absurd (hgone id hg) hthere
    · exact hl
  nodup := (List.nodup_append.mp (hperm.nodup_iff.mpr h.nodup)).2.1

/-- Adding a limit order: its id joins the list. -/
theorem addLimit (h : s.Sound b) (d : Draws) : (s.addLimit d).2.Sound b := by
  obtain ⟨_, he⟩ | ⟨_, hnext, he⟩ := addLimit_cases h.wf d
  · rw [he]
    exact h.congr rfl rfl rfl
  have hs := h.refines (h.wf.apply_target (s.limitCall d) nofun)
  have hslot : b.stopSlot s.book.nextOrderId = none := by
    rw [← h.stops]
    refine Option.eq_none_iff_forall_ne_some.mpr fun r hr => ?_
    exact Nat.lt_irrefl _ (h.wf.id_lt (OrderBook.stopSlot_eq_some.mp hr).1)
  have hnew : s.book.nextOrderId ∉ s.live := fun hmem =>
    Nat.lt_irrefl _ (h.placed _ (h.known _ hmem)).2
  rw [he]
  refine ⟨hs.wf, hs.stops, ?_, ?_, ?_, ?_⟩
  · intro id hid
    rcases List.mem_append.mp hid with hid | hid
    · exact hs.placed id hid
    · obtain rfl := List.mem_singleton.mp hid
      exact ⟨hslot, by rw [hnext]; exact Nat.lt_succ_self _⟩
  · intro id hid
    rcases List.mem_append.mp hid with hid | hid
    · exact List.mem_append_left _ (h.known id hid)
    · exact List.mem_append_right _ hid
  · intro id hid hthere
    rcases List.mem_append.mp hid with hid | hid
    · exact List.mem_append_left _ (hs.covered id hid hthere)
    · exact List.mem_append_right _ hid
  · refine List.nodup_append.mpr ⟨h.nodup, List.nodup_singleton _, ?_⟩
    intro x hx y hy hxy
    obtain rfl := List.mem_singleton.mp hy
    exact hnew (hxy ▸ hx)

/-- A cancellation of an order of the list, with the ids that were tried before it. -/
theorem cancel (h : s.Sound b) {stale live : List Nat} (hgone : ∀ j ∈ stale, s.Stale j)
    (hperm : (stale ++ id :: live).Perm s.live) :
    ({ s with live, book := (s.book.cancelOrder id).2 } : OrderFlowSimulator).Sound b := by
  have hid : id ∈ s.live := hperm.subset (List.mem_append_right _ List.mem_cons_self)
  have hslot : s.book.stopSlot id = none := by
    rw [h.stops]
    exact (h.placed id (h.known id hid)).1
  have hs := h.refines (h.wf.cancelOrder hslot).2
  have hdrop : (stale ++ [id] ++ live).Perm s.live := by rwa [List.append_assoc]
  refine (hs.drop hdrop fun j hj => ?_).congr rfl rfl rfl
  unfold Stale
  rw [OrderBook.findId_cancelOrder]
  split
  · rfl
  · next hne =>
    rcases List.mem_append.mp hj with hj | hj
    · exact hgone j hj
    · exact absurd (List.mem_singleton.mp hj) hne

/-- The list is cleared of ids whose orders are gone. -/
theorem compactLive (h : s.Sound b) : s.compactLive.Sound b := by
  have hdrop : (s.live.filter (fun id => !(s.book.findId id).isSome) ++
      s.live.filter fun id => (s.book.findId id).isSome).Perm s.live :=
    List.perm_append_comm.trans (List.filter_append_perm _ _)
  refine (h.drop hdrop fun id hid => ?_).congr rfl rfl rfl
  have hnone := (List.mem_filter.mp hid).2
  unfold Stale
  simpa using hnone

/-- The end of a step. -/
theorem finish (h : s.Sound b) (ok : Bool) : (OrderFlowSimulator.finish (ok, s)).2.Sound b := by
  rcases finish_cases ok s with he | he
  · rw [he]
    exact h.congr rfl rfl rfl
  · rw [he]
    exact h.compactLive.congr rfl rfl rfl

/-- A step that returns keeps the invariant. -/
theorem completes (h : s.Sound b) (hc : s.Completes d ok s') : s'.Sound b := by
  obtain ⟨s₁, hevent, rfl⟩ := hc.event h.wf
  refine finish ?_ ok
  cases hevent with
  | market => exact (h.refines (h.wf.marketOrder d.side (1 + d.size % 4)).2).congr rfl rfl rfl
  | add => exact h.addLimit d
  | miss _ live _ hgone hperm => exact (h.drop hperm hgone).congr rfl rfl rfl
  | cancel _ stale id live _ _ hgone hperm => exact (h.cancel hgone hperm).congr rfl rfl rfl

/-- So does a call of someone else. -/
theorem outside (h : s.Sound b) (hop : ∀ id ∈ op.target, b.stopSlot id = none) :
    (s.outside op).Sound b :=
  h.refines (h.wf.apply_target op fun id hid => by rw [h.stops]; exact hop id hid)

end Sound

/-- The simulator as it is constructed. -/
theorem sound_new (cfg : SimConfig) (hw : b.WellFormed) : (new cfg b).Sound b where
  wf := hw
  stops := rfl
  placed _ hid := absurd hid List.not_mem_nil
  known _ hid := absurd hid List.not_mem_nil
  covered _ hid := absurd hid List.not_mem_nil
  nodup := List.nodup_nil

theorem Completes.cfg_eq (hw : s.book.WellFormed) (h : s.Completes d ok s') : s'.cfg = s.cfg := by
  obtain ⟨s₁, hevent, rfl⟩ := h.event hw
  have hcfg : s₁.cfg = s.cfg := by
    cases hevent with
    | market => rfl
    | add => rcases addLimit_cases hw d with ⟨_, he⟩ | ⟨_, _, he⟩ <;> rw [he]
    | miss => rfl
    | cancel => rfl
  rcases finish_cases ok s₁ with he | he
  · rw [he]
    exact hcfg
  · rw [he]
    exact hcfg

/-- Every run keeps the invariant. -/
theorem Runs.sound {acts : List Action} (h : Runs s acts s') (hs : s.Sound b)
    (hacts : Spares b acts) : s'.Sound b := by
  induction h with
  | nil => exact hs
  | step hstep _ ih =>
    exact ih (hs.completes hstep) fun op hop => hacts op (List.mem_cons_of_mem _ hop)
  | outside _ ih =>
    exact ih (hs.outside (hacts _ List.mem_cons_self)) fun op hop =>
      hacts op (List.mem_cons_of_mem _ hop)

theorem Runs.cfg_eq {acts : List Action} (h : Runs s acts s') (hs : s.Sound b)
    (hacts : Spares b acts) : s'.cfg = s.cfg := by
  induction h with
  | nil => rfl
  | step hstep _ ih =>
    have hrest := ih (hs.completes hstep) fun op hop => hacts op (List.mem_cons_of_mem _ hop)
    exact hrest.trans (hstep.cfg_eq hs.wf)
  | outside _ ih =>
    exact ih (hs.outside (hacts _ List.mem_cons_self)) fun op hop =>
      hacts op (List.mem_cons_of_mem _ hop)

theorem Adds.completes (h : s.Adds d) :
    s.Completes d (s.addLimit d).1 (finish (s.addLimit d)).2 := step_adds h

/-- A bid one tick below the middle, and what takes it. -/
def bidDrawn : Draws := { kind := .limit, buy := true, mag := 1, size := 0, pick := fun _ => 0 }

def saleDrawn : Draws := { kind := .market, buy := false, mag := 1, size := 0, pick := fun _ => 0 }

/-- A simulator whose only order has been filled. -/
def filledBehind : OrderFlowSimulator :=
  (finish (true, (finish ((new {} (OrderBook.new 4)).addLimit bidDrawn)).2.traded saleDrawn)).2

theorem runs_filledBehind :
    Runs (new {} (OrderBook.new 4)) [.step bidDrawn, .step saleDrawn] filledBehind := by
  have hadds : (new {} (OrderBook.new 4)).Adds bidDrawn := ⟨by decide, Or.inl rfl⟩
  have hw := ((sound_new {} (OrderBook.wellFormed_new 4 .pool)).completes hadds.completes).wf
  exact .step hadds.completes (.step (step_market hw rfl) (.nil _))

end Lob.OrderFlowSimulator
