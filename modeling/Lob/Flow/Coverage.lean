import Lob.Flow.Runs

/-!
# The cap on resting orders

On a book to which nobody else adds, every order is one of the simulator's, and
the list of live ids covers it. The list is no longer than the cap, so neither
are the queues of the book.
-/

namespace Lob

/-- The call adds no order to the book. -/
def Op.AddsNothing : Op → Prop
  | .add .. | .modify .. => False
  | .cancel _ | .market .. | .fill .. | .configure .. => True

namespace OrderBook

variable {b : OrderBook} {op : Op} {id : Nat}

theorem fills_next {b' : OrderBook} {ts : List FillStep} (h : Fills b ts b') :
    b'.nextOrderId = b.nextOrderId := by
  induction h with
  | nil b => rfl
  | cons u ts b hu _ ih => exact ih.trans (next_of_sound hu)

/-- A call that adds no order takes no id. -/
theorem nextOrderId_apply (h : b.WellFormed) (hop : op.AddsNothing)
    (hid : ∀ id ∈ op.target, b.stopSlot id = none) :
    (b.apply op).nextOrderId = b.nextOrderId := by
  have hr := h.apply_target op hid
  have hqueues : (b.apply op).nextOrderId = (b.queues.apply b.pool.allocate.isSome op).nextId :=
    congrArg Queue.Book.nextId hr.queues
  cases op with
  | add | modify => contradiction
  | cancel id => exact hqueues.trans Queue.Book.nextId_cancel
  | configure id display => exact hqueues.trans Queue.Book.nextId_configure
  | fill id qty =>
    refine hqueues.trans ?_
    simp only [Queue.Book.apply, Queue.Book.applyFill]
    split
    · rfl
    · exact Queue.Book.nextId_put
  | market side qty => exact fills_next (market_fills h side qty).1

/-- An order that is there after a call that adds none was there before. -/
theorem findId_apply (h : b.WellFormed) (hop : op.AddsNothing)
    (hid : ∀ id ∈ op.target, b.stopSlot id = none) (hthere : (b.apply op).findId id ≠ none) :
    b.findId id ≠ none := by
  have hr := h.apply_target op hid
  obtain ⟨o, ho⟩ := Option.ne_none_iff_exists'.mp hthere
  have hlt := hr.wf.id_lt ho
  rw [nextOrderId_apply h hop hid] at hlt
  rcases hr.ages.ids id hlt with hn | he
  · exact absurd hn hthere
  · rwa [← he]

end OrderBook

namespace OrderFlowSimulator

variable {b : OrderBook} {s s' : OrderFlowSimulator} {d : Draws} {ok : Bool} {op : Op}

/-- Every order in the book is the simulator's, and its list keeps to the cap. -/
structure Alone (s : OrderFlowSimulator) : Prop where
  mapped : ∀ id, ¬ s.Stale id → id ∈ s.placed
  capped : s.live.length ≤ s.cfg.cap.toNat

namespace Alone

/-- Orders may leave the book, and ids the list. -/
theorem shrink (h : s.Alone) (hcfg : s'.cfg = s.cfg) (hplaced : s'.placed = s.placed)
    (hbook : ∀ id, ¬ s'.Stale id → ¬ s.Stale id) (hlive : s'.live.length ≤ s.live.length) :
    s'.Alone where
  mapped id hthere := by
    rw [hplaced]
    exact h.mapped id (hbook id hthere)
  capped := by
    rw [hcfg]
    exact Nat.le_trans hlive h.capped

theorem apply (h : s.Alone) (hw : s.book.WellFormed) (op : Op) (hop : op.AddsNothing)
    (hid : ∀ id ∈ op.target, s.book.stopSlot id = none) : (s.outside op).Alone :=
  h.shrink rfl rfl (fun _ hthere => OrderBook.findId_apply hw hop hid hthere) (Nat.le_refl _)

theorem addLimit (h : s.Alone) (hw : s.book.WellFormed)
    (hroom : s.live.length < s.cfg.cap.toNat) : (s.addLimit d).2.Alone := by
  obtain ⟨_, he⟩ | ⟨_, hnext, he⟩ := addLimit_cases hw d
  · rw [he]
    exact h.shrink rfl rfl (fun _ => id) (Nat.le_refl _)
  · have hr := hw.apply_target (s.limitCall d) nofun
    rw [he]
    refine ⟨fun id hthere => ?_, ?_⟩
    · obtain ⟨o, ho⟩ := Option.ne_none_iff_exists'.mp hthere
      have hlt : id < s.book.nextOrderId + 1 := Nat.lt_of_lt_of_eq (hr.wf.id_lt ho) hnext
      rcases Nat.lt_or_ge id s.book.nextOrderId with hold | hnew
      · rcases hr.ages.ids id hold with hn | he
        · exact absurd hn hthere
        · refine List.mem_append_left _ (h.mapped id fun hstale => hthere ?_)
          exact he.trans hstale
      · refine List.mem_append_right _ (List.mem_singleton.mpr ?_)
        omega
    · change (s.live ++ [s.book.nextOrderId]).length ≤ s.cfg.cap.toNat
      rw [List.length_append, List.length_singleton]
      exact hroom

theorem finish (h : s.Alone) (ok : Bool) : (OrderFlowSimulator.finish (ok, s)).2.Alone := by
  rcases finish_cases ok s with he | he
  · rw [he]
    exact h.shrink rfl rfl (fun _ => id) (Nat.le_refl _)
  · rw [he]
    exact h.shrink rfl rfl (fun _ => id) (List.length_filter_le _ _)

/-- A step that returns keeps the book to the simulator's orders and the list to the cap. -/
theorem completes (h : s.Alone) (hs : s.Sound b) (hc : s.Completes d ok s') : s'.Alone := by
  obtain ⟨s₁, hevent, rfl⟩ := hc.event hs.wf
  refine finish ?_ ok
  cases hevent with
  | market =>
    exact (h.apply hs.wf (.market d.side (1 + d.size % 4)) trivial nofun).shrink rfl rfl
      (fun _ => id) (Nat.le_refl _)
  | add hadds => exact h.addLimit hs.wf hadds.1
  | miss _ live _ _ hperm =>
    have hlen := hperm.length_eq
    rw [List.length_append] at hlen
    exact h.shrink rfl rfl (fun _ => id) (by dsimp only; omega)
  | cancel _ stale id live _ _ _ hperm =>
    have hlen := hperm.length_eq
    rw [List.length_append, List.length_cons] at hlen
    refine h.shrink rfl rfl (fun j hj hstale => hj ?_) (by dsimp only; omega)
    unfold Stale
    rw [OrderBook.findId_cancelOrder]
    split
    · rfl
    · exact hstale

/-- A list without repetitions that covers the book is as long as its queues at least. -/
theorem length_restingSlots_le (h : s.Alone) (hs : s.Sound b) :
    s.book.restingSlots.length ≤ s.live.length := by
  have hmapped {p : Ptr} (hp : p ∈ s.book.restingSlots) :
      s.book.findId (s.book.mem p).orderId = some p := by
    obtain ⟨side, px, hon⟩ := OrderBook.mem_restingSlots.mp hp
    exact hs.wf.mapped side px p hon
  have hnodup : s.book.restingIds.Nodup := by
    refine List.Nodup.map_on (fun p hp q hq hpq => ?_) hs.wf.nodup_restingSlots
    have hfind := hmapped hp
    rw [hpq, hmapped hq] at hfind
    exact (Option.some.inj hfind).symm
  have hsub : s.book.restingIds ⊆ s.live := by
    intro id hid
    obtain ⟨p, hp, rfl⟩ := List.mem_map.mp hid
    have hthere : ¬ s.Stale (s.book.mem p).orderId := by
      unfold Stale
      rw [hmapped hp]
      nofun
    exact hs.covered _ (h.mapped _ hthere) hthere
  have hle := (hnodup.subperm hsub).length_le
  rwa [OrderBook.restingIds, List.length_map] at hle

end Alone

/-- Every run on a book without other orders, to which others add none. -/
theorem Runs.alone {acts : List Action} (h : Runs s acts s') (hs : s.Sound b) (halone : s.Alone)
    (hacts : Spares b acts) (hadd : ∀ op, .outside op ∈ acts → op.AddsNothing) : s'.Alone := by
  induction h with
  | nil => exact halone
  | step hstep _ ih =>
    exact ih (hs.completes hstep) (halone.completes hs hstep)
      (fun op hop => hacts op (List.mem_cons_of_mem _ hop))
      fun op hop => hadd op (List.mem_cons_of_mem _ hop)
  | outside _ ih =>
    have hop := hacts _ List.mem_cons_self
    exact ih (hs.outside hop)
      (halone.apply hs.wf _ (hadd _ List.mem_cons_self) fun id hid => by
        rw [hs.stops]
        exact hop id hid)
      (fun op hop => hacts op (List.mem_cons_of_mem _ hop))
      fun op hop => hadd op (List.mem_cons_of_mem _ hop)

/-- What the list of live ids promises after a run. -/
structure Covers (s : OrderFlowSimulator) (cap : Nat) : Prop where
  /-- An order of the simulator that still rests is in the list once. -/
  once : ∀ id ∈ s.placed, s.book.findId id ≠ none → s.live.count id = 1
  nodup : s.live.Nodup
  short : s.live.length ≤ cap
  /-- The orders in the queues of the book. -/
  resting : s.book.restingSlots.length ≤ cap

/-- On a book that had no order and to which others add none, the list covers the simulator's
orders after every run, and neither it nor the book exceeds the cap. -/
theorem runs_covers (cfg : SimConfig) (hcap : 2 * cfg.targetDepthPerSide.toNat + 64 < 2 ^ 64)
    (hw : b.WellFormed) (hempty : ∀ id, b.findId id = none) {acts : List Action}
    (hadd : ∀ op, .outside op ∈ acts → op.AddsNothing) (h : Runs (new cfg b) acts s) :
    s.Covers (2 * cfg.targetDepthPerSide.toNat + 64) := by
  have hnone (id : Nat) : b.stopSlot id = none := by
    rw [OrderBook.stopSlot, hempty id]
    rfl
  have hacts : Spares b acts := fun _ _ id _ => hnone id
  have hs := h.sound (sound_new cfg hw) hacts
  have halone := h.alone (sound_new cfg hw) ⟨fun id hid => absurd (hempty id) hid, Nat.zero_le _⟩
    hacts hadd
  have hcapped : s.cfg.cap.toNat = 2 * cfg.targetDepthPerSide.toNat + 64 := by
    have hmul : (cfg.targetDepthPerSide * 2).toNat = cfg.targetDepthPerSide.toNat * 2 :=
      Word.toNat_mul (by change cfg.targetDepthPerSide.toNat * 2 < _; omega)
    have hadd : (cfg.targetDepthPerSide * 2 + 64).toNat =
        cfg.targetDepthPerSide.toNat * 2 + 64 := by
      rw [Word.toNat_add (by rw [hmul]; change _ + 64 < _; omega), hmul]
      rfl
    rw [h.cfg_eq (sound_new cfg hw) hacts]
    change (cfg.targetDepthPerSide * 2 + 64).toNat = _
    omega
  have hshort := halone.capped
  rw [hcapped] at hshort
  exact ⟨fun id hid hthere => List.count_eq_one_of_mem hs.nodup (hs.covered id hid hthere),
    hs.nodup, hshort, Nat.le_trans (halone.length_restingSlots_le hs) hshort⟩

theorem runs_covers_filled : filledBehind.Covers 264 :=
  runs_covers {} (by decide) (OrderBook.wellFormed_new 4 .pool) (OrderBook.findId_new 4 .pool)
    (fun op hop => by simp at hop) runs_filledBehind

end OrderFlowSimulator

end Lob
