import Lob.Queue.Volume
import Lob.Representation.Fills

/-!
# What fills take from orders

A fill moves the quantity it reports from the book to what has been executed
against the order. Along the steps of a matching call an order stays balanced.
-/

namespace Lob

namespace FillStep

variable {t : FillStep} {s : Side} {px : Int} {id size ex : Nat} {gone : Prop}

/-- The reported quantity is what the order at the reported price loses, and no other order is
touched. -/
structure Exact (t : FillStep) : Prop where
  deducts : ∃ s e, t.before.queues.Rests s t.price e ∧ e.id = t.id ∧
    ((∃ e', t.after.queues.Rests s t.price e' ∧ e'.id = t.id ∧
        e'.total + t.filled.toNat = e.total) ∨
      (∀ u k e', t.after.queues.Rests u k e' → e'.id ≠ t.id) ∧ t.filled.toNat = e.total)
  others : ∀ u k e, e.id ≠ t.id →
    (t.after.queues.Rests u k e ↔ t.before.queues.Rests u k e)

/-- A sound step is exact, or fills nothing and leaves the queues. -/
theorem Sound.exact (h : t.Sound) (hd : t.before.queues.All Queue.Entry.Displayed) :
    t.Exact ∨ t.filled = 0 ∧ t.after.queues = t.before.queues := by
  rcases h.effect with ⟨S, agg, hS, hpx, hfilled, _, hafter⟩ | ⟨_, hz, _, hafter⟩
  · left
    have hle : t.filled ≤ S.entry.remaining := by
      rw [hfilled]
      exact Word.min_le_right _ _
    have hrests := h.wf.ordered.rests_fill hS t.filled agg
    rw [← hafter] at hrests
    refine ⟨⟨S.side, S.entry, hpx ▸ hS.rests, hS.id, ?_⟩, ?_⟩
    · cases hf : S.entry.filled t.filled with
      | none =>
        refine Or.inr ⟨fun u k x hx => ?_, Queue.Entry.filled_none hf hle (hd.at hS).1⟩
        rcases (hrests u k x).mp hx with ⟨_, hne⟩ | ⟨_, _, hc⟩
        · exact hne
        · rw [hf] at hc
          contradiction
      | some x =>
        refine Or.inl ⟨x, (hrests _ _ _).mpr (Or.inr ⟨rfl, hpx.symm, hf⟩),
          (Queue.Entry.filled_id hf).trans hS.id, Queue.Entry.filled_total hf hle⟩
    · intro u k x hne
      rw [hrests]
      constructor
      · rintro (⟨hx, _⟩ | ⟨_, _, hf⟩)
        · exact hx
        · exact absurd ((Queue.Entry.filled_id hf).trans hS.id) hne
      · exact fun hx => Or.inl ⟨hx, hne⟩
  · exact Or.inr ⟨hz, hafter⟩

/-- Neither a fill nor the next slice hides anything. -/
theorem displayed_fills : Queue.Book.Fills Queue.Entry.Displayed where
  take _ _ h _ := h
  refill _ _ _ hr := fun hd => absurd hd hr.1

/-- After a sound step only entries with a display size hide anything. -/
theorem Sound.displayed (h : t.Sound) (hd : t.before.queues.All Queue.Entry.Displayed) :
    t.after.queues.All Queue.Entry.Displayed := by
  rcases h.effect with ⟨S, agg, hS, _, hfilled, _, hafter⟩ | ⟨_, _, _, hafter⟩
  · rw [hafter]
    refine hd.fill displayed_fills (List.mem_of_getElem? hS.level) hS.mem ?_
    rw [hfilled]
    exact Word.min_le_right _ _
  · rw [hafter]
    exact hd

/-- A step moves what it reports from the book to what has been executed. -/
theorem Sound.balanced (h : t.Sound) (hd : t.before.queues.All Queue.Entry.Displayed)
    (hb : t.before.queues.Balanced s px id size ex gone) :
    t.after.queues.Balanced s px id size (ex + if t.id = id then t.filled.toNat else 0) gone := by
  rcases h.effect with ⟨S, agg, hS, _, hfilled, _, hafter⟩ | ⟨_, hz, _, hafter⟩
  · rw [hafter]
    refine hb.fill h.wf.ordered hd hS ?_
    rw [hfilled]
    exact Word.min_le_right _ _
  · rw [hafter, hz]
    simpa using hb

end FillStep

namespace Fills

variable {b b' : OrderBook} {ts : List FillStep} {s : Side} {px : Int} {id size ex : Nat}
  {gone : Prop}

/-- What the steps fill of an order. -/
def sum (ts : List FillStep) (id : Nat) : Nat :=
  (ts.map fun t => if t.id = id then t.filled.toNat else 0).sum

/-- A list of fills takes from each order what it executes of it. -/
theorem balanced (h : Fills b ts b') (hd : b.queues.All Queue.Entry.Displayed)
    (hb : b.queues.Balanced s px id size ex gone) :
    b'.queues.All Queue.Entry.Displayed ∧
      b'.queues.Balanced s px id size (ex + sum ts id) gone := by
  induction h generalizing ex with
  | nil b => exact ⟨hd, hb⟩
  | cons t ts b ht _ ih =>
    have hnext := ih (ht.displayed hd) (ht.balanced hd hb)
    rw [Nat.add_assoc] at hnext
    exact hnext

/-- After a list of fills only entries with a display size hide anything. -/
theorem displayed (h : Fills b ts b') (hd : b.queues.All Queue.Entry.Displayed) :
    b'.queues.All Queue.Entry.Displayed := by
  induction h with
  | nil b => exact hd
  | cons t ts b ht _ ih => exact ih (ht.displayed hd)

/-- The reports of the steps say what they fill. -/
theorem sum_eq (ts : List FillStep) (id : Nat) : sum ts id =
    Queue.filledQty ((ts.map FillStep.report).filter fun f => f.restingOrderId = id) := by
  induction ts with
  | nil => rfl
  | cons t ts ih =>
    have hsum : sum (t :: ts) id =
        (if t.id = id then t.filled.toNat else 0) + sum ts id := rfl
    have hreport : t.report.restingOrderId = t.id := rfl
    rw [hsum, ih, List.map_cons, List.filter_cons, hreport]
    by_cases hid : t.id = id
    · rw [if_pos hid, if_pos (decide_eq_true hid)]
      rfl
    · rw [if_neg hid, if_neg (by simpa using hid), Nat.zero_add]

/-- Each fill of the list is exact, or nothing was filled and no queue changed. -/
theorem exact (h : Fills b ts b') (hd : b.queues.All Queue.Entry.Displayed) :
    ∀ t ∈ ts, t.Exact ∨ t.filled = 0 ∧ t.after.queues = t.before.queues := by
  induction h with
  | nil b => simp
  | cons t ts b ht _ ih =>
    exact List.forall_mem_cons.mpr ⟨ht.exact hd, ih (ht.displayed hd)⟩

end Fills

end Lob
