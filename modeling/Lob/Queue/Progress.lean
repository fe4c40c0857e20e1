import Lob.Core.Word
import Lob.Queue.Ordered

/-!
# The loop of `market_order` ends

Every iteration fills some quantity, takes an entry out, or shows a slice of an
entry that showed nothing. The work left bounds the number of iterations.
-/

namespace Lob.Queue

/-- Iterations an entry can take without filling anything. -/
def Entry.work (e : Entry) : Nat := if e.remaining = 0 then 2 else 1

/-- The work of a level is that of its queue. -/
def Level.work (L : Level) : Nat := (L.queue.map Entry.work).sum

/-- The work left for the loop. -/
def Sweep.work (s : Side) (w : Sweep) : Nat :=
  w.toFill.toNat + ((w.book.ladder s).map fun n => n.2.work + 1).sum

/-- At most two iterations take an entry off. -/
theorem Entry.work_le (e : Entry) : e.work ≤ 2 := by
  rw [work]
  split <;> omega

/-- Every entry takes an iteration. -/
theorem Entry.work_pos (e : Entry) : 0 < e.work := by
  rw [work]
  split <;> omega

/-- An entry that shows something takes one. -/
theorem Entry.work_of_ne {e : Entry} (h : e.remaining ≠ 0) : e.work = 1 := if_neg h

/-- The number of iterations the source loop is given covers the work. -/
theorem work_le_sweepBound (B : Book) (s : Side) (qty : Qty) (fills : List Fill) :
    (⟨B, qty, fills⟩ : Sweep).work s ≤ B.sweepBound s qty := by
  have hlevel (L : Level) : L.work ≤ 2 * L.queue.length := by
    rw [Level.work]
    induction L.queue with
    | nil => simp
    | cons e es ih =>
      have he := e.work_le
      simp only [List.map_cons, List.sum_cons, List.length_cons]
      omega
  have hsum (v : List (Int × Level)) : (v.map fun n => n.2.work + 1).sum ≤
      (v.map fun n => 2 * n.2.queue.length + 1).sum := by
    induction v with
    | nil => simp
    | cons n v ih =>
      have hn := hlevel n.2
      simp only [List.map_cons, List.sum_cons]
      omega
  exact Nat.add_le_add_left (hsum _) _

variable {s : Side} {w : Sweep} {L : Level} {e : Entry} {es : List Entry} {agg : Qty}

/-- The next slice of a refillable entry is not empty. -/
theorem Entry.refill_remaining_ne {e : Entry} (h : e.Refillable) : e.refill.remaining ≠ 0 := by
  have hd := Word.toNat_pos.mpr h.1
  have hh := Word.toNat_pos.mpr h.2
  apply Word.toNat_pos.mp
  rw [show e.refill.remaining = min e.display e.hidden from rfl, Word.toNat_min]
  omega

/-- A fill of the first entry trades quantity for work. -/
theorem Level.fill_work (hd : L.Distinct) (hq : L.queue = e :: es) {q : Qty} (hpos : q ≠ 0)
    (agg : Qty) :
    (q - min q e.remaining).toNat + (L.fill e (min q e.remaining) agg).work <
      q.toNat + L.work := by
  have hq0 := Word.toNat_pos.mpr hpos
  have hsub := Word.toNat_sub (Word.min_le_left q e.remaining)
  have hmin := Word.toNat_min q e.remaining
  have hwork : L.work = e.work + (es.map Entry.work).sum := by
    rw [work, hq, List.map_cons, List.sum_cons]
  have hle := e.work_le
  have hpe := e.work_pos
  have hq' : L.queue = [] ++ e :: es := hq
  rw [hd.fill_eq hq', hsub, hwork]
  by_cases hz : e.remaining - min q e.remaining = 0
  · rw [if_pos hz]
    by_cases hr : e.Refillable
    · have hslice : ((e.take (min q e.remaining)).refill).work = 1 :=
        Entry.work_of_ne (Entry.refill_remaining_ne (e := e.take _) hr)
      rw [if_pos hr]
      simp only [work, List.nil_append, List.map_append, List.sum_append, List.map_cons,
        List.map_nil, List.sum_cons, List.sum_nil, hslice]
      by_cases he : e.remaining = 0
      · have h2 : e.work = 2 := if_pos he
        omega
      · have h1 := Word.toNat_pos.mpr he
        omega
    · rw [if_neg hr]
      simp only [work, List.nil_append]
      omega
  · rw [if_neg hz]
    have hne : e.remaining ≠ min q e.remaining := fun he => hz (Word.sub_eq_zero.mpr he)
    have hlt : min q.toNat e.remaining.toNat ≠ e.remaining.toNat := by
      rw [← hmin]
      exact fun he => hne (UInt64.toNat_inj.mp he.symm)
    have hw : (e.take (min q e.remaining)).work = 1 := Entry.work_of_ne hz
    simp only [work, List.nil_append, List.map_cons, List.sum_cons, hw]
    omega

/-- An iteration of the running loop leaves less work. -/
theorem sweepStep_work (h : w.book.Ordered) (ha : w.active s = true) :
    (sweepStep s w).work s < w.work s := by
  rw [Sweep.active, Bool.and_eq_true, decide_eq_true_eq] at ha
  have hpos : w.toFill ≠ 0 := by
    have := ha.1
    grind
  cases hv : w.book.ladder s with
  | nil => simp [hv] at ha
  | cons n rest =>
    obtain ⟨px, L⟩ := n
    have hn : (px, L) ∈ w.book.ladder s := by rw [hv]; exact List.mem_cons_self
    cases hq : L.queue with
    | nil => exact absurd hq (h.nonempty s _ hn)
    | cons e es =>
      have hd : L.Distinct := h.level s _ hn
      have hfill := Level.fill_work hd hq hpos
        (decreased L.agg (min w.toFill e.remaining))
      rw [sweepStep_cons hv hq]
      simp only [Sweep.work, Book.put, Book.ladder_setLadder_self, hv]
      split
      · next hnil =>
        simp only [List.eraseIdx_zero, List.tail_cons, List.map_cons, List.sum_cons]
        omega
      · simp only [List.set_cons_zero, List.map_cons, List.sum_cons]
        omega

end Lob.Queue
