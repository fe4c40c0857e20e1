import Lob.Queue.Conservation

/-!
# Volume

What rests on a side, visible and hidden. The loop of `market_order` takes from
the volume of the side exactly what it fills.
-/

namespace Lob.Queue

/-- The visible and hidden quantity of a level. -/
def Level.volume (L : Level) : Nat := (L.queue.map Entry.total).sum

/-- The visible and hidden quantity of a side. -/
def Book.volume (B : Book) (s : Side) : Nat := ((B.ladder s).map fun n => n.2.volume).sum

/-- The visible and hidden quantity at some prices of a side. -/
def Book.held (B : Book) (P : Int → Bool) (s : Side) : Nat :=
  (((B.ladder s).filter fun n => P n.1).map fun n => n.2.volume).sum

/-- The quantity of a list of fills. -/
def filledQty (fills : List Fill) : Nat := (fills.map fun f => f.qty.toNat).sum

variable {s : Side} {w : Sweep} {B : Book} {L L' : Level} {e : Entry} {amt agg : Qty} {i : Nat}
  {px : Int}

/-- One more fill. -/
theorem filledQty_append (fills : List Fill) (f : Fill) :
    filledQty (fills ++ [f]) = filledQty fills + f.qty.toNat := by
  simp [filledQty]

/-- A fill takes from its level what it fills. -/
theorem Level.Distinct.fill_volume (hd : L.Distinct) (he : e ∈ L.queue) (ha : amt ≤ e.remaining)
    (hdis : e.Displayed) (agg : Qty) : (L.fill e amt agg).volume + amt.toNat = L.volume := by
  obtain ⟨ys, zs, hq⟩ := List.append_of_mem he
  have htake := Entry.total_take ha
  have hL : L.volume = (ys.map Entry.total).sum + (e.total + (zs.map Entry.total).sum) := by
    rw [volume, hq, List.map_append, List.sum_append, List.map_cons, List.sum_cons]
  rw [hd.fill_eq hq, hL]
  split
  · next hz =>
    split
    · have hrefill : (e.take amt).refill.total = (e.take amt).total := Entry.total_refill hz
      simp only [volume, List.map_append, List.sum_append, List.map_cons, List.sum_cons,
        List.map_nil, List.sum_nil, hrefill]
      omega
    · next hr =>
      have hnone : e.filled amt = none := by
        have hz' : (e.take amt).remaining = 0 := hz
        rw [Entry.filled, if_pos hz', if_neg hr]
      have hall := Entry.filled_none hnone ha hdis
      simp only [volume, List.map_append, List.sum_append]
      omega
  · simp only [volume, List.map_append, List.sum_append, List.map_cons, List.sum_cons]
    omega

/-- The volume at all prices is that of the side. -/
theorem Book.held_true (B : Book) (s : Side) : B.held (fun _ => true) s = B.volume s := by
  rw [held, volume, List.filter_true]

/-- Writing a level changes the volume at its price only. -/
theorem Book.held_put {P : Int → Bool} (hi : (B.ladder s)[i]? = some (px, L)) (L' : Level) :
    (B.put s i px L').held P s + (if P px then L.volume else 0) =
      B.held P s + if P px then L'.volume else 0 := by
  obtain ⟨hlt, he⟩ := List.getElem?_eq_some_iff.mp hi
  have hsplit : B.ladder s = (B.ladder s).take i ++ (px, L) :: (B.ladder s).drop (i + 1) := by
    rw [← he, List.getElem_cons_drop, List.take_append_drop]
  have hz (hq : L'.queue = []) : L'.volume = 0 := by
    rw [Level.volume, hq]
    rfl
  rw [Book.held, Book.held, Book.put, ladder_setLadder_self, List.eraseIdx_eq_take_drop_succ,
    List.set_eq_take_append_cons_drop, if_pos hlt]
  generalize (B.ladder s).take i = u at *
  generalize (B.ladder s).drop (i + 1) = v at *
  rw [hsplit]
  by_cases hP : P px = true
  · split
    · next hq =>
      simp only [List.filter_append, List.filter_cons, hP, if_true, List.map_append,
        List.map_cons, List.sum_append, List.sum_cons, hz hq]
      omega
    · simp only [List.filter_append, List.filter_cons, hP, if_true, List.map_append,
        List.map_cons, List.sum_append, List.sum_cons]
      omega
  · split
    · simp only [List.filter_append, List.filter_cons, hP]
      rfl
    · simp only [List.filter_append, List.filter_cons, hP]
      rfl

/-- A fill takes from the volume at its price. -/
theorem Book.Ordered.held_fill (h : B.Ordered) (hi : (B.ladder s)[i]? = some (px, L))
    (he : e ∈ L.queue) (ha : amt ≤ e.remaining) (hdis : e.Displayed) (agg : Qty)
    (P : Int → Bool) : (B.put s i px (L.fill e amt agg)).held P s +
      (if P px then amt.toNat else 0) = B.held P s := by
  have hlevel : L.Distinct := h.level s _ (List.mem_of_getElem? hi)
  have hfill := hlevel.fill_volume he ha hdis agg
  have hput := Book.held_put (P := P) hi (L.fill e amt agg)
  split at hput
  · rw [if_pos ‹_›]
    omega
  · rw [if_neg ‹_›]
    omega

/-- An iteration moves what it fills from the side and from what is to be filled. -/
theorem sweepStep_volume (h : w.book.Ordered) (hd : w.book.All Entry.Displayed) :
    (sweepStep s w).book.volume s + filledQty (sweepStep s w).fills =
        w.book.volume s + filledQty w.fills ∧
      (sweepStep s w).toFill.toNat + filledQty (sweepStep s w).fills =
        w.toFill.toNat + filledQty w.fills := by
  cases hv : w.book.ladder s with
  | nil =>
    simp [sweepStep, hv]
  | cons n rest =>
    obtain ⟨px, L⟩ := n
    have hn : (px, L) ∈ w.book.ladder s := by rw [hv]; exact List.mem_cons_self
    obtain ⟨e, es, hq⟩ := List.exists_cons_of_ne_nil (h.nonempty s _ hn)
    have he : e ∈ L.queue := by rw [hq]; exact List.mem_cons_self
    have hi : (w.book.ladder s)[0]? = some (px, L) := by rw [hv]; rfl
    have hle := Word.min_le_left w.toFill e.remaining
    have hsub := Word.toNat_sub hle
    have hnat := UInt64.le_iff_toNat_le.mp hle
    have hheld := h.held_fill hi he (Word.min_le_right w.toFill e.remaining) (hd s _ hn e he)
      (decreased L.agg (min w.toFill e.remaining)) fun _ => true
    rw [if_pos rfl, Book.held_true, Book.held_true] at hheld
    rw [sweepStep_cons hv hq]
    simp only [filledQty_append]
    constructor
    · omega
    · omega

end Lob.Queue
