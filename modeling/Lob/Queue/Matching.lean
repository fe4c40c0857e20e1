import Lob.Model.Engine
import Lob.Queue.Book

/-!
# Matching over queues

`market_order` and the two policies as they act on the queues. The pro-rata
policy fills the entries of the best level by their ids, one after the other.
-/

namespace Lob.Queue

/-- An iteration fills the first entry of the best level. -/
theorem sweepStep_cons {s : Side} {w : Sweep} {px : Int} {L : Level} {e : Entry}
    {rest : List (Int × Level)} {es : List Entry} (hv : w.book.ladder s = (px, L) :: rest)
    (hq : L.queue = e :: es) :
    sweepStep s w =
      { book := w.book.put s 0 px
          (L.fill e (min w.toFill e.remaining) (decreased L.agg (min w.toFill e.remaining)))
        toFill := w.toFill - min w.toFill e.remaining
        fills := w.fills ++ [⟨e.id, px, min w.toFill e.remaining⟩] } := by
  simp only [sweepStep, hv, hq]

/-- What bounds the number of iterations of `market_order`'s loop. -/
def Book.sweepBound (B : Book) (s : Side) (qty : Qty) : Nat :=
  qty.toNat + ((B.ladder s).map fun n => 2 * n.2.queue.length + 1).sum

/-- `market_order`. -/
def Book.market (B : Book) (side : Side) (qty : Qty) : List Fill × Book :=
  let s := side.opposite
  let w := sweep s (B.sweepBound s qty) ⟨B, qty, []⟩
  (w.fills, w.book)

/-- The loop of `ProRataPolicy::match` that applies an allocation. -/
def Book.allot (px : Int) : List (Nat × Qty) → List Fill × Book → List Fill × Book
  | [], r => r
  | (id, a) :: rest, (fills, B) =>
    if a = 0 then allot px rest (fills, B)
    else
      let (filled, B) := B.applyFill id a
      allot px rest (if 0 < filled then fills ++ [⟨id, px, filled⟩] else fills, B)

/-- `ProRataPolicy::match`. -/
def Book.proRata (minFill : Qty) (B : Book) (side : Side) (qty : Qty) : List Fill × Book :=
  match B.ladder side.opposite with
  | [] => ([], B)
  | (px, L) :: _ =>
    let sizes := L.queue.map Entry.remaining
    if L.queue = [] ∨ sizes.sum = 0 then ([], B)
    else
      let ids := L.queue.map Entry.id
      allot px (ids.zip (ProRata.alloc minFill qty ids sizes)) ([], B)

/-- `MatchingPolicy::match`. -/
def Book.run (p : MatchingPolicy) (B : Book) (side : Side) (qty : Qty) : List Fill × Book :=
  match p with
  | .fifoStack => B.market side qty
  | .proRata minFill => proRata minFill B side qty

end Lob.Queue
