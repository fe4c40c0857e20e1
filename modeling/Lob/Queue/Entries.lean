import Lob.Core.Word
import Lob.Queue.Ordered

/-!
# Properties of every entry

A property of single entries holds throughout a book when every operation that
rewrites an entry keeps it. Removing, moving and appending rewrite nothing.
-/

namespace Lob.Queue

/-- Every resting entry has the property. -/
def Book.All (P : Entry → Prop) (B : Book) : Prop := ∀ s, ∀ n ∈ B.ladder s, ∀ e ∈ n.2.queue, P e

variable {P : Entry → Prop} {B : Book} {s t : Side} {i id : Nat} {px : Int} {L L' : Level}
  {e x : Entry} {amt agg qty : Qty} {n : Int × Level} {w : Sweep}

namespace Level

/-- Removal adds no entry. -/
theorem mem_remove (h : x ∈ (L.remove e).queue) : x ∈ L.queue := List.mem_of_mem_filter h

/-- Rewriting in place adds the new entry only. -/
theorem mem_rewrite (h : x ∈ (L.rewrite e agg).queue) : x ∈ L.queue ∨ x = e := by
  obtain ⟨y, hy, rfl⟩ := List.mem_map.mp h
  split
  · exact Or.inr rfl
  · exact Or.inl hy

/-- Appending adds the new entry only. -/
theorem mem_append (h : x ∈ (L.append e).queue) : x ∈ L.queue ∨ x = e := by
  simpa [append] using h

/-- The entries after a fill: the old ones, and the filled one with what is left of it. -/
theorem mem_fill (h : x ∈ (L.fill e amt agg).queue) : x ∈ L.queue ∨ x = e.take amt ∨
    (e.take amt).remaining = 0 ∧ e.Refillable ∧ x = (e.take amt).refill := by
  rw [fill] at h
  split at h
  · next hz =>
    split at h
    · next hr =>
      rcases mem_append h with h | h
      · exact Or.inl (mem_remove h)
      · exact Or.inr (Or.inr ⟨hz, hr, h⟩)
    · exact Or.inl (mem_remove h)
  · rcases mem_rewrite h with h | h
    · exact Or.inl h
    · exact Or.inr (Or.inl h)

end Level

namespace Book

/-- The nodes after writing one level. -/
theorem mem_of_mem_put (h : n ∈ (B.put s i px L).ladder t) :
    t = s ∧ n = (px, L) ∨ n ∈ B.ladder t := by
  by_cases ht : t = s
  · subst ht
    rw [put, ladder_setLadder_self] at h
    split at h
    · exact Or.inr (List.mem_of_mem_eraseIdx h)
    · rcases List.mem_or_eq_of_mem_set h with h | h
      · exact Or.inr h
      · exact Or.inl ⟨rfl, h⟩
  · rw [ladder_put_of_ne ht] at h
    exact Or.inr h

/-- Writing a level all of whose entries have the property. -/
theorem All.put (h : B.All P) (hL : ∀ e ∈ L.queue, P e) : (B.put s i px L).All P := by
  intro t n hn e he
  rcases mem_of_mem_put hn with ⟨_, rfl⟩ | hn
  · exact hL e he
  · exact h t n hn e he

/-- The property holds of a located entry and of its neighbours. -/
theorem All.at (h : B.All P) {S : Spot} (hS : B.At id S) :
    P S.entry ∧ ∀ e ∈ S.level.queue, P e :=
  ⟨h _ _ (List.mem_of_getElem? hS.level) _ hS.mem, h _ _ (List.mem_of_getElem? hS.level)⟩

/-- A cancel only removes entries. -/
theorem All.cancel (h : B.All P) (id : Nat) : (B.cancel id).All P := by
  rw [Book.cancel]
  cases hl : B.locate id with
  | none => exact h
  | some S => exact h.put fun e he => (h.at (at_of_locate hl)).2 e (Level.mem_remove he)

/-- An add needs the property of the new entry. -/
theorem All.add (h : B.All P) (ho : B.Ordered) (hnew : P ⟨B.nextId, qty, qty, 0, 0⟩) :
    (B.add s px qty).All P := by
  intro t n hn e he
  rcases ho.mem_add.mp hn with ⟨rfl, rfl⟩ | ⟨hn, _⟩
  · rcases Level.mem_append he with he | rfl
    · obtain ⟨L, hL, he⟩ := ho.mem_levelAt.mp he
      exact h t _ hL e he
    · exact hnew
  · exact h t n hn e he

/-- Rewriting one entry where it stands. -/
theorem All.rewrite (h : B.All P) {S : Spot} (hS : B.At id S) (he : P e) :
    (B.put S.side S.index S.price (S.level.rewrite e agg)).All P := by
  refine h.put fun x hx => ?_
  rcases Level.mem_rewrite hx with hx | rfl
  · exact (h.at hS).2 x hx
  · exact he

/-- A configuration needs the property of the rewritten entry. -/
theorem All.configure (h : B.All P) (id : Nat) (display : Qty)
    (hc : ∀ e, P e → display ≠ 0 → P (configured e display)) : (B.configure id display).All P := by
  rw [Book.configure]
  cases hl : B.locate id with
  | none => exact h
  | some S =>
    have hS := at_of_locate hl
    simp only
    split
    · exact h
    · next hd => exact h.rewrite hS (hc _ (h.at hS).1 hd)

section Fill

/-- The property survives a fill and the showing of a slice. -/
structure Fills (P : Entry → Prop) : Prop where
  take : ∀ e amt, P e → amt ≤ e.remaining → P (e.take amt)
  refill : ∀ e, P e → e.remaining = 0 → e.Refillable → P e.refill

variable (hP : Fills P)
include hP

/-- One fill at a level keeps the property. -/
theorem All.fill (h : B.All P) (hL : (px, L) ∈ B.ladder t) (he : e ∈ L.queue)
    (ha : amt ≤ e.remaining) : (B.put s i px (L.fill e amt agg)).All P := by
  have htake := hP.take e amt (h t _ hL e he) ha
  refine h.put fun x hx => ?_
  rcases Level.mem_fill hx with hx | rfl | ⟨hz, hr, rfl⟩
  · exact h t _ hL x hx
  · exact htake
  · exact hP.refill _ htake hz hr

/-- A fill from outside keeps the property. -/
theorem All.applyFill (h : B.All P) (id : Nat) (qty : Qty) : (B.applyFill id qty).2.All P := by
  rw [Book.applyFill]
  cases hl : B.locate id with
  | none => exact h
  | some S =>
    have hS := at_of_locate hl
    exact h.fill hP (List.mem_of_getElem? hS.level) hS.mem (Word.min_le_right _ _)

/-- An iteration of the matching loop keeps the property. -/
theorem All.sweepStep (h : w.book.All P) : (sweepStep s w).book.All P := by
  cases hv : w.book.ladder s with
  | nil => simpa only [Queue.sweepStep, hv] using h
  | cons n rest =>
    obtain ⟨px, L⟩ := n
    have hL : (px, L) ∈ w.book.ladder s := by rw [hv]; exact List.mem_cons_self
    cases hq : L.queue with
    | nil =>
      simp only [Queue.sweepStep, hv, hq]
      exact h.put fun e he => absurd he (by simp [hq])
    | cons e es =>
      rw [sweepStep_cons hv hq]
      exact h.fill hP hL (by rw [hq]; exact List.mem_cons_self) (Word.min_le_right _ _)

/-- Every number of iterations keeps the property. -/
theorem All.sweep (h : w.book.All P) (n : Nat) : (sweep s n w).book.All P := by
  induction n generalizing w with
  | zero => exact h
  | succ n ih =>
    rw [Queue.sweep]
    split
    · exact ih (h.sweepStep hP)
    · exact h

/-- A market order keeps the property. -/
theorem All.market (h : B.All P) (side : Side) (qty : Qty) : (B.market side qty).2.All P :=
  All.sweep (w := ⟨B, qty, []⟩) hP h _

end Fill

end Book

end Lob.Queue
