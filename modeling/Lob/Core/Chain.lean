import Mathlib.Data.List.Nodup
import Mathlib.Logic.Function.Basic

/-!
# Intrusive doubly linked lists

The links of every cell are two maps, and a list is known by its two ends. A
linked segment states both directions at once, which makes appending at the
tail and unlinking at any position local edits of the abstract sequence.
-/

namespace Chain

variable {α : Type*}

/-- The link fields of all cells. -/
structure Links (α : Type*) where
  next : α → Option α
  prev : α → Option α

/-- The end pointers of one list. -/
structure Ends (α : Type*) where
  head : Option α
  tail : Option α

/-- The cells of `xs` are linked in order, entered from `before` and left to `after`. -/
def Seg (L : Links α) : Option α → List α → Option α → Prop
  | _, [], _ => True
  | before, x :: xs, after =>
    L.prev x = before ∧ L.next x = xs.head?.or after ∧ Seg L (some x) xs after

/-- The end pointers and the links hold exactly the sequence `xs`. -/
structure IsList (L : Links α) (d : Ends α) (xs : List α) : Prop where
  nodup : xs.Nodup
  head : d.head = xs.head?
  tail : d.tail = xs.getLast?
  seg : Seg L none xs none

/-- A segment only depends on the links of its own cells. -/
theorem Seg.congr {L L' : Links α} {before after : Option α} {xs : List α}
    (h : Seg L before xs after) (hn : ∀ x ∈ xs, L'.next x = L.next x)
    (hp : ∀ x ∈ xs, L'.prev x = L.prev x) : Seg L' before xs after := by
  induction xs generalizing before with
  | nil => trivial
  | cons x xs ih =>
    obtain ⟨hprev, hnext, hrest⟩ := h
    refine ⟨?_, ?_, ih hrest ?_ ?_⟩
    · rw [hp x List.mem_cons_self, hprev]
    · rw [hn x List.mem_cons_self, hnext]
    · exact fun y hy => hn y (List.mem_cons_of_mem x hy)
    · exact fun y hy => hp y (List.mem_cons_of_mem x hy)

/-- Two segments meet where the first is left and the second is entered. -/
theorem seg_append {L : Links α} {before after : Option α} {xs ys : List α} :
    Seg L before (xs ++ ys) after ↔
      Seg L before xs (ys.head?.or after) ∧ Seg L (xs.getLast?.or before) ys after := by
  induction xs generalizing before with
  | nil => simp [Seg]
  | cons x xs ih =>
    have hlast : (x :: xs).getLast?.or before = xs.getLast?.or (some x) := by
      cases xs with
      | nil => rfl
      | cons y ys => simp [List.getLast?_cons]
    have hhead : (xs ++ ys).head?.or after = xs.head?.or (ys.head?.or after) := by
      cases xs <;> rfl
    simp only [List.cons_append, Seg, ih, hlast, hhead, and_assoc]

/-- The cells of a segment determine their links. -/
theorem Seg.unique {L L' : Links α} {before after : Option α} {xs : List α}
    (h : Seg L before xs after) (h' : Seg L' before xs after) :
    ∀ x ∈ xs, L'.next x = L.next x ∧ L'.prev x = L.prev x := by
  induction xs generalizing before with
  | nil => simp
  | cons x xs ih =>
    obtain ⟨hprev, hnext, hrest⟩ := h
    obtain ⟨hprev', hnext', hrest'⟩ := h'
    rw [List.forall_mem_cons]
    exact ⟨⟨hnext'.trans hnext.symm, hprev'.trans hprev.symm⟩, ih hrest hrest'⟩

/-- The last cell of a segment leaves it; the others may stay as they are. -/
theorem Seg.setAfter {L L' : Links α} {before after after' : Option α} {xs : List α}
    (h : Seg L before xs after) (hp : ∀ x ∈ xs, L'.prev x = L.prev x)
    (hlast : ∀ x, xs.getLast? = some x → L'.next x = after')
    (hn : ∀ x ∈ xs.dropLast, L'.next x = L.next x) : Seg L' before xs after' := by
  induction xs generalizing before with
  | nil => trivial
  | cons x xs ih =>
    obtain ⟨hprev, hnext, hrest⟩ := h
    cases xs with
    | nil => exact ⟨(hp x List.mem_cons_self).trans hprev, by simpa using hlast x rfl, trivial⟩
    | cons y ys =>
      refine ⟨(hp x List.mem_cons_self).trans hprev, ?_, ih hrest ?_ ?_ ?_⟩
      · rw [hn x (by simp), hnext]
        rfl
      · exact fun z hz => hp z (List.mem_cons_of_mem x hz)
      · exact fun z hz => hlast z (by simpa [List.getLast?_cons_cons] using hz)
      · exact fun z hz => hn z (by simp [List.dropLast_cons_cons, hz])

/-- The entering link is that of the first cell only. -/
theorem Seg.setBefore {L L' : Links α} {before before' after : Option α} {xs : List α}
    (h : Seg L before xs after) (hn : ∀ x ∈ xs, L'.next x = L.next x)
    (hhead : ∀ x, xs.head? = some x → L'.prev x = before')
    (hp : ∀ x ∈ xs.tail, L'.prev x = L.prev x) : Seg L' before' xs after := by
  cases xs with
  | nil => trivial
  | cons x xs =>
    obtain ⟨_, hnext, hrest⟩ := h
    refine ⟨hhead x rfl, (hn x List.mem_cons_self).trans hnext, hrest.congr ?_ hp⟩
    exact fun y hy => hn y (List.mem_cons_of_mem x hy)

/-- Following `next` from the first cell for as many steps as there are cells. -/
def walk (L : Links α) : Nat → Option α → List α
  | n + 1, some x => x :: walk L n (L.next x)
  | _, _ => []

/-- The walk over a closed segment enumerates it. -/
theorem Seg.walk_eq {L : Links α} {before : Option α} {xs : List α}
    (h : Seg L before xs none) : walk L xs.length xs.head? = xs := by
  induction xs generalizing before with
  | nil => rfl
  | cons x xs ih =>
    obtain ⟨_, hnext, hrest⟩ := h
    simp only [List.length_cons, List.head?_cons, walk, hnext, Option.or_none, ih hrest]

theorem IsList.walk_eq {L : Links α} {d : Ends α} {xs : List α} (h : IsList L d xs) :
    walk L xs.length d.head = xs := by
  rw [h.head]
  exact h.seg.walk_eq

/-- Lists with the same links and ends are the same. -/
theorem IsList.congr {L L' : Links α} {d : Ends α} {xs : List α} (h : IsList L d xs)
    (hn : ∀ x ∈ xs, L'.next x = L.next x) (hp : ∀ x ∈ xs, L'.prev x = L.prev x) :
    IsList L' d xs :=
  ⟨h.nodup, h.head, h.tail, h.seg.congr hn hp⟩

theorem isList_nil (L : Links α) : IsList L ⟨none, none⟩ [] :=
  ⟨List.nodup_nil, rfl, rfl, trivial⟩

section Edits

variable [DecidableEq α]

def Links.setNext (L : Links α) (x : α) (y : Option α) : Links α :=
  { L with next := Function.update L.next x y }

def Links.setPrev (L : Links α) (x : α) (y : Option α) : Links α :=
  { L with prev := Function.update L.prev x y }

@[simp] theorem Links.next_setNext (L : Links α) (x z : α) (y : Option α) :
    (L.setNext x y).next z = if z = x then y else L.next z := by
  simp only [setNext, Function.update_apply]

@[simp] theorem Links.prev_setNext (L : Links α) (x : α) (y : Option α) :
    (L.setNext x y).prev = L.prev := rfl

@[simp] theorem Links.prev_setPrev (L : Links α) (x z : α) (y : Option α) :
    (L.setPrev x y).prev z = if z = x then y else L.prev z := by
  simp only [setPrev, Function.update_apply]

@[simp] theorem Links.next_setPrev (L : Links α) (x : α) (y : Option α) :
    (L.setPrev x y).next = L.next := rfl

/-- Link a cell after the tail. -/
def pushBack (L : Links α) (d : Ends α) (x : α) : Links α × Ends α :=
  let L := (L.setNext x none).setPrev x d.tail
  let L := match d.tail with
    | some t => L.setNext t (some x)
    | none => L
  (L, ⟨d.head.or (some x), some x⟩)

/-- Take a cell out, joining its neighbours or moving an end. -/
def unlink (L : Links α) (d : Ends α) (x : α) : Links α × Ends α :=
  let (L, d) := match L.prev x with
    | some p => (L.setNext p (L.next x), d)
    | none => (L, { d with head := L.next x })
  let (L, d) := match L.next x with
    | some n => (L.setPrev n (L.prev x), d)
    | none => (L, { d with tail := L.prev x })
  ((L.setNext x none).setPrev x none, d)

variable {L : Links α} {d : Ends α} {xs ys zs : List α} {x z : α}

/-- Appending touches the forward links of the new cell and of the old tail only. -/
theorem pushBack_next : (pushBack L d x).1.next z =
    if d.tail = some z then some x else if z = x then none else L.next z := by
  cases ht : d.tail with
  | none => simp [pushBack, ht]
  | some t => simp [pushBack, ht, eq_comm]

/-- Appending touches the backward link of the new cell only. -/
theorem pushBack_prev : (pushBack L d x).1.prev z = if z = x then d.tail else L.prev z := by
  cases ht : d.tail <;> simp [pushBack, ht]

/-- Appending a cell that is not in the list puts it last. -/
theorem IsList.pushBack (h : IsList L d xs) (hx : x ∉ xs) :
    IsList (pushBack L d x).1 (pushBack L d x).2 (xs ++ [x]) where
  nodup := by
    rw [List.nodup_append]
    exact ⟨h.nodup, by simp, by rintro a ha b hb rfl; exact hx (List.mem_singleton.mp hb ▸ ha)⟩
  head := by simp [Chain.pushBack, h.head]
  tail := by simp [Chain.pushBack]
  seg := by
    rw [seg_append]
    constructor
    · apply h.seg.setAfter
      · intro y hy
        rw [pushBack_prev, if_neg (by rintro rfl; exact hx hy)]
      · intro y hy
        rw [pushBack_next, h.tail, if_pos hy]
        rfl
      · intro y hy
        have hmem := List.dropLast_subset xs hy
        have hne : xs.getLast? ≠ some y := by
          intro hlast
          obtain ⟨init, rfl⟩ := List.getLast?_eq_some_iff.mp hlast
          have hn := h.nodup
          simp only [List.dropLast_concat] at hy
          exact (List.nodup_append.mp hn).2.2 y hy y (by simp) rfl
        rw [pushBack_next, h.tail, if_neg hne, if_neg (by rintro rfl; exact hx hmem)]
    · refine ⟨?_, ?_, trivial⟩
      · rw [pushBack_prev, if_pos rfl, h.tail, Option.or_none]
      · rw [pushBack_next, h.tail, if_neg (fun he => hx (List.mem_of_getLast? he)), if_pos rfl]
        rfl

section Unlink

variable (h : IsList L d (ys ++ x :: zs))
include h

omit [DecidableEq α] in
theorem IsList.unlink_prev_eq : L.prev x = ys.getLast? := by
  have hs := (seg_append.mp h.seg).2.1
  simpa using hs

omit [DecidableEq α] in
theorem IsList.unlink_next_eq : L.next x = zs.head? := by
  have hs := (seg_append.mp h.seg).2.2.1
  simpa using hs

omit [DecidableEq α] in
theorem IsList.not_mem_split : x ∉ ys ∧ x ∉ zs ∧ ∀ y ∈ ys, y ∉ zs := by
  have hn := List.nodup_append.mp h.nodup
  refine ⟨?_, (List.nodup_cons.mp hn.2.1).1, ?_⟩
  · exact fun hy => hn.2.2 x hy x (by simp) rfl
  · exact fun y hy hz => hn.2.2 y hy y (by simp [hz]) rfl

/-- Unlinking touches the forward links of the cell and its predecessor only. -/
theorem IsList.unlink_next : (unlink L d x).1.next z =
    if z = x then none else if ys.getLast? = some z then zs.head? else L.next z := by
  have hp := h.unlink_prev_eq
  have hn := h.unlink_next_eq
  have hx := h.not_mem_split
  cases hy : ys.getLast? with
  | none =>
    rw [hy] at hp
    cases hz : zs.head? <;> rw [hz] at hn <;> simp [unlink, hp, hn]
  | some p =>
    rw [hy] at hp
    have hpx : x ≠ p := by rintro rfl; exact hx.1 (List.mem_of_getLast? hy)
    cases hz : zs.head? <;> rw [hz] at hn <;> simp [unlink, hp, hn, hpx, eq_comm]

/-- Unlinking touches the backward links of the cell and its successor only. -/
theorem IsList.unlink_prev : (unlink L d x).1.prev z =
    if z = x then none else if zs.head? = some z then ys.getLast? else L.prev z := by
  have hp := h.unlink_prev_eq
  have hn := h.unlink_next_eq
  have hx := h.not_mem_split
  cases hy : ys.getLast? with
  | none =>
    rw [hy] at hp
    cases hz : zs.head? <;> rw [hz] at hn <;> simp [unlink, hp, hn, eq_comm]
  | some p =>
    rw [hy] at hp
    have hpx : x ≠ p := by rintro rfl; exact hx.1 (List.mem_of_getLast? hy)
    cases hz : zs.head? <;> rw [hz] at hn <;> simp [unlink, hp, hn, hpx, eq_comm]

/-- The head moves only when the first cell goes. -/
theorem IsList.unlink_head : (unlink L d x).2.head = (ys ++ zs).head? := by
  have hp := h.unlink_prev_eq
  have hn := h.unlink_next_eq
  have hhead := h.head
  cases ys with
  | nil =>
    have hp' : L.prev x = none := by simpa using hp
    cases hz : zs.head? <;> rw [hz] at hn <;> simp [unlink, hp', hn, hz]
  | cons y ys =>
    have hp' : L.prev x = some ((y :: ys).getLast (by simp)) := by
      rw [hp, List.getLast?_eq_getLast_of_ne_nil]
    have hne : x ≠ (y :: ys).getLast (by simp) := by
      intro he
      exact h.not_mem_split.1 (he ▸ List.getLast_mem (by simp))
    have hd : d.head = some y := by simpa using hhead
    cases hz : zs.head? <;> rw [hz] at hn <;> simp [unlink, hp', hn, hne, hd]

/-- The tail moves only when the last cell goes. -/
theorem IsList.unlink_tail : (unlink L d x).2.tail = (ys ++ zs).getLast? := by
  have hp := h.unlink_prev_eq
  have hn := h.unlink_next_eq
  have htail := h.tail
  have hne : ∀ p, ys.getLast? = some p → x ≠ p := by
    rintro p he rfl
    exact h.not_mem_split.1 (List.mem_of_getLast? he)
  cases zs with
  | nil =>
    have hn' : L.next x = none := by simpa using hn
    cases hy : ys.getLast? with
    | none => rw [hy] at hp; simp [unlink, hp, hn', hy]
    | some p => rw [hy] at hp; simp [unlink, hp, hn', hy, hne p hy]
  | cons n zs =>
    have hn' : L.next x = some n := by simpa using hn
    have ht : d.tail = (ys ++ n :: zs).getLast? := by simpa using htail
    cases hy : ys.getLast? with
    | none => rw [hy] at hp; simp [unlink, hp, hn', ht]
    | some p => rw [hy] at hp; simp [unlink, hp, hn', ht, hne p hy]

/-- Unlinking a cell leaves the list of the other cells in their order. -/
theorem IsList.unlink : IsList (unlink L d x).1 (unlink L d x).2 (ys ++ zs) where
  nodup := h.nodup.sublist ((List.sublist_cons_self x zs).append_left ys)
  head := h.unlink_head
  tail := h.unlink_tail
  seg := by
    obtain ⟨hys, hzs, hdisj⟩ := h.not_mem_split
    have hseg := seg_append.mp h.seg
    rw [seg_append]
    constructor
    · apply hseg.1.setAfter
      · intro y hy
        have hhead : zs.head? ≠ some y := fun he => hdisj y hy (List.mem_of_head? he)
        rw [h.unlink_prev, if_neg (by rintro rfl; exact hys hy), if_neg hhead]
      · intro y hy
        have hyx : y ≠ x := by rintro rfl; exact hys (List.mem_of_getLast? hy)
        rw [h.unlink_next, if_neg hyx, if_pos hy, Option.or_none]
      · intro y hy
        have hmem := List.dropLast_subset ys hy
        have hlast : ys.getLast? ≠ some y := by
          intro he
          obtain ⟨init, rfl⟩ := List.getLast?_eq_some_iff.mp he
          simp only [List.dropLast_concat] at hy
          have hn := (List.nodup_append.mp (List.nodup_append.mp h.nodup).1).2.2
          exact hn y hy y (by simp) rfl
        rw [h.unlink_next, if_neg (by rintro rfl; exact hys hmem), if_neg hlast]
    · apply hseg.2.2.2.setBefore
      · intro y hy
        have hlast : ys.getLast? ≠ some y := fun he => hdisj y (List.mem_of_getLast? he) hy
        rw [h.unlink_next, if_neg (by rintro rfl; exact hzs hy), if_neg hlast]
      · intro y hy
        have hyx : y ≠ x := by rintro rfl; exact hzs (List.mem_of_head? hy)
        rw [h.unlink_prev, if_neg hyx, if_pos hy, Option.or_none]
      · intro y hy
        have hmem := List.mem_of_mem_tail hy
        have hhead : zs.head? ≠ some y := by
          intro he
          obtain ⟨rest, rfl⟩ := List.head?_eq_some_iff.mp he
          have hn := List.nodup_cons.mp (List.nodup_cons.mp (List.nodup_append.mp h.nodup).2.1).2
          exact hn.1 hy
        rw [h.unlink_prev, if_neg (by rintro rfl; exact hzs hmem), if_neg hhead]

end Unlink

end Edits

end Chain
