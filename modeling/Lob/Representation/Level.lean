import Lob.Core.Chain
import Lob.Queue.Book

/-!
# Price levels hold queues

A level with its memory holds a sequence of slots when its ends and links are a
doubly linked list of it. The list operations of the source edit that sequence
and change nothing of an order but its links.
-/

namespace Lob

open Chain

/-- The link fields of the buffer. -/
def Memory.links (m : Memory) : Links Ptr := ⟨fun p => (m p).next, fun p => (m p).prev⟩

/-- The end pointers of a level. -/
def PriceLevel.ends (l : PriceLevel) : Ends Ptr := ⟨l.head, l.tail⟩

/-- An order without its links. -/
def Order.bare (x : Order) : Order := { x with prev := none, next := none }

/-- What matching sees of an order. -/
def Order.entry (x : Order) : Queue.Entry :=
  ⟨x.orderId, x.qty, x.remainingQty, x.displayQty, x.hiddenQty⟩

/-- The visible part of an entry is that of its order. -/
@[simp] theorem Order.entry_remaining (x : Order) : x.entry.remaining = x.remainingQty := rfl

/-- An order is what it is without links, and its links. -/
theorem Order.ext_bare {x y : Order} (h : x.bare = y.bare) (hp : x.prev = y.prev)
    (hn : x.next = y.next) : x = y := by
  cases x
  cases y
  simp only [bare, Order.mk.injEq] at h hp hn ⊢
  simp only [h, hp, hn, and_self]

section Bare

variable {x y : Order} (h : x.bare = y.bare)
include h

/-- The id is no link. -/
theorem Order.orderId_of_bare : x.orderId = y.orderId := (congrArg Order.orderId h :)

/-- The price is no link. -/
theorem Order.price_of_bare : x.price = y.price := (congrArg Order.price h :)

/-- The side is no link. -/
theorem Order.side_of_bare : x.side = y.side := (congrArg Order.side h :)

/-- The type of a stop is no link. -/
theorem Order.stopType_of_bare : x.stopType = y.stopType := (congrArg Order.stopType h :)

/-- An entry has no links. -/
theorem Order.entry_of_bare : x.entry = y.entry := (congrArg Order.entry h :)

end Bare

section Memory

variable {m : Memory} {o q : Ptr} {f : Order → Order}

/-- The slot that is written. -/
@[simp] theorem Memory.modify_self : m.modify o f o = f (m o) := by simp [modify]

/-- Every slot after a write. -/
theorem Memory.modify_apply : m.modify o f q = if q = o then f (m q) else m q := rfl

/-- The slots that are not written. -/
theorem Memory.modify_of_ne (h : q ≠ o) : m.modify o f q = m q := if_neg h

/-- Two writes to one slot. -/
theorem Memory.modify_modify {g : Order → Order} :
    (m.modify o f).modify o g = m.modify o fun x => g (f x) := by
  funext q
  by_cases hq : q = o <;> simp [modify_apply, hq]

/-- A write that keeps the links of its order keeps all links. -/
theorem Memory.links_modify (hn : ∀ x, (f x).next = x.next) (hp : ∀ x, (f x).prev = x.prev) :
    (m.modify o f).links = m.links := by
  simp only [links, Links.mk.injEq]
  constructor
  · funext q
    by_cases hq : q = o <;> simp [modify_apply, hq, hn]
  · funext q
    by_cases hq : q = o <;> simp [modify_apply, hq, hp]

/-- Writing `next` sets that link. -/
theorem Memory.links_setNext (v : Option Ptr) :
    (m.modify o fun x => { x with next := v }).links = m.links.setNext o v := by
  simp only [links, Links.setNext, Links.mk.injEq]
  constructor
  · funext q
    by_cases hq : q = o <;> simp [modify_apply, hq]
  · funext q
    by_cases hq : q = o <;> simp [modify_apply, hq]

/-- Writing `prev` sets that link. -/
theorem Memory.links_setPrev (v : Option Ptr) :
    (m.modify o fun x => { x with prev := v }).links = m.links.setPrev o v := by
  simp only [links, Links.setPrev, Links.mk.injEq]
  constructor
  · funext q
    by_cases hq : q = o <;> simp [modify_apply, hq]
  · funext q
    by_cases hq : q = o <;> simp [modify_apply, hq]

/-- Writing both sets both. -/
theorem Memory.links_setBoth (u v : Option Ptr) :
    (m.modify o fun x => { x with next := u, prev := v }).links =
      (m.links.setNext o u).setPrev o v := by
  simp only [links, Links.setPrev, Links.setNext, Links.mk.injEq]
  constructor <;>
  · funext q
    by_cases hq : q = o <;> simp [modify_apply, hq]

/-- A write to the links of an order only keeps every order bare. -/
theorem Memory.bare_modify (h : ∀ x, (f x).bare = x.bare) : (m.modify o f q).bare = (m q).bare := by
  by_cases hq : q = o <;> simp [modify_apply, hq, h]

end Memory

namespace PriceLevel

variable {m m' : Memory} {l : PriceLevel} {o q : Ptr} {xs ys zs : List Ptr}

/-- The level's ends, links and count hold exactly the slots `xs`. -/
structure Holds (m : Memory) (l : PriceLevel) (xs : List Ptr) : Prop where
  list : IsList m.links l.ends xs
  cnt : l.cnt = xs.length

/-- The queue of a level: from its head on, as many orders as it counts. -/
def orders (m : Memory) (l : PriceLevel) : List Ptr := Chain.walk m.links l.cnt l.head

/-- The walk finds what the level holds. -/
theorem Holds.orders_eq (h : l.Holds m xs) : l.orders m = xs := by
  rw [orders, h.cnt]
  exact h.list.walk_eq

/-- Over a closed segment, the walk to a null pointer meets what the segment holds. -/
theorem walk_of_seg {n : Nat} {before : Option Ptr} (h : Seg m.links before xs none)
    (hn : xs.length ≤ n) : walk m n xs.head? = some xs := by
  induction xs generalizing n before with
  | nil => cases n <;> rfl
  | cons o xs ih =>
    obtain ⟨_, hnext, hrest⟩ := h
    cases n with
    | zero => exact absurd hn (Nat.not_succ_le_zero _)
    | succ n =>
      have htail := ih hrest (Nat.le_of_succ_le_succ hn)
      have hlink : (m o).next = xs.head? := by
        rw [← Option.or_none (o := xs.head?)]
        exact hnext
      rw [List.head?_cons, walk, hlink, htail]
      rfl

/-- The walk of `get_level_orders` enumerates the queue. -/
theorem Holds.walk_eq (h : l.Holds m xs) {n : Nat} (hn : xs.length ≤ n) :
    walk m n l.head = some xs := by
  have hhead : l.head = xs.head? := h.list.head
  rw [hhead]
  exact walk_of_seg h.list.seg hn

/-- Writes outside the level leave what it holds. -/
theorem Holds.frame (h : l.Holds m xs) (hm : ∀ p ∈ xs, m' p = m p) : l.Holds m' xs :=
  ⟨h.list.congr (fun p hp => by simp only [Memory.links, hm p hp])
    (fun p hp => by simp only [Memory.links, hm p hp]), h.cnt⟩

/-- `push_back` links the order after the tail. -/
theorem pushBack_list : ((l.pushBack m o).1.links, (l.pushBack m o).2.ends) =
    Chain.pushBack m.links l.ends o := by
  cases ht : l.tail <;>
    simp [pushBack, Chain.pushBack, ends, ht, Memory.links_setBoth, Memory.links_setNext]

/-- `remove` joins the neighbours of the order. -/
theorem remove_list : ((l.remove m o).1.links, (l.remove m o).2.ends) =
    Chain.unlink m.links l.ends o := by
  have hprev (m : Memory) : m.links.prev o = (m o).prev := rfl
  have hnext (m : Memory) : m.links.next o = (m o).next := rfl
  cases hp : (m o).prev with
  | none =>
    cases hn : (m o).next <;>
      simp [remove, unlink, ends, hp, hn, hprev, hnext, Memory.links_setBoth, Memory.links_setPrev]
  | some p =>
    let m₁ := m.modify p fun x => { x with next := (m o).next }
    have h₁ : m.links.setNext p (m.links.next o) = m₁.links := (Memory.links_setNext _).symm
    simp only [remove, unlink, hprev, hp, h₁]
    cases hn : (m₁ o).next <;>
      simp [ends, hn, m₁, hnext, Memory.links_setBoth, Memory.links_setPrev]

/-- `push_back` writes links only. -/
theorem pushBack_bare : ((l.pushBack m o).1 q).bare = (m q).bare := by
  cases ht : l.tail with
  | none => simp only [pushBack, ht]; exact Memory.bare_modify fun _ => rfl
  | some t =>
    simp only [pushBack, ht]
    rw [Memory.bare_modify, Memory.bare_modify] <;> exact fun _ => rfl

/-- `remove` writes links only. -/
theorem remove_bare : ((l.remove m o).1 q).bare = (m q).bare := by
  cases hp : (m o).prev with
  | none =>
    cases hn : (m o).next with
    | none => simp only [remove, hp, hn]; exact Memory.bare_modify fun _ => rfl
    | some n =>
      simp only [remove, hp, hn]
      rw [Memory.bare_modify, Memory.bare_modify] <;> exact fun _ => rfl
  | some p =>
    let m₁ := m.modify p fun x => { x with next := (m o).next }
    have h₁ : (m₁ q).bare = (m q).bare := Memory.bare_modify fun _ => rfl
    rw [← h₁]
    cases hn : (m₁ o).next with
    | none => simp only [remove, hp, m₁, hn]; exact Memory.bare_modify fun _ => rfl
    | some n =>
      simp only [remove, hp, m₁, hn]
      rw [Memory.bare_modify, Memory.bare_modify] <;> exact fun _ => rfl

/-- An appended order is counted. -/
theorem pushBack_cnt : (l.pushBack m o).2.cnt = l.cnt + 1 := rfl

/-- An appended order adds what it shows. -/
theorem pushBack_agg : (l.pushBack m o).2.aggQty = l.aggQty + (m o).remainingQty := by
  have h : ((l.pushBack m o).1 o).remainingQty = (m o).remainingQty :=
    (congrArg Order.remainingQty (pushBack_bare (l := l) (m := m) (o := o) (q := o)) :)
  rw [← h]
  rfl

/-- An unlinked order is not counted. -/
theorem remove_cnt : (l.remove m o).2.cnt = l.cnt - 1 := by
  simp only [remove]
  split <;> split <;> rfl

/-- An unlinked order takes away what it shows. -/
theorem remove_agg : (l.remove m o).2.aggQty = l.aggQty - (m o).remainingQty := by
  simp only [remove]
  split <;> split <;> simp [Memory.modify_apply]

/-- Appending an order that is not queued puts it last. -/
theorem Holds.pushBack (h : l.Holds m xs) (ho : o ∉ xs) :
    (l.pushBack m o).2.Holds (l.pushBack m o).1 (xs ++ [o]) where
  list := by
    have hl := h.list.pushBack ho
    rw [← pushBack_list] at hl
    exact hl
  cnt := by rw [pushBack_cnt, h.cnt, List.length_append, List.length_singleton]

/-- Removing an order leaves the others in their order. -/
theorem Holds.remove (h : l.Holds m (ys ++ o :: zs)) :
    (l.remove m o).2.Holds (l.remove m o).1 (ys ++ zs) where
  list := by
    have hl := h.list.unlink
    rw [← remove_list] at hl
    exact hl
  cnt := by
    rw [remove_cnt, h.cnt]
    simp only [List.length_append, List.length_cons]
    omega

/-- Appending writes to the queued orders and the new one only. -/
theorem Holds.pushBack_frame (h : l.Holds m xs) (hq : q ∉ xs) (hne : q ≠ o) :
    (l.pushBack m o).1 q = m q := by
  have hl : (l.pushBack m o).1.links = (Chain.pushBack m.links l.ends o).1 :=
    congrArg Prod.fst pushBack_list
  have htail : l.ends.tail ≠ some q := by
    intro he
    rw [h.list.tail] at he
    exact hq (List.mem_of_getLast? he)
  apply Order.ext_bare pushBack_bare
  · change (l.pushBack m o).1.links.prev q = m.links.prev q
    rw [hl, pushBack_prev, if_neg hne]
  · change (l.pushBack m o).1.links.next q = m.links.next q
    rw [hl, pushBack_next, if_neg htail, if_neg hne]

/-- Removing writes to the queued orders only. -/
theorem Holds.remove_frame (h : l.Holds m (ys ++ o :: zs)) (hq : q ∉ ys ++ o :: zs) :
    (l.remove m o).1 q = m q := by
  have hl : (l.remove m o).1.links = (Chain.unlink m.links l.ends o).1 :=
    congrArg Prod.fst remove_list
  have hqo : q ≠ o := by rintro rfl; simp at hq
  have hlast : ys.getLast? ≠ some q := fun he => hq (by simp [List.mem_of_getLast? he])
  have hhead : zs.head? ≠ some q := fun he => hq (by simp [List.mem_of_head? he])
  apply Order.ext_bare remove_bare
  · change (l.remove m o).1.links.prev q = m.links.prev q
    rw [hl, h.list.unlink_prev, if_neg hqo, if_neg hhead]
  · change (l.remove m o).1.links.next q = m.links.next q
    rw [hl, h.list.unlink_next, if_neg hqo, if_neg hlast]

/-- The queue a level shows. -/
def view (m : Memory) (l : PriceLevel) : Queue.Level :=
  { agg := l.aggQty, queue := (l.orders m).map fun p => (m p).entry }

end PriceLevel

end Lob
