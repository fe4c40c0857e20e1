import Lob.Queue.Ordered
import Lob.Representation.Shelf

/-!
# Well-formed books

The invariant of `OrderBook`: both sides are shelved, the id table maps an id
to the one slot that holds it, and the pool owns the other slots. Mapped slots
are the resting orders, which are queued, and the pending stops, which are not.
-/

namespace Lob

namespace OrderPool

/-- Free slots and live slots are disjoint and make up the pool. -/
structure Owns (p : OrderPool) (live : Ptr → Prop) : Prop where
  nodup : p.freelist.Nodup
  free : ∀ q ∈ p.freelist, ¬ live q
  slots : p.mode = .pool → ∀ q, q < p.capacity ↔ q ∈ p.freelist ∨ live q
  blocks : p.mode = .heap → p.freelist = [] ∧ ∀ q, live q → q < p.brk

variable {p p' : OrderPool} {live live' : Ptr → Prop} {o : Ptr}

/-- Only which slots are live matters. -/
theorem Owns.congr (h : p.Owns live) (hl : ∀ q, live' q ↔ live q) : p.Owns live' := by
  have he : live' = live := funext fun q => propext (hl q)
  rw [he]
  exact h

/-- A fresh pool owns every slot. -/
theorem owns_new (capacity : Nat) (mode : AllocMode) :
    (OrderPool.new capacity mode).Owns fun _ => False := by
  constructor
  · cases mode <;> simp [new, List.nodup_range]
  · simp
  · intro h q
    cases mode <;> simp_all [new]
  · intro h
    cases mode <;> simp_all [new]

/-- Allocation keeps the capacity and the mode. -/
theorem allocate_capacity (h : p.allocate = some (o, p')) :
    p'.capacity = p.capacity ∧ p'.mode = p.mode := by
  cases hm : p.mode <;> simp only [allocate, hm] at h
  · cases hf : p.freelist with
    | nil => simp [hf] at h
    | cons a free =>
      simp only [hf, Option.some.injEq, Prod.mk.injEq] at h
      obtain ⟨_, rfl⟩ := h
      exact ⟨rfl, rfl⟩
  · simp only [Option.some.injEq, Prod.mk.injEq] at h
    obtain ⟨_, rfl⟩ := h
    exact ⟨rfl, rfl⟩

/-- An allocated slot was not live. -/
theorem Owns.allocate (h : p.Owns live) (ha : p.allocate = some (o, p')) :
    ¬ live o ∧ p'.Owns fun q => q = o ∨ live q := by
  cases hm : p.mode <;> simp only [OrderPool.allocate, hm] at ha
  · cases hf : p.freelist with
    | nil => simp [hf] at ha
    | cons a free =>
      simp only [hf, Option.some.injEq, Prod.mk.injEq] at ha
      obtain ⟨rfl, rfl⟩ := ha
      have hn := List.nodup_cons.mp (hf ▸ h.nodup)
      refine ⟨h.free a (by simp [hf]), hn.2, ?_, ?_, by simp⟩
      · rintro q hq (rfl | hl)
        · exact hn.1 hq
        · exact h.free q (by simp [hf, hq]) hl
      · intro _ q
        rw [h.slots hm q, hf, List.mem_cons]
        tauto
  · simp only [Option.some.injEq, Prod.mk.injEq] at ha
    obtain ⟨rfl, rfl⟩ := ha
    obtain ⟨hf, hb⟩ := h.blocks hm
    refine ⟨fun hl => Nat.lt_irrefl _ (hb _ hl), h.nodup, by simp [hf], by simp, ?_⟩
    refine fun _ => ⟨hf, ?_⟩
    rintro q (rfl | hl)
    · exact Nat.lt_succ_self _
    · exact Nat.lt_succ_of_lt (hb q hl)

/-- A released slot is free. -/
theorem Owns.deallocate (h : p.Owns live) (ho : live o) :
    (p.deallocate o).Owns fun q => live q ∧ q ≠ o := by
  cases hm : p.mode <;> simp only [OrderPool.deallocate, hm]
  · refine ⟨List.nodup_cons.mpr ⟨fun hf => h.free o hf ho, h.nodup⟩, ?_, ?_, by simp⟩
    · rintro q hq ⟨hl, hne⟩
      exact h.free q ((List.mem_cons.mp hq).resolve_left hne) hl
    · intro _ q
      rw [h.slots hm q, List.mem_cons]
      constructor
      · rintro (hf | hl)
        · exact Or.inl (Or.inr hf)
        · by_cases he : q = o
          · exact Or.inl (Or.inl he)
          · exact Or.inr ⟨hl, he⟩
      · rintro ((rfl | hf) | ⟨hl, _⟩)
        · exact Or.inr ho
        · exact Or.inl hf
        · exact Or.inr hl
  · obtain ⟨hf, hb⟩ := h.blocks hm
    refine ⟨h.nodup, by simp [hf], by simp [hm], fun _ => ⟨hf, fun q hq => hb q hq.1⟩⟩

/-- Giving a slot back keeps the capacity and the mode. -/
theorem deallocate_capacity :
    (p.deallocate o).capacity = p.capacity ∧ (p.deallocate o).mode = p.mode := by
  cases hm : p.mode <;> simp [deallocate, hm]

end OrderPool

namespace OrderBook

variable {b : OrderBook} {s t : Side} {px : Int} {i id : Nat} {o p q : Ptr}

/-- The id table is read within its length. -/
theorem findId_eq (b : OrderBook) (id : Nat) : b.findId id = (b.idSlots[id]?).join := by
  rw [findId]
  split
  · next h => rw [List.getElem?_eq_none h]; rfl
  · rfl

/-- Storing an order maps its id to its slot and no other id. -/
theorem findId_putId (b : OrderBook) (o : Ptr) (j : Nat) :
    (b.putId o).findId j = if j = (b.mem o).orderId then some o else b.findId j := by
  simp only [findId_eq, putId]
  generalize (b.mem o).orderId = id
  split
  · next h =>
    by_cases hj : j = id
    · subst hj
      rw [if_pos rfl, List.getElem?_set_self (by simp; omega)]
      rfl
    · rw [if_neg hj, List.getElem?_set_ne (Ne.symm hj), List.getElem?_append]
      split
      · rfl
      · next hlen =>
        rw [List.getElem?_eq_none (l := b.idSlots) (by omega), List.getElem?_replicate]
        split <;> rfl
  · next h =>
    by_cases hj : j = id
    · subst hj
      rw [if_pos rfl, List.getElem?_set_self (by omega)]
      rfl
    · rw [if_neg hj, List.getElem?_set_ne (Ne.symm hj)]

/-- Dropping an id unmaps that id and no other. -/
theorem findId_dropId (b : OrderBook) (id j : Nat) :
    (b.dropId id).findId j = if j = id then none else b.findId j := by
  simp only [findId_eq, dropId]
  split
  · next h =>
    by_cases hj : j = id
    · subst hj
      rw [if_pos rfl, List.getElem?_set_self h]
      rfl
    · rw [if_neg hj, List.getElem?_set_ne (Ne.symm hj)]
  · next h =>
    by_cases hj : j = id
    · subst hj
      rw [if_pos rfl, List.getElem?_eq_none (by omega)]
      rfl
    · rw [if_neg hj]

/-- The id table only depends on its vector. -/
theorem findId_congr {b b' : OrderBook} (h : b'.idSlots = b.idSlots) (j : Nat) :
    b'.findId j = b.findId j := by
  rw [findId_eq, findId_eq, h]

/-- Slot `p` is queued on side `s` at price `px`. -/
def On (b : OrderBook) (s : Side) (px : Int) (p : Ptr) : Prop := Queued b.mem (b.ladder s) px p

/-- Some id is mapped to slot `p`. -/
def Live (b : OrderBook) (p : Ptr) : Prop := ∃ id, b.findId id = some p

/-- The representation invariant. -/
structure WellFormed (b : OrderBook) : Prop where
  shelved : ∀ s, Shelved b.mem s (b.ladder s)
  /-- Queued slots are mapped. -/
  mapped : ∀ s px p, b.On s px p → b.findId (b.mem p).orderId = some p
  /-- A mapped slot holds the order of its id. -/
  table : ∀ id p, b.findId id = some p → (b.mem p).orderId = id ∧ 0 < id
  /-- No slot, free or not, holds the id of another mapped slot. -/
  slotId : ∀ p q, b.findId (b.mem p).orderId = some q → q = p
  idBound : ∀ p, (b.mem p).orderId < b.nextOrderId
  /-- Mapped slots that are no stops are queued. -/
  resting : ∀ id p, b.findId id = some p → (b.mem p).stopType = .none →
    b.On (b.mem p).side (b.mem p).price p
  /-- Mapped stops are linked nowhere. -/
  unlinked : ∀ id p, b.findId id = some p → (b.mem p).stopType ≠ .none →
    (b.mem p).prev = none ∧ (b.mem p).next = none
  pool : b.pool.Owns b.Live

/-- The queues a book shows. -/
def queues (b : OrderBook) : Queue.Book :=
  { bids := Ladder.mapValues (PriceLevel.view b.mem) b.bids
    asks := Ladder.mapValues (PriceLevel.view b.mem) b.asks
    nextId := b.nextOrderId }

/-- The queues of a side are the views of its levels. -/
theorem queues_ladder (b : OrderBook) (s : Side) :
    b.queues.ladder s = Ladder.mapValues (PriceLevel.view b.mem) (b.ladder s) := by
  cases s <;> rfl

/-- The stop registered under an id, with its slot. -/
def stopSlot (b : OrderBook) (id : Nat) : Option (Ptr × Order) :=
  (b.findId id).bind fun p =>
    if (b.mem p).stopType = .none then none else some (p, (b.mem p).bare)

/-- A registered stop is a mapped slot of a stop type. -/
theorem stopSlot_eq_some {x : Order} : b.stopSlot id = some (p, x) ↔
    b.findId id = some p ∧ (b.mem p).stopType ≠ .none ∧ (b.mem p).bare = x := by
  simp only [stopSlot, Option.bind_eq_some_iff]
  constructor
  · rintro ⟨q, hq, he⟩
    by_cases h : (b.mem q).stopType = .none
    · simp [h] at he
    · simp only [h, ite_false, Option.some.injEq, Prod.mk.injEq] at he
      obtain ⟨rfl, rfl⟩ := he
      exact ⟨hq, h, rfl⟩
  · rintro ⟨hq, h, rfl⟩
    exact ⟨p, hq, by simp [h]⟩

/-- No stop is registered beyond the table. -/
theorem stopSlot_of_length (h : b.idSlots.length ≤ id) : b.stopSlot id = none := by
  rw [stopSlot, findId, if_pos h]
  rfl

/-- A property of all registered stops is checked along the id table. -/
instance decidableStops (b : OrderBook) (P : Ptr × Order → Prop) [DecidablePred P] :
    Decidable (∀ id, ∀ r ∈ b.stopSlot id, P r) :=
  decidable_of_iff (∀ id < b.idSlots.length, ∀ r ∈ b.stopSlot id, P r) <| by
    refine ⟨fun h id r hr => h id ?_ r hr, fun h id _ => h id⟩
    by_contra hlen
    rw [stopSlot_of_length (Nat.le_of_not_lt hlen)] at hr
    contradiction

/-- A new book has no level. -/
theorem ladder_new (n : Nat) (mode : AllocMode) (s : Side) : (new n mode).ladder s = [] := by
  cases s <;> rfl

/-- A new book maps no id. -/
theorem findId_new (n : Nat) (mode : AllocMode) (id : Nat) : (new n mode).findId id = none := by
  rw [findId_eq, new, List.getElem?_replicate]
  split <;> rfl

/-- The empty book is well formed. -/
theorem wellFormed_new (n : Nat) (mode : AllocMode) : (new n mode).WellFormed where
  shelved s := by
    rw [ladder_new]
    exact shelved_nil _ s
  mapped s px p h := by
    rw [On, ladder_new] at h
    obtain ⟨l, hl, _⟩ := h
    simp at hl
  table id p h := by simp [findId_new] at h
  slotId p q h := by simp [findId_new] at h
  idBound p := Nat.one_pos
  resting id p h := by simp [findId_new] at h
  unlinked id p h := by simp [findId_new] at h
  pool := (OrderPool.owns_new n mode).congr fun q => by simp [Live, findId_new]

namespace WellFormed

variable (h : b.WellFormed)
include h

/-- A queued order has the price and the side of its level. -/
theorem placed (ho : b.On s px p) :
    (b.mem p).price = px ∧ (b.mem p).side = s ∧ (b.mem p).stopType = .none := by
  obtain ⟨l, hl, hp⟩ := ho
  exact (h.shelved s).placed _ hl p hp

/-- A mapped slot is mapped under its own id. -/
theorem findId_orderId (hp : b.findId id = some p) : b.findId (b.mem p).orderId = some p := by
  rw [(h.table id p hp).1]
  exact hp

/-- A mapped id has been handed out. -/
theorem id_lt (hp : b.findId id = some p) : id < b.nextOrderId := by
  rw [← (h.table id p hp).1]
  exact h.idBound p

/-- Queued slots are live. -/
theorem live_of_on (ho : b.On s px p) : b.Live p := ⟨_, h.mapped s px p ho⟩

/-- A queued slot stands in one level only. -/
theorem findLevel_of_on (ho : b.On s px p) : ∃ i l, b.findLevel s px = some (i, l) ∧
    (b.ladder s)[i]? = some (px, l) ∧ p ∈ l.orders b.mem := by
  obtain ⟨l, hl, hp⟩ := ho
  obtain ⟨i, hf, hi⟩ := (h.shelved s).sorted.find_of_mem s.cmp_strict hl
  exact ⟨i, l, hf, hi, hp⟩

/-- A found level is an entry of the ladder. -/
theorem findLevel_eq_some {l : PriceLevel} :
    b.findLevel s px = some (i, l) ↔ (b.ladder s)[i]? = some (px, l) :=
  (h.shelved s).sorted.find_eq_some s.cmp_strict

/-- A mapped slot lies in the pool. -/
theorem lt_slots_of_live (hp : b.Live p) : p < b.pool.slots := by
  unfold OrderPool.slots
  cases hm : b.pool.mode with
  | pool => exact (h.pool.slots hm p).mpr (Or.inr hp)
  | heap => exact (h.pool.blocks hm).2 p hp

/-- The walk along a level meets its queue and ends, since no slot is queued twice. -/
theorem walk_level {l : PriceLevel} {n : Nat} (hi : (b.ladder s)[i]? = some (px, l))
    (hn : b.pool.slots ≤ n) : PriceLevel.walk b.mem n l.head = some (l.orders b.mem) := by
  have hmem := List.mem_of_getElem? hi
  have hholds := (h.shelved s).holds _ hmem
  refine hholds.walk_eq (Nat.le_trans ?_ hn)
  have hsub : l.orders b.mem ⊆ List.range b.pool.slots := fun p hp =>
    List.mem_range.mpr (h.lt_slots_of_live (h.live_of_on ⟨l, hmem, hp⟩))
  have hlen := (List.subperm_of_subset hholds.list.nodup hsub).length_le
  rwa [List.length_range] at hlen

/-- `get_level_orders` returns the queue of the level. -/
theorem getLevelOrders_eq {l : PriceLevel} (hl : b.findLevel s px = some (i, l)) :
    b.getLevelOrders s px = l.orders b.mem := by
  rw [OrderBook.getLevelOrders, hl]
  dsimp only
  rw [h.walk_level (h.findLevel_eq_some.mp hl) (Nat.le_refl _)]
  rfl

omit h in
/-- The place of a queued order in the queues. -/
theorem at_of_level {l : PriceLevel} (hi : (b.ladder s)[i]? = some (px, l))
    (hp : p ∈ l.orders b.mem) :
    b.queues.At (b.mem p).orderId ⟨s, i, px, l.view b.mem, (b.mem p).entry⟩ where
  level := by
    rw [queues_ladder, Ladder.getElem?_mapValues, hi]
    rfl
  mem := List.mem_map_of_mem hp
  id := rfl

/-- Every entry of the queues is a queued order. -/
theorem level_of_at {S : Queue.Spot} (hS : b.queues.At id S) : ∃ l p,
    (b.ladder S.side)[S.index]? = some (S.price, l) ∧ p ∈ l.orders b.mem ∧
      b.findId id = some p ∧ S.level = l.view b.mem ∧ S.entry = (b.mem p).entry := by
  have hlevel := hS.level
  rw [queues_ladder, Ladder.getElem?_mapValues, Option.map_eq_some_iff] at hlevel
  obtain ⟨⟨k, l⟩, hi, he⟩ := hlevel
  have hk : k = S.price := congrArg Prod.fst he
  have hl : l.view b.mem = S.level := congrArg Prod.snd he
  have hmem := hS.mem
  rw [← hl, PriceLevel.view, List.mem_map] at hmem
  obtain ⟨p, hp, hep⟩ := hmem
  have hid : (b.mem p).orderId = id := (congrArg Queue.Entry.id hep).trans hS.id
  refine ⟨l, p, hk ▸ hi, hp, ?_, hl.symm, hep.symm⟩
  rw [← hid]
  exact h.mapped S.side k p ⟨l, List.mem_of_getElem? hi, hp⟩

/-- An id stands at one place of the queues at most. -/
theorem distinct : b.queues.Distinct := by
  intro id S S' hS hS'
  obtain ⟨l, p, hi, hp, hf, hlv, he⟩ := h.level_of_at hS
  obtain ⟨l', p', hi', hp', hf', hlv', he'⟩ := h.level_of_at hS'
  obtain rfl : p = p' := Option.some.inj (hf.symm.trans hf')
  have hpl := h.placed ⟨l, List.mem_of_getElem? hi, hp⟩
  have hpl' := h.placed ⟨l', List.mem_of_getElem? hi', hp'⟩
  obtain ⟨s, i, px, L, e⟩ := S
  obtain ⟨s', i', px', L', e'⟩ := S'
  simp only at hi hi' hpl hpl' hlv hlv' he he'
  obtain rfl : s = s' := hpl.2.1.symm.trans hpl'.2.1
  obtain rfl : px = px' := hpl.1.symm.trans hpl'.1
  obtain rfl : i = i' := (h.shelved s).sorted.index_unique s.cmp_strict hi hi'
  have hll : l = l' := by
    rw [hi] at hi'
    exact congrArg Prod.snd (Option.some.inj hi')
  subst hll
  rw [hlv, hlv', he, he']

omit h in
/-- An entry rests where its slot is queued. -/
theorem rests_iff {e : Queue.Entry} :
    b.queues.Rests s px e ↔ ∃ p, b.On s px p ∧ (b.mem p).entry = e := by
  constructor
  · rintro ⟨L, hL, he⟩
    rw [queues_ladder, Ladder.mem_mapValues] at hL
    obtain ⟨l, hl, hv⟩ := hL
    have hL' : L = l.view b.mem := hv.symm
    rw [hL', PriceLevel.view, List.mem_map] at he
    obtain ⟨p, hp, hpe⟩ := he
    exact ⟨p, ⟨l, hl, hp⟩, hpe⟩
  · rintro ⟨p, ⟨l, hl, hp⟩, rfl⟩
    refine ⟨l.view b.mem, ?_, List.mem_map_of_mem hp⟩
    rw [queues_ladder, Ladder.mem_mapValues]
    exact ⟨l, hl, rfl⟩

/-- The queues of a well-formed book are well formed. -/
theorem ordered : b.queues.Ordered where
  sorted s := by
    rw [queues_ladder]
    exact List.pairwise_map.mpr ((h.shelved s).sorted)
  nonempty s n hn := by
    rw [queues_ladder, Ladder.mem_mapValues] at hn
    obtain ⟨l, hl, hv⟩ := hn
    rw [← hv, PriceLevel.view, ne_eq, List.map_eq_nil_iff]
    exact (h.shelved s).nonempty _ hl
  level s n hn := by
    rw [queues_ladder, Ladder.mem_mapValues] at hn
    obtain ⟨l, hl, hv⟩ := hn
    rw [← hv, Queue.Level.Distinct, PriceLevel.view, List.map_map]
    refine List.Nodup.map_on ?_ ((h.shelved s).holds _ hl).list.nodup
    intro p hp q hq he
    have hmp := h.mapped s n.1 p ⟨l, hl, hp⟩
    have hmq := h.mapped s n.1 q ⟨l, hl, hq⟩
    have hid : (b.mem p).orderId = (b.mem q).orderId := he
    rw [hid, hmq] at hmp
    exact (Option.some.inj hmp).symm
  distinct := h.distinct
  bound s n hn e he := by
    obtain ⟨p, hp, rfl⟩ := rests_iff.mp (⟨n.2, hn, he⟩ : b.queues.Rests s n.1 e)
    have hm := h.mapped s n.1 p hp
    exact ⟨(h.table _ p hm).2, h.idBound p⟩

end WellFormed

end OrderBook

end Lob
