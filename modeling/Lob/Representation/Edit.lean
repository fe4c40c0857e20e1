import Lob.Representation.Book

/-!
# Edits of one level

Every operation on a resting order rewrites one price level and the orders in
it, and then possibly unmaps and frees one slot. An edit is described by the
slots the level holds afterwards; the book it leaves is well formed and shows
the queues with that one level written.
-/

namespace Lob

/-- The fields that place an order and name it. -/
structure Order.SamePlace (x y : Order) : Prop where
  orderId : x.orderId = y.orderId
  price : x.price = y.price
  side : x.side = y.side
  stopType : x.stopType = y.stopType

/-- Orders that differ in their links alone are at the same place. -/
theorem Order.samePlace_of_bare {x y : Order} (h : x.bare = y.bare) : x.SamePlace y :=
  ⟨orderId_of_bare h, price_of_bare h, side_of_bare h, stopType_of_bare h⟩

/-- An order is at its own place. -/
theorem Order.SamePlace.refl (x : Order) : x.SamePlace x := ⟨rfl, rfl, rfl, rfl⟩

/-- Two edits in a row that keep the place keep it. -/
theorem Order.SamePlace.trans {x y z : Order} (h : x.SamePlace y) (h' : y.SamePlace z) :
    x.SamePlace z :=
  ⟨h.orderId.trans h'.orderId, h.price.trans h'.price, h.side.trans h'.side,
    h.stopType.trans h'.stopType⟩

namespace OrderBook

variable {b b' b'' : OrderBook} {s t : Side} {px : Int} {i id : Nat} {o p : Ptr}
  {l l' : PriceLevel} {m : Memory} {xs : List Ptr} {B' B'' : Queue.Book}

/-- Ids in use stay at their slot or are unmapped for good. -/
structure Ages (b b' : OrderBook) : Prop where
  next : b.nextOrderId ≤ b'.nextOrderId
  ids : ∀ j < b.nextOrderId, b'.findId j = none ∨ b'.findId j = b.findId j

/-- Ids do not age without a call. -/
theorem Ages.refl (b : OrderBook) : Ages b b := ⟨Nat.le_refl _, fun _ _ => Or.inr rfl⟩

/-- An id that two steps leave mapped has kept its slot in both. -/
theorem Ages.trans (h : Ages b b') (h' : Ages b' b'') : Ages b b'' where
  next := Nat.le_trans h.next h'.next
  ids j hj := by
    rcases h'.ids j (Nat.lt_of_lt_of_le hj h.next) with hn | he
    · exact Or.inl hn
    · rw [he]
      exact h.ids j hj

/-- A step that leaves a well-formed book with the queues `B'` and touches no stop. -/
structure Refines (b b' : OrderBook) (B' : Queue.Book) : Prop where
  wf : b'.WellFormed
  queues : b'.queues = B'
  stops : b'.stopSlot = b.stopSlot
  ages : Ages b b'
  storage : b'.pendingStopStorage = b.pendingStopStorage
  capacity : b'.pool.capacity = b.pool.capacity
  mode : b'.pool.mode = b.pool.mode

/-- Doing nothing refines doing nothing. -/
theorem Refines.refl (h : b.WellFormed) : Refines b b b.queues :=
  ⟨h, rfl, rfl, Ages.refl b, rfl, rfl, rfl⟩

/-- Steps that refine compose, and the queues are those of the second. -/
theorem Refines.trans (h : Refines b b' B') (h' : Refines b' b'' B'') : Refines b b'' B'' :=
  ⟨h'.wf, h'.queues, h'.stops.trans h.stops, h.ages.trans h'.ages, h'.storage.trans h.storage,
    h'.capacity.trans h.capacity, h'.mode.trans h.mode⟩

/-- Writing a ladder leaves the slots alone. -/
@[simp] theorem mem_setLadder (v : PriceLadder) : (b.setLadder s v).mem = b.mem := by
  cases s <;> rfl

/-- Writing a ladder leaves the id table alone. -/
@[simp] theorem idSlots_setLadder (v : PriceLadder) : (b.setLadder s v).idSlots = b.idSlots := by
  cases s <;> rfl

/-- Writing a ladder uses no id. -/
@[simp] theorem nextOrderId_setLadder (v : PriceLadder) :
    (b.setLadder s v).nextOrderId = b.nextOrderId := by
  cases s <;> rfl

/-- Writing a ladder leaves the pool alone. -/
@[simp] theorem pool_setLadder (v : PriceLadder) : (b.setLadder s v).pool = b.pool := by
  cases s <;> rfl

/-- Writing a ladder leaves the stops alone. -/
@[simp] theorem pendingStopStorage_setLadder (v : PriceLadder) :
    (b.setLadder s v).pendingStopStorage = b.pendingStopStorage := by
  cases s <;> rfl

/-- The ladder written is the one read. -/
@[simp] theorem ladder_setLadder_self (v : PriceLadder) : (b.setLadder s v).ladder s = v := by
  cases s <;> rfl

/-- The other side keeps its ladder. -/
theorem ladder_setLadder_of_ne (v : PriceLadder) (h : t ≠ s) :
    (b.setLadder s v).ladder t = b.ladder t := by
  cases s <;> cases t <;> first | rfl | exact absurd rfl h

/-- The last write to a ladder counts. -/
@[simp] theorem setLadder_setLadder (v w : PriceLadder) :
    (b.setLadder s v).setLadder s w = b.setLadder s w := by
  cases s <;> rfl

/-- Writing slots leaves the ladders alone. -/
@[simp] theorem ladder_withMem : { b with mem := m }.ladder s = b.ladder s := by
  cases s <;> rfl

/-- Writing a ladder moves no id. -/
@[simp] theorem findId_setLadder (v : PriceLadder) (j : Nat) :
    (b.setLadder s v).findId j = b.findId j :=
  findId_congr (idSlots_setLadder v) j

/-- Writing slots moves no id. -/
@[simp] theorem findId_withMem (j : Nat) : { b with mem := m }.findId j = b.findId j :=
  findId_congr rfl j

/-- Freeing a slot unmaps no id. -/
@[simp] theorem findId_deallocate (j : Nat) : (b.deallocate o).findId j = b.findId j :=
  findId_congr rfl j

/-- Unmapping an id leaves the slots alone. -/
@[simp] theorem mem_dropId : (b.dropId id).mem = b.mem := by
  rw [dropId]
  split <;> rfl

/-- Unmapping an id leaves the ladders alone. -/
@[simp] theorem ladder_dropId : (b.dropId id).ladder s = b.ladder s := by
  rw [dropId]
  split <;> cases s <;> rfl

/-- An unmapped id is not handed out again. -/
@[simp] theorem nextOrderId_dropId : (b.dropId id).nextOrderId = b.nextOrderId := by
  rw [dropId]
  split <;> rfl

/-- Unmapping an id frees no slot. -/
@[simp] theorem pool_dropId : (b.dropId id).pool = b.pool := by
  rw [dropId]
  split <;> rfl

/-- Unmapping an id leaves the stops alone. -/
@[simp] theorem pendingStopStorage_dropId :
    (b.dropId id).pendingStopStorage = b.pendingStopStorage := by
  rw [dropId]
  split <;> rfl

/-- Freeing a slot leaves the ladders alone. -/
@[simp] theorem ladder_deallocate : (b.deallocate o).ladder s = b.ladder s := by
  cases s <;> rfl

/-- Write a level back, dropping it when it has no orders. -/
def putLevel (b : OrderBook) (s : Side) (i : Nat) (px : Int) (l : PriceLevel) : OrderBook :=
  b.setLadder s (putLadder (b.ladder s) i px l)

/-- Writing a level with orders. -/
theorem setLevel_eq_put (h : l.cnt ≠ 0) : b.setLevel s i px l = b.putLevel s i px l := by
  rw [setLevel, putLevel, putLadder, if_neg h]

/-- Writing a level and erasing it when its count is zero. -/
theorem eraseLevel_eq_put : (if l.cnt = 0 then (b.setLevel s i px l).eraseLevel s i
    else b.setLevel s i px l) = b.putLevel s i px l := by
  split
  · next h =>
    rw [eraseLevel, setLevel, putLevel, putLadder, if_pos h, ladder_setLadder_self,
      setLadder_setLadder, List.eraseIdx_set_eq]
  · next h => exact setLevel_eq_put h

/-- Unmapping the slots in `gone`, after any edit that leaves every order at its place. -/
structure Shrinks (b b' : OrderBook) (gone : Ptr → Prop) : Prop where
  place : ∀ p, (b'.mem p).SamePlace (b.mem p)
  shelved : ∀ t, Shelved b'.mem t (b'.ladder t)
  on : ∀ t k p, b'.On t k p ↔ b.On t k p ∧ ¬ gone p
  find : ∀ j p, b'.findId j = some p ↔ b.findId j = some p ∧ ¬ gone p
  stop : ∀ j p, b.findId j = some p → (b.mem p).stopType ≠ .none → b'.mem p = b.mem p
  next : b'.nextOrderId = b.nextOrderId
  pool : b'.pool.Owns fun q => b.Live q ∧ ¬ gone q

/-- A book that has only lost slots is well formed. -/
theorem Shrinks.wellFormed {gone : Ptr → Prop} (h : b.WellFormed) (hb : Shrinks b b' gone) :
    b'.WellFormed where
  shelved := hb.shelved
  mapped t k p ho := by
    obtain ⟨ho, hg⟩ := (hb.on t k p).mp ho
    rw [(hb.place p).orderId, hb.find]
    exact ⟨h.mapped t k p ho, hg⟩
  table j p hf := by
    rw [(hb.place p).orderId]
    exact h.table j p ((hb.find j p).mp hf).1
  slotId p q hf := by
    rw [(hb.place p).orderId, hb.find] at hf
    exact h.slotId p q hf.1
  idBound p := by
    rw [(hb.place p).orderId, hb.next]
    exact h.idBound p
  resting j p hf hs := by
    obtain ⟨hf, hg⟩ := (hb.find j p).mp hf
    rw [(hb.place p).stopType] at hs
    rw [(hb.place p).side, (hb.place p).price, hb.on]
    exact ⟨h.resting j p hf hs, hg⟩
  unlinked j p hf hs := by
    obtain ⟨hf, _⟩ := (hb.find j p).mp hf
    rw [(hb.place p).stopType] at hs
    rw [hb.stop j p hf hs]
    exact h.unlinked j p hf hs
  pool := by
    refine hb.pool.congr fun q => ?_
    constructor
    · rintro ⟨j, hf⟩
      obtain ⟨hf, hg⟩ := (hb.find j q).mp hf
      exact ⟨⟨j, hf⟩, hg⟩
    · rintro ⟨⟨j, hf⟩, hg⟩
      exact ⟨j, (hb.find j q).mpr ⟨hf, hg⟩⟩

/-- Unmapping resting orders only keeps every stop. -/
theorem Shrinks.stopSlot {gone : Ptr → Prop} (hb : Shrinks b b' gone)
    (hg : ∀ p, gone p → (b.mem p).stopType = .none) : b'.stopSlot = b.stopSlot := by
  funext j
  apply Option.ext
  rintro ⟨p, x⟩
  rw [stopSlot_eq_some, stopSlot_eq_some, hb.find, (hb.place p).stopType]
  constructor
  · rintro ⟨⟨hf, _⟩, hs, hx⟩
    rw [hb.stop j p hf hs] at hx
    exact ⟨hf, hs, hx⟩
  · rintro ⟨hf, hs, hx⟩
    refine ⟨⟨hf, fun hgone => hs (hg p hgone)⟩, hs, ?_⟩
    rw [hb.stop j p hf hs]
    exact hx

/-- Unmapping gives no id a new slot. -/
theorem Shrinks.ages {gone : Ptr → Prop} (hb : Shrinks b b' gone) : Ages b b' where
  next := Nat.le_of_eq hb.next.symm
  ids j _ := by
    cases hf : b'.findId j with
    | none => exact Or.inl rfl
    | some p => exact Or.inr ((hb.find j p).mp hf).1.symm

namespace WellFormed

section Put

variable (h : b.WellFormed) (hi : (b.ladder s)[i]? = some (px, l)) (hl : l'.Holds m xs)
  (hxs : ∀ p ∈ xs, p ∈ l.orders b.mem) (hplace : ∀ p, (m p).SamePlace (b.mem p))
  (hframe : ∀ p, p ∉ l.orders b.mem → m p = b.mem p)
include h hi

/-- The orders of other levels lie outside an edited level. -/
theorem not_mem_of_on {k : Int} (ho : b.On t k p) (hne : ¬ (t = s ∧ k = px)) :
    p ∉ l.orders b.mem := by
  intro hp
  have hp₁ := h.placed ho
  have hp₂ := h.placed ⟨l, List.mem_of_getElem? hi, hp⟩
  exact hne ⟨hp₁.2.1.symm.trans hp₂.2.1, hp₁.1.symm.trans hp₂.1⟩

include hframe in
/-- The orders of the other levels are not written. -/
theorem frame_other : ∀ n ∈ b.ladder t, ¬ (t = s ∧ n.1 = px) → ∀ p ∈ n.2.orders b.mem,
    m p = b.mem p :=
  fun n hn hne p hp => hframe p (h.not_mem_of_on hi ⟨n.2, hn, hp⟩ hne)

include hl hxs hplace hframe in
/-- Every ladder is still shelved once the level has been written. -/
theorem shelved_put (t : Side) :
    Shelved m t (({ b with mem := m }.putLevel s i px l').ladder t) := by
  by_cases ht : t = s
  · subst ht
    rw [putLevel, ladder_setLadder_self, ladder_withMem]
    refine (h.shelved t).put hi hl ?_ fun n hn hk => h.frame_other hi hframe n hn (by simp [hk])
    intro p hp
    have hpl := h.placed ⟨l, List.mem_of_getElem? hi, hxs p hp⟩
    have he := hplace p
    exact ⟨he.price.trans hpl.1, he.side.trans hpl.2.1, he.stopType.trans hpl.2.2⟩
  · rw [putLevel, ladder_setLadder_of_ne _ ht, ladder_withMem]
    exact (h.shelved t).frame fun n hn => h.frame_other hi hframe n hn (by simp [ht])

include hl hframe in
/-- The written level holds the slots it is given, and the others theirs. -/
theorem on_put (t : Side) (k : Int) (p : Ptr) :
    ({ b with mem := m }.putLevel s i px l').On t k p ↔
      (t = s ∧ k = px) ∧ p ∈ xs ∨ ¬ (t = s ∧ k = px) ∧ b.On t k p := by
  by_cases ht : t = s
  · subst ht
    rw [On, putLevel, ladder_setLadder_self, ladder_withMem, mem_setLadder,
      (h.shelved t).queued_put hi hl fun n hn hk => h.frame_other hi hframe n hn (by simp [hk])]
    simp only [true_and, On]
  · have hq := (h.shelved t).queued_frame
      (fun n hn => h.frame_other hi hframe n hn (by simp [ht])) k p
    have hv : ({ b with mem := m }.putLevel s i px l').ladder t = b.ladder t := by
      rw [putLevel, ladder_setLadder_of_ne _ ht, ladder_withMem]
    have hm : ({ b with mem := m }.putLevel s i px l').mem = m := mem_setLadder _
    rw [On, hv, hm, hq]
    simp only [ht, false_and, not_false_eq_true, true_and, false_or, On]

include hl hframe in
/-- The queues show the edit as one level written. -/
theorem queues_put : ({ b with mem := m }.putLevel s i px l').queues =
    b.queues.put s i px ⟨l'.aggQty, xs.map fun p => (m p).entry⟩ := by
  have hself := (h.shelved s).view_put hi hl fun n hn hk =>
    h.frame_other hi hframe n hn (by simp [hk])
  have hother (t : Side) (ht : t ≠ s) : Ladder.mapValues (PriceLevel.view m) (b.ladder t) =
      Ladder.mapValues (PriceLevel.view b.mem) (b.ladder t) :=
    Ladder.mapValues_congr fun n hn =>
      (h.shelved t).view_frame hn (h.frame_other hi hframe n hn (by simp [ht]))
  have hnil : xs.map (fun p => (m p).entry) = [] ↔ xs = [] := List.map_eq_nil_iff
  cases s with
  | buy =>
    have ha := hother .sell (by decide)
    simp only [ladder] at hself ha
    simp only [queues, putLevel, setLadder, ladder, hself, ha, Queue.Book.put, Queue.Book.ladder,
      Queue.Book.setLadder, hnil]
  | sell =>
    have hb := hother .buy (by decide)
    simp only [ladder] at hself hb
    simp only [queues, putLevel, setLadder, ladder, hself, hb, Queue.Book.put, Queue.Book.ladder,
      Queue.Book.setLadder, hnil]

include hframe in
/-- Stops are outside every level. -/
theorem frame_stop (hs : (b.mem p).stopType ≠ .none) : m p = b.mem p :=
  hframe p fun hp => hs (h.placed ⟨l, List.mem_of_getElem? hi, hp⟩).2.2

include hl hframe in
/-- Queued slots after the edit, when the level has lost the slots in `gone`. -/
theorem on_put_gone {gone : Ptr → Prop} (hgone : ∀ p, gone p → p ∈ l.orders b.mem)
    (hxs : ∀ p, p ∈ xs ↔ p ∈ l.orders b.mem ∧ ¬ gone p) (t : Side) (k : Int) (p : Ptr) :
    ({ b with mem := m }.putLevel s i px l').On t k p ↔ b.On t k p ∧ ¬ gone p := by
  rw [h.on_put hi hl hframe]
  constructor
  · rintro (⟨⟨rfl, rfl⟩, hp⟩ | ⟨hk, hp⟩)
    · exact ⟨⟨l, List.mem_of_getElem? hi, ((hxs p).mp hp).1⟩, ((hxs p).mp hp).2⟩
    · exact ⟨hp, fun hg => h.not_mem_of_on hi hp hk (hgone p hg)⟩
  · rintro ⟨hp, hg⟩
    by_cases hk : t = s ∧ k = px
    · obtain ⟨rfl, rfl⟩ := hk
      obtain ⟨j, l₂, _, hj, hpl⟩ := h.findLevel_of_on hp
      have hl₂ : l₂ = l := (h.shelved t).sorted.value_unique t.cmp_strict
        (List.mem_of_getElem? hj) (List.mem_of_getElem? hi)
      exact Or.inl ⟨⟨rfl, rfl⟩, (hxs p).mpr ⟨hl₂ ▸ hpl, hg⟩⟩
    · exact Or.inr ⟨hk, hp⟩

include hl hplace hframe in
/-- An edit that keeps the orders of the level. -/
theorem edit (hxs : ∀ p, p ∈ xs ↔ p ∈ l.orders b.mem) :
    Refines b ({ b with mem := m }.putLevel s i px l')
      (b.queues.put s i px ⟨l'.aggQty, xs.map fun p => (m p).entry⟩) := by
  have hmem : ({ b with mem := m }.putLevel s i px l').mem = m := mem_setLadder _
  have hfind (j : Nat) : ({ b with mem := m }.putLevel s i px l').findId j = b.findId j := by
    rw [putLevel, findId_setLadder, findId_withMem]
  have hb : Shrinks b ({ b with mem := m }.putLevel s i px l') fun _ => False := by
    constructor
    · rw [hmem]
      exact hplace
    · rw [hmem]
      exact h.shelved_put hi hl (fun p hp => (hxs p).mp hp) hplace hframe
    · exact h.on_put_gone hi hl hframe (by simp) (by simpa using hxs)
    · simp only [hfind, not_false_eq_true, and_true, implies_true]
    · intro j p _ hs
      rw [hmem]
      exact h.frame_stop hi hframe hs
    · exact nextOrderId_setLadder _
    · rw [putLevel, pool_setLadder]
      exact h.pool.congr (by simp)
  exact ⟨hb.wellFormed h, h.queues_put hi hl hframe, hb.stopSlot (by simp), hb.ages,
    pendingStopStorage_setLadder _, by rw [putLevel, pool_setLadder],
    by rw [putLevel, pool_setLadder]⟩

include hl hplace hframe in
/-- An edit that takes one order out of the level, unmaps it and frees its slot. -/
theorem release (ho : o ∈ l.orders b.mem) (hxs : ∀ p, p ∈ xs ↔ p ∈ l.orders b.mem ∧ p ≠ o) :
    Refines b ((({ b with mem := m }.putLevel s i px l').dropId (b.mem o).orderId).deallocate o)
      (b.queues.put s i px ⟨l'.aggQty, xs.map fun p => (m p).entry⟩) := by
  have hoOn : b.On s px o := ⟨l, List.mem_of_getElem? hi, ho⟩
  have hoMap := h.mapped s px o hoOn
  have hgone (p : Ptr) (hp : p = o) : p ∈ l.orders b.mem := hp ▸ ho
  have hon := h.on_put_gone hi hl hframe hgone hxs
  have hshelved := h.shelved_put hi hl (fun p hp => ((hxs p).mp hp).1) hplace hframe
  have hqueues := h.queues_put hi hl hframe
  generalize hb₁ : { b with mem := m }.putLevel s i px l' = b₁ at *
  have hmem : ((b₁.dropId (b.mem o).orderId).deallocate o).mem = m := by
    change (b₁.dropId _).mem = m
    rw [mem_dropId, ← hb₁]
    exact mem_setLadder _
  have hladder (t : Side) : ((b₁.dropId (b.mem o).orderId).deallocate o).ladder t =
      b₁.ladder t := by rw [ladder_deallocate, ladder_dropId]
  have hpool : ((b₁.dropId (b.mem o).orderId).deallocate o).pool = b.pool.deallocate o := by
    change (b₁.dropId _).pool.deallocate o = _
    rw [pool_dropId, ← hb₁, putLevel, pool_setLadder]
  have hnext : ((b₁.dropId (b.mem o).orderId).deallocate o).nextOrderId = b.nextOrderId := by
    change (b₁.dropId _).nextOrderId = _
    rw [nextOrderId_dropId, ← hb₁]
    exact nextOrderId_setLadder _
  have hfind (j : Nat) (p : Ptr) : ((b₁.dropId (b.mem o).orderId).deallocate o).findId j =
      some p ↔ b.findId j = some p ∧ ¬ p = o := by
    rw [findId_deallocate, findId_dropId, ← hb₁, putLevel, findId_setLadder, findId_withMem]
    constructor
    · intro hf
      split at hf
      · contradiction
      · next hj =>
        refine ⟨hf, ?_⟩
        rintro rfl
        exact hj (h.table j p hf).1.symm
    · rintro ⟨hf, hp⟩
      rw [if_neg, hf]
      rintro rfl
      exact hp (Option.some.inj (hf.symm.trans hoMap))
  have hb : Shrinks b ((b₁.dropId (b.mem o).orderId).deallocate o) fun p => p = o := by
    constructor
    · rw [hmem]
      exact hplace
    · intro t
      rw [hmem, hladder]
      exact hshelved t
    · intro t k p
      have hm : b₁.mem = m := by
        rw [← hb₁]
        exact mem_setLadder _
      rw [← hon, On, On, hmem, hladder, hm]
    · exact hfind
    · intro j p _ hs
      rw [hmem]
      exact h.frame_stop hi hframe hs
    · exact hnext
    · rw [hpool]
      exact h.pool.deallocate ⟨_, hoMap⟩
  refine ⟨hb.wellFormed h, ?_, hb.stopSlot ?_, hb.ages, ?_, ?_, ?_⟩
  · rw [← hqueues, queues, queues, hmem, hnext]
    have hbuy := hladder .buy
    have hsell := hladder .sell
    simp only [ladder] at hbuy hsell
    rw [hbuy, hsell, ← hb₁, putLevel, mem_setLadder, nextOrderId_setLadder]
  · rintro p rfl
    exact (h.placed hoOn).2.2
  · change (b₁.dropId _).pendingStopStorage = _
    rw [pendingStopStorage_dropId, ← hb₁]
    exact pendingStopStorage_setLadder _
  · rw [hpool, OrderPool.deallocate_capacity.1]
  · rw [hpool, OrderPool.deallocate_capacity.2]

end Put

end WellFormed

end OrderBook

end Lob
