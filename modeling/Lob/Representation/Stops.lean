import Lob.Core.Word
import Lob.Representation.Growth

/-!
# Calls on pending stops

A pending stop is mapped by the id table and queued nowhere. The calls by id find
its slot all the same and go on to the level at its limit price, when there is
one. Writing the slot shows nowhere in the ladders; what the calls do to that
level is what can show.
-/

namespace Lob

/-- An aggregate stays under an adjustment by zero, and at zero under one downwards. -/
theorem adjusted_eq_self {agg : Qty} {delta : Int64} :
    adjusted agg delta = agg ↔ delta = 0 ∨ delta < 0 ∧ agg = 0 := by
  unfold adjusted decreased
  by_cases hd : 0 ≤ delta
  · have hn : ¬ delta < 0 := Int64.not_lt.mpr hd
    have hself : agg + delta.toUInt64 = agg ↔ delta.toUInt64 = 0 := by grind
    rw [if_pos hd, hself, Word.toUInt64_eq_zero]
    simp only [hn, false_and, or_false]
  · have hn : delta < 0 := Int64.not_le.mp hd
    have hne : delta ≠ 0 := by
      rintro rfl
      exact hd (Int64.le_refl 0)
    have hamt : (-delta).toUInt64 ≠ 0 := mt Word.toUInt64_neg_eq_zero.mp hne
    rw [if_neg hd]
    simp only [hne, hn, true_and, false_or]
    constructor
    · intro h
      split at h
      · exact h.symm
      · exact absurd (show (-delta).toUInt64 = 0 by grind) hamt
    · rintro rfl
      rw [if_pos]
      exact UInt64.pos_iff_ne_zero.mpr hamt

/-- An order linked nowhere that is taken out of a level leaves it without ends. -/
theorem PriceLevel.remove_head {m : Memory} {l : PriceLevel} {o : Ptr} (hp : (m o).prev = none)
    (hn : (m o).next = none) : (l.remove m o).2.head = none := by
  simp only [remove, hp, hn]

/-- An order appended to a level without ends is the first in its queue. -/
theorem PriceLevel.mem_orders_pushBack {m : Memory} {l : PriceLevel} {o : Ptr}
    (hh : l.head = none) : o ∈ (l.pushBack m o).2.orders (l.pushBack m o).1 := by
  have hhead : (l.pushBack m o).2.head = some o := by
    rw [pushBack, hh]
    rfl
  rw [orders, pushBack_cnt, hhead, Chain.walk]
  exact List.mem_cons_self

namespace OrderBook

variable {b b' : OrderBook} {s : Side} {px : Int} {i id : Nat} {o p : Ptr} {l : PriceLevel}
  {x : Order} {f : Order → Order} {delta : Int64} {qty display newRem : Qty}

/-- An order linked nowhere that is replenished at a level is the first in its queue. -/
theorem tryReplenishIceberg_unlinked {m m₁ : Memory} {l₁ : PriceLevel} (hp : (m o).prev = none)
    (hn : (m o).next = none) (hr : tryReplenishIceberg m l o = some (m₁, l₁)) :
    o ∈ l₁.orders m₁ ∧ (m₁ o).orderId = (m o).orderId := by
  rw [tryReplenishIceberg_eq] at hr
  split at hr
  · have hm₁ : ((l.remove m o).2.pushBack ((l.remove m o).1.modify o Order.refill) o).1 = m₁ :=
      congrArg Prod.fst (Option.some.inj hr)
    have hl₁ : ((l.remove m o).2.pushBack ((l.remove m o).1.modify o Order.refill) o).2 = l₁ :=
      congrArg Prod.snd (Option.some.inj hr)
    rw [← hm₁, ← hl₁]
    refine ⟨PriceLevel.mem_orders_pushBack (PriceLevel.remove_head hp hn), ?_⟩
    rw [Order.orderId_of_bare PriceLevel.pushBack_bare, Memory.modify_self]
    exact (Order.orderId_of_bare PriceLevel.remove_bare :)
  · contradiction

/-- What a side shows: each level's price, count, aggregate and queue of entries. -/
def levels (b : OrderBook) (s : Side) : List (Int × Nat × Queue.Level) :=
  Ladder.mapValues (fun l => (l.cnt, l.view b.mem)) (b.ladder s)

/-- Both sides show what they showed. -/
def Untouched (b b' : OrderBook) : Prop := ∀ s, b'.levels s = b.levels s

theorem Untouched.symm (h : Untouched b b') : Untouched b' b := fun s => (h s).symm

/-- A level of the later book stood in the earlier one. -/
theorem Untouched.level (h : Untouched b b') (hl : (px, l) ∈ b'.ladder s) :
    ∃ l₀, (px, l₀) ∈ b.ladder s ∧ l₀.cnt = l.cnt ∧ l₀.view b.mem = l.view b'.mem := by
  have hm : (px, l.cnt, l.view b'.mem) ∈ b'.levels s := Ladder.mem_mapValues.mpr ⟨l, hl, rfl⟩
  rw [h s] at hm
  obtain ⟨l₀, hl₀, he⟩ := Ladder.mem_mapValues.mp hm
  exact ⟨l₀, hl₀, congrArg Prod.fst he, congrArg Prod.snd he⟩

/-- Adjust the aggregate of the level at a price, when there is one. -/
def adjustLevel (b : OrderBook) (s : Side) (px : Int) (delta : Int64) : OrderBook :=
  match b.findLevel s px with
  | some (i, l) => b.setLevel s i px (l.adjustAggregate delta)
  | none => b

theorem adjustLevel_eq_self (hs : Ladder.Sorted s.cmp (b.ladder s))
    (h : ∀ n ∈ b.ladder s, n.1 = px → adjusted n.2.aggQty delta = n.2.aggQty) :
    b.adjustLevel s px delta = b := by
  unfold adjustLevel
  cases hf : b.findLevel s px with
  | none => rfl
  | some r =>
    obtain ⟨i, l⟩ := r
    have hi := (hs.find_eq_some s.cmp_strict).mp hf
    have hl : l.adjustAggregate delta = l := by
      have ha := h (px, l) (List.mem_of_getElem? hi) rfl
      simp only [PriceLevel.adjustAggregate, ha]
    have hset : (b.ladder s).set i (px, l) = b.ladder s := by
      obtain ⟨hlt, he⟩ := List.getElem?_eq_some_iff.mp hi
      rw [← he, List.set_getElem_self]
    simp only [hl, setLevel, hset]
    cases s <;> rfl

/-- Adjusting a level shows, but for an adjustment that keeps its aggregate. -/
theorem Untouched.of_adjustLevel (hs : Ladder.Sorted s.cmp (b.ladder s))
    (h : Untouched b (b'.adjustLevel s px delta)) (hb : b'.ladder s = b.ladder s) :
    ∀ n ∈ b.ladder s, n.1 = px → adjusted n.2.aggQty delta = n.2.aggQty := by
  rintro ⟨k, l⟩ hn rfl
  obtain ⟨i, hf, hi⟩ := hs.find_of_mem s.cmp_strict hn
  have hl : b'.adjustLevel s k delta = b'.setLevel s i k (l.adjustAggregate delta) := by
    rw [adjustLevel, findLevel, hb, hf]
  have hmem : (k, l.adjustAggregate delta) ∈ (b'.adjustLevel s k delta).ladder s := by
    rw [hl, setLevel, ladder_setLadder_self, hb]
    exact (hs.mem_set s.cmp_strict hi).mpr (Or.inl rfl)
  obtain ⟨l₀, hl₀, _, hv⟩ := h.level hmem
  have he := hs.value_unique s.cmp_strict hl₀ hn
  have hagg : l₀.aggQty = adjusted l.aggQty delta := congrArg Queue.Level.agg hv
  rw [← hagg, he]

section Stop

variable (h : b.WellFormed) (hx : b.stopSlot id = some (o, x))
include h hx

/-- A stop is queued nowhere. -/
theorem not_on_stop (s : Side) (px : Int) : ¬ b.On s px o :=
  fun ho => (stopSlot_eq_some.mp hx).2.1 (h.placed ho).2.2

/-- The queued orders keep their contents when a stop is written. -/
theorem writeOrder_frame (f : Order → Order) {n : Int × PriceLevel} (hn : n ∈ b.ladder s)
    (hp : p ∈ n.2.orders b.mem) : (b.writeOrder o f).mem p = b.mem p := by
  refine Memory.modify_of_ne ?_
  rintro rfl
  exact not_on_stop h hx s n.1 ⟨n.2, hn, hp⟩

/-- Writing a stop shows nowhere. -/
theorem untouched_writeOrder (f : Order → Order) : Untouched b (b.writeOrder o f) := by
  intro s
  unfold levels
  rw [writeOrder, ladder_withMem]
  refine Ladder.mapValues_congr fun n hn => ?_
  have hv : n.2.view (b.writeOrder o f).mem = n.2.view b.mem :=
    (h.shelved s).view_frame hn fun p hp => writeOrder_frame h hx f hn hp
  exact Prod.ext rfl hv

/-- Writing a stop and adjusting the level at a price shows unless the level's aggregate stays. -/
theorem untouched_adjustLevel_iff (f : Order → Order) :
    Untouched b ((b.writeOrder o f).adjustLevel s px delta) ↔
      ∀ n ∈ b.ladder s, n.1 = px → adjusted n.2.aggQty delta = n.2.aggQty := by
  have hsorted := (h.shelved s).sorted
  have hladder : (b.writeOrder o f).ladder s = b.ladder s := ladder_withMem
  constructor
  · intro hu
    exact Untouched.of_adjustLevel hsorted hu hladder
  · intro hadj
    rw [adjustLevel_eq_self (hladder ▸ hsorted) (hladder ▸ hadj)]
    exact untouched_writeOrder h hx f

/-- A stop stays well placed when it is written. -/
theorem wellFormed_writeOrder (hf : Order.Quiet f) : (b.writeOrder o f).WellFormed := by
  have hplace (p : Ptr) : ((b.writeOrder o f).mem p).SamePlace (b.mem p) := hf.samePlace
  have hframe (s : Side) (n : Int × PriceLevel) (hn : n ∈ b.ladder s) (p : Ptr)
      (hp : p ∈ n.2.orders b.mem) := writeOrder_frame h hx f hn hp
  have hfind (j : Nat) : (b.writeOrder o f).findId j = b.findId j := rfl
  have hladder (s : Side) : (b.writeOrder o f).ladder s = b.ladder s := ladder_withMem
  have hon (s : Side) (k : Int) (p : Ptr) : (b.writeOrder o f).On s k p ↔ b.On s k p := by
    rw [On, hladder]
    exact (h.shelved s).queued_frame (hframe s) k p
  constructor
  · intro s
    rw [hladder]
    exact (h.shelved s).frame (hframe s)
  · intro s k p ho
    rw [(hplace p).orderId]
    exact h.mapped s k p ((hon s k p).mp ho)
  · intro j p hj
    rw [(hplace p).orderId]
    exact h.table j p hj
  · intro p q hj
    rw [(hplace p).orderId] at hj
    exact h.slotId p q hj
  · intro p
    rw [(hplace p).orderId]
    exact h.idBound p
  · intro j p hj hs
    rw [(hplace p).stopType] at hs
    rw [(hplace p).side, (hplace p).price, hon]
    exact h.resting j p hj hs
  · intro j p hj hs
    rw [(hplace p).stopType] at hs
    have hlinks : ((b.writeOrder o f).mem p).prev = (b.mem p).prev ∧
        ((b.writeOrder o f).mem p).next = (b.mem p).next := by
      by_cases hp : p = o
      · subst hp
        simp only [writeOrder, Memory.modify_self, hf.prev, hf.next, and_self]
      · simp only [writeOrder, Memory.modify_of_ne hp, and_self]
    rw [hlinks.1, hlinks.2]
    exact h.unlinked j p hj hs
  · exact h.pool

omit h hx in
/-- Writing a stop registers and drops none. -/
theorem stopSlot_writeOrder (hf : Order.Quiet f) {j : Nat} {y : Order}
    (hy : (b.writeOrder o f).stopSlot j = some (p, y)) : ∃ z, b.stopSlot j = some (p, z) := by
  obtain ⟨hj, hs, _⟩ := stopSlot_eq_some.mp hy
  have hplace : ((b.writeOrder o f).mem p).SamePlace (b.mem p) := hf.samePlace
  rw [hplace.stopType] at hs
  exact ⟨(b.mem p).bare, stopSlot_eq_some.mpr ⟨hj, hs, rfl⟩⟩

end Stop

/-- No level stands at the limit price of stop `x`, or a change of its remaining quantity to
`newRem` leaves the aggregate there: it is no change, or a decrease and the aggregate is zero. -/
def Harmless (b : OrderBook) (x : Order) (newRem : Qty) : Prop :=
  ∀ n ∈ b.ladder x.side, n.1 = x.price →
    newRem = x.remainingQty ∨ newRem.toInt64 - x.remainingQty.toInt64 < 0 ∧ n.2.aggQty = 0

instance (b : OrderBook) (x : Order) (newRem : Qty) : Decidable (b.Harmless x newRem) :=
  inferInstanceAs (Decidable (∀ n ∈ b.ladder x.side, _ → _))

theorem harmless_iff : b.Harmless x newRem ↔ ∀ n ∈ b.ladder x.side, n.1 = x.price →
    adjusted n.2.aggQty (newRem.toInt64 - x.remainingQty.toInt64) = n.2.aggQty := by
  unfold Harmless
  simp only [adjusted_eq_self, Word.toInt64_sub_eq_zero]

/-- A call on the stop in slot `o` shows unless `C` holds, and then it writes that slot only. -/
structure SparedIff (b b' : OrderBook) (o : Ptr) (C : Prop) : Prop where
  shows : Untouched b b' → C
  writes : C → ∃ f, Order.Quiet f ∧ b' = b.writeOrder o f

theorem writeOrder_self (b : OrderBook) (o : Ptr) : b.writeOrder o (fun y => y) = b := by
  have hm : (b.mem.modify o fun y => y) = b.mem := Memory.modify_id b.mem o
  rw [writeOrder, hm]

/-- A call that does nothing spares the levels. -/
theorem SparedIff.of_eq {C : Prop} (hb : b' = b) (hC : C) : SparedIff b b' o C where
  shows _ := hC
  writes _ := ⟨fun y => y, Order.quiet_id, hb.trans (writeOrder_self b o).symm⟩

/-- A call that shows in any case. -/
theorem SparedIff.of_not {C : Prop} (hu : ¬ Untouched b b') (hC : ¬ C) : SparedIff b b' o C where
  shows h := absurd h hu
  writes h := absurd h hC

section Calls

variable (h : b.WellFormed) (hx : b.stopSlot id = some (o, x))
include h hx

theorem SparedIff.untouched_iff {C : Prop} (hs : SparedIff b b' o C) : Untouched b b' ↔ C := by
  refine ⟨hs.shows, fun hC => ?_⟩
  obtain ⟨f, _, rfl⟩ := hs.writes hC
  exact untouched_writeOrder h hx f

/-- Changing the remaining quantity of a stop, with the aggregate at its limit price. -/
theorem sparedIff_adjustLevel (hf : Order.Quiet f) (newRem : Qty) : SparedIff b
    ((b.writeOrder o f).adjustLevel x.side x.price (newRem.toInt64 - x.remainingQty.toInt64)) o
    (b.Harmless x newRem) := by
  rw [harmless_iff]
  constructor
  · exact (untouched_adjustLevel_iff h hx f).mp
  · intro hadj
    have hladder : (b.writeOrder o f).ladder x.side = b.ladder x.side := ladder_withMem
    refine ⟨f, hf, adjustLevel_eq_self ?_ ?_⟩
    · rw [hladder]
      exact (h.shelved x.side).sorted
    · rw [hladder]
      exact hadj

/-- A level that shows the id of a stop stood in no book before. -/
theorem not_untouched_of_queued {n : Int × PriceLevel} (hn : n ∈ b'.ladder s)
    (hp : p ∈ n.2.orders b'.mem) (hid : (b'.mem p).orderId = id) : ¬ Untouched b b' := by
  intro hu
  obtain ⟨l₀, hl₀, _, hv⟩ := hu.level hn
  have hmem : (b'.mem p).entry ∈ (l₀.view b.mem).queue := by
    rw [hv]
    exact List.mem_map_of_mem hp
  obtain ⟨q, hq, he⟩ := List.mem_map.mp hmem
  have hqid : (b.mem q).orderId = id := (congrArg Queue.Entry.id he).trans hid
  have hon : b.On s n.1 q := ⟨l₀, hl₀, hq⟩
  have hm := h.mapped s n.1 q hon
  rw [hqid, (stopSlot_eq_some.mp hx).1] at hm
  obtain rfl : o = q := Option.some.inj hm
  exact not_on_stop h hx s n.1 hon

omit hx in
/-- A level that changes its count was not spared. -/
theorem not_untouched_of_cnt {l' : PriceLevel} (hi : (b.ladder s)[i]? = some (px, l))
    (hb : b'.ladder s = putLadder (b.ladder s) i px l') (hc : l'.cnt ≠ l.cnt) :
    ¬ Untouched b b' := by
  intro hu
  obtain ⟨l₀, hl₀, hcnt, _⟩ := hu.symm.level (List.mem_of_getElem? hi)
  rw [hb] at hl₀
  rcases ((h.shelved s).mem_put hi).mp hl₀ with ⟨_, he⟩ | ⟨_, hne⟩
  · obtain rfl : l₀ = l' := congrArg Prod.snd he
    exact hc hcnt
  · exact hne rfl

/-- `configure_iceberg` of a stop adjusts the level at its limit price. -/
theorem configureIceberg_stop (display : Qty) :
    SparedIff b (b.configureIceberg id display).2 o
      (display = 0 ∨ b.Harmless x (min display x.qty)) := by
  obtain ⟨hf, _, rfl⟩ := stopSlot_eq_some.mp hx
  by_cases hd : display = 0
  · refine SparedIff.of_eq ?_ (Or.inl hd)
    simp only [configureIceberg, hf, if_pos hd]
  · have heq : (b.configureIceberg id display).2 =
        (b.writeOrder o fun y => y.configured display).adjustLevel (b.mem o).side (b.mem o).price
          ((min display (b.mem o).qty).toInt64 - (b.mem o).remainingQty.toInt64) := by
      simp only [configureIceberg, hf, if_neg hd, adjustLevel, writeOrder, Memory.modify_self,
        Order.configured, findLevel_withMem]
      cases b.findLevel (b.mem o).side (b.mem o).price <;> rfl
    have hs := sparedIff_adjustLevel h hx (Order.quiet_configured display)
      (min display (b.mem o).qty)
    rw [heq]
    refine ⟨fun hu => Or.inr (hs.shows hu), fun hC => hs.writes (hC.resolve_left hd)⟩

/-- `modify_order` of a stop at its limit price adjusts the level there. -/
theorem modifyOrder_stop_samePrice (newQty : Qty) :
    SparedIff b (b.modifyOrder id x.price newQty).2 o
      (b.Harmless x (Queue.Book.modifiedRemaining x.entry newQty)) := by
  obtain ⟨hf, _, rfl⟩ := stopSlot_eq_some.mp hx
  have hprice : (b.mem o).bare.price = (b.mem o).price := rfl
  cases hl : b.findLevel (b.mem o).side (b.mem o).price with
  | none =>
    refine SparedIff.of_eq ?_ ?_
    · simp only [modifyOrder, hf, hprice, if_true, hl]
    · intro n hn hk
      exact absurd hk (((h.shelved _).sorted.find_eq_none (Side.cmp_strict _)).mp hl n hn)
  | some r =>
    have heq : (b.modifyOrder id (b.mem o).price newQty).2 =
        (b.writeOrder o fun y => y.modified newQty).adjustLevel (b.mem o).side (b.mem o).price
          ((Queue.Book.modifiedRemaining (b.mem o).entry newQty).toInt64 -
            (b.mem o).remainingQty.toInt64) := by
      have hm : b.mem.modify o (Order.modified · newQty) = b.mem.modify o fun y =>
          { y with
            qty := newQty
            remainingQty := Queue.Book.modifiedRemaining (b.mem o).entry newQty } :=
        Memory.modify_congr rfl
      simp only [modifyOrder, hf, if_true, hl, adjustLevel, writeOrder, findLevel_withMem, hm]
      rfl
    have hs := sparedIff_adjustLevel h hx (Order.quiet_modified newQty)
      (Queue.Book.modifiedRemaining (b.mem o).entry newQty)
    rw [hprice, heq]
    exact hs

/-- A stop that is settled at a level, where it does not stand, shows. -/
theorem settle_stop_shows {m : Memory} {l' : PriceLevel} (hi : (b.ladder s)[i]? = some (px, l))
    (hcnt : l'.cnt = l.cnt) (hz : (m o).remainingQty = 0) (hid : (m o).orderId = id)
    (hprev : (m o).prev = none) (hnext : (m o).next = none) :
    ¬ Untouched b (b.settle s i px m l' o) := by
  rw [settle, if_pos hz]
  split
  · next m₁ l₁ hr =>
    obtain ⟨hqueued, horder⟩ := tryReplenishIceberg_unlinked hprev hnext hr
    have hn : (px, l₁) ∈ ({ b with mem := m₁ }.putLevel s i px l₁).ladder s := by
      rw [putLevel, ladder_setLadder_self, ladder_withMem]
      exact ((h.shelved s).mem_put hi).mpr (Or.inl ⟨tryReplenishIceberg_cnt hr, rfl⟩)
    refine not_untouched_of_queued h hx (p := o) hn ?_ ?_
    · rw [putLevel, mem_setLadder]
      exact hqueued
    · rw [putLevel, mem_setLadder]
      exact horder.trans hid
  · have hladder : ((({ b with mem := (l'.remove m o).1 }.putLevel s i px
        (l'.remove m o).2).dropId (b.mem o).orderId).deallocate o).ladder s =
        putLadder (b.ladder s) i px (l'.remove m o).2 := by
      rw [ladder_deallocate, ladder_dropId, putLevel, ladder_setLadder_self, ladder_withMem]
    refine not_untouched_of_cnt h hi hladder ?_
    have hpos := h.cnt_ne_zero hi
    rw [PriceLevel.remove_cnt]
    omega

/-- A stop whose remaining quantity a fill exhausts is settled at its limit price. -/
theorem applyFill_stop_exhausts (hqty : x.remainingQty ≤ qty)
    (hl : b.findLevel x.side x.price = some (i, l)) :
    ¬ Untouched b (b.applyFill id qty).2 := by
  obtain ⟨hf, hs, rfl⟩ := stopSlot_eq_some.mp hx
  obtain ⟨hprev, hnext⟩ := h.unlinked id o hf hs
  have hmin : (b.mem o).remainingQty - min qty (b.mem o).remainingQty = 0 :=
    Word.sub_min_eq_zero.mpr hqty
  have hlevel : b.findLevel (b.mem o).side (b.mem o).price = some (i, l) := hl
  rw [applyFill_eq h hf hlevel]
  refine settle_stop_shows h hx (h.findLevel_eq_some.mp hlevel) rfl ?_ ?_ ?_ ?_
  · rw [Memory.modify_self]
    exact hmin
  · rw [Memory.modify_self]
    exact (h.table id o hf).1
  · rw [Memory.modify_self]
    exact hprev
  · rw [Memory.modify_self]
    exact hnext

/-- `apply_fill` of a stop adjusts the level at its limit price, and worse when it exhausts
the stop. -/
theorem applyFill_stop (qty : Qty) :
    SparedIff b (b.applyFill id qty).2 o ((∀ n ∈ b.ladder x.side, n.1 ≠ x.price) ∨
      qty < x.remainingQty ∧ b.Harmless x (x.remainingQty - qty)) := by
  have hfind := (h.shelved x.side).sorted.find_eq_none (Side.cmp_strict _) (k := x.price)
  cases hl : b.findLevel x.side x.price with
  | none =>
    refine ⟨fun _ => Or.inl (hfind.mp hl), fun _ => ?_⟩
    obtain ⟨hf, _, rfl⟩ := stopSlot_eq_some.mp hx
    refine ⟨_, Order.quiet_take (min qty (b.mem o).remainingQty), ?_⟩
    have hl' : b.findLevel (b.mem o).side (b.mem o).price = none := hl
    simp only [applyFill, hf, writeOrder, Memory.modify_self, findLevel_withMem, hl']
    rfl
  | some r =>
    have hlevel : ¬ ∀ n ∈ b.ladder x.side, n.1 ≠ x.price := by
      intro hn
      have hnone : b.findLevel x.side x.price = none := hfind.mpr hn
      rw [hl] at hnone
      contradiction
    by_cases hqty : x.remainingQty ≤ qty
    · refine SparedIff.of_not (applyFill_stop_exhausts h hx hqty hl) ?_
      rintro (hn | ⟨hlt, _⟩)
      · exact hlevel hn
      · exact absurd hqty (UInt64.not_le.mpr hlt)
    · have hs := sparedIff_adjustLevel h hx (Order.quiet_take qty) (x.remainingQty - qty)
      rw [Word.toInt64_sub_self] at hs
      have hlt : qty < x.remainingQty := UInt64.not_le.mp hqty
      obtain ⟨hf, _, rfl⟩ := stopSlot_eq_some.mp hx
      have hmin : min qty (b.mem o).remainingQty = qty := Word.min_eq_left (UInt64.le_of_lt hlt)
      have hz : (b.mem o).remainingQty - qty ≠ 0 := by
        intro hz
        rw [← hmin] at hz
        exact hqty (Word.sub_min_eq_zero.mp hz)
      have heq : (b.applyFill id qty).2 = (b.writeOrder o fun y => y.take qty).adjustLevel
          (b.mem o).side (b.mem o).price (-qty.toInt64) := by
        have hl' : b.findLevel (b.mem o).side (b.mem o).price = some r := hl
        simp only [applyFill, hf, hmin, writeOrder, Memory.modify_self, findLevel_withMem, hl',
          if_neg hz, adjustLevel]
        rfl
      rw [heq]
      exact ⟨fun hu => Or.inr ⟨hlt, hs.shows hu⟩, fun hC => hs.writes (hC.resolve_left hlevel).2⟩

/-- The side of a stop after it is cancelled, away from its limit price. -/
theorem cancelOrder_stop_ladder :
    Ladder.Sorted x.side.cmp ((b.cancelOrder id).2.ladder x.side) ∧
      ∀ n ∈ b.ladder x.side, n.1 ≠ x.price → n ∈ (b.cancelOrder id).2.ladder x.side := by
  obtain ⟨hf, _, rfl⟩ := stopSlot_eq_some.mp hx
  have hsorted := (h.shelved (b.mem o).side).sorted
  change Ladder.Sorted (b.mem o).side.cmp ((b.cancelOrder id).2.ladder (b.mem o).side) ∧
    ∀ n ∈ b.ladder (b.mem o).side, n.1 ≠ (b.mem o).price →
      n ∈ (b.cancelOrder id).2.ladder (b.mem o).side
  cases hl : b.findLevel (b.mem o).side (b.mem o).price with
  | none =>
    have heq : (b.cancelOrder id).2.ladder (b.mem o).side = b.ladder (b.mem o).side := by
      simp only [OrderBook.cancelOrder, hf, hl, ladder_deallocate, ladder_dropId]
    rw [heq]
    exact ⟨hsorted, fun _ hn _ => hn⟩
  | some r =>
    obtain ⟨i, l⟩ := r
    have hi := h.findLevel_eq_some.mp hl
    have heq : (b.cancelOrder id).2.ladder (b.mem o).side =
        putLadder (b.ladder (b.mem o).side) i (b.mem o).price (l.remove b.mem o).2 := by
      simp only [OrderBook.cancelOrder, hf, hl, eraseLevel_eq_put, ladder_deallocate, ladder_dropId,
        putLevel, ladder_setLadder_self, ladder_withMem]
    rw [heq]
    refine ⟨?_, fun n hn hk => ((h.shelved _).mem_put hi).mpr (Or.inr ⟨hn, hk⟩)⟩
    unfold putLadder
    split
    · exact hsorted.eraseIdx i
    · exact hsorted.set hi

/-- `modify_order` of a stop to another price adds a resting order there. -/
theorem modifyOrder_stop_newPrice (hpx : px ≠ x.price) (newQty : Qty) :
    ¬ Untouched b (b.modifyOrder id px newQty).2 := by
  intro hu
  obtain ⟨hsorted, hkeep⟩ := cancelOrder_stop_ladder h hx
  obtain ⟨hf, _, rfl⟩ := stopSlot_eq_some.mp hx
  obtain ⟨r, hr⟩ := allocate_cancelOrder hf
  obtain ⟨l, hl, hcnt⟩ := enqueue_cnt hsorted px r.1
    ((b.cancelOrder id).2.mem.modify r.1 fun _ =>
      (b.cancelOrder id).2.limitOrder (b.mem o).side px newQty)
  have hlevel : (px, l) ∈ (b.modifyOrder id px newQty).2.ladder (b.mem o).side := by
    rw [modifyOrder_eq_add hf hpx, addLimitOrder_ladder hr]
    exact hl
  obtain ⟨l₀, hl₀, hc, _⟩ := hu.level hlevel
  exact hcnt l₀ (hkeep _ hl₀ hpx) hc

/-- `modify_order` of a stop. -/
theorem modifyOrder_stop (px : Int) (newQty : Qty) :
    SparedIff b (b.modifyOrder id px newQty).2 o
      (px = x.price ∧ b.Harmless x (Queue.Book.modifiedRemaining x.entry newQty)) := by
  by_cases hpx : px = x.price
  · subst hpx
    have hs := modifyOrder_stop_samePrice h hx newQty
    exact ⟨fun hu => ⟨rfl, hs.shows hu⟩, fun hC => hs.writes hC.2⟩
  · exact SparedIff.of_not (modifyOrder_stop_newPrice h hx hpx newQty) fun hC => hpx hC.1

end Calls

end OrderBook

end Lob
