import Lob.Representation.Operations

/-!
# Queueing an order

A new resting order is queued last at its price, in a level that is added when it
is missing. It touches no other order but for the forward link of the tail it is
appended to.
-/

namespace Lob

/-- Queue slot `o` last at price `px`, adding the level when it is missing. -/
def enqueue (m : Memory) (s : Side) (px : Int) (v : PriceLadder) (o : Ptr) :
    Memory × PriceLadder :=
  let (v, i, l) := Ladder.findOrEmplace s.cmp px ({} : PriceLevel) v
  let (m, l) := l.pushBack m o
  (m, v.set i (px, l))

section Enqueue

variable {m : Memory} {s : Side} {px : Int} {v : PriceLadder} {o : Ptr} {x : Order}

/-- The price has a level. -/
theorem enqueue_of_find {i : Nat} {l : PriceLevel} (hf : Ladder.find s.cmp px v = some (i, l)) :
    enqueue m s px v o = ((l.pushBack m o).1, v.set i (px, (l.pushBack m o).2)) := by
  simp only [enqueue, Ladder.findOrEmplace, hf]

/-- The price gets a level at its place. -/
theorem enqueue_of_find_none (hf : Ladder.find s.cmp px v = none) :
    enqueue m s px v o = ((({} : PriceLevel).pushBack m o).1,
      v.insertIdx (Ladder.lower s.cmp px v) (px, (({} : PriceLevel).pushBack m o).2)) := by
  simp only [enqueue, Ladder.findOrEmplace, hf, Ladder.set_insertIdx]

/-- Queueing writes links only. -/
theorem enqueue_bare (m : Memory) (s : Side) (px : Int) (v : PriceLadder) (o p : Ptr) :
    ((enqueue m s px v o).1 p).bare = (m p).bare := by
  cases hf : Ladder.find s.cmp px v with
  | none => rw [enqueue_of_find_none hf, PriceLevel.pushBack_bare]
  | some r => rw [enqueue_of_find (i := r.1) (l := r.2) hf, PriceLevel.pushBack_bare]

/-- Queueing an order raises the count at its price. -/
theorem enqueue_cnt (hs : Ladder.Sorted s.cmp v) (px : Int) (o : Ptr)
    (m : Memory) : ∃ l, (px, l) ∈ (enqueue m s px v o).2 ∧ ∀ l₀, (px, l₀) ∈ v → l₀.cnt ≠ l.cnt := by
  cases hf : Ladder.find s.cmp px v with
  | none =>
    rw [enqueue_of_find_none hf]
    refine ⟨_, Ladder.mem_insertIdx_lower.mpr (Or.inl rfl), ?_⟩
    intro l₀ hl₀
    exact absurd rfl ((hs.find_eq_none s.cmp_strict).mp hf _ hl₀)
  | some r =>
    obtain ⟨i, l⟩ := r
    have hi := (hs.find_eq_some s.cmp_strict).mp hf
    rw [enqueue_of_find hf]
    refine ⟨_, (hs.mem_set s.cmp_strict hi).mpr (Or.inl rfl), ?_⟩
    intro l₀ hl₀
    rw [hs.value_unique s.cmp_strict hl₀ (List.mem_of_getElem? hi), PriceLevel.pushBack_cnt]
    exact Nat.ne_of_lt (Nat.lt_succ_self _)

variable (h : Shelved m s v) (ho : ∀ k, ¬ Queued m v k o)
include h ho

omit h in
/-- A queued slot is not the new one. -/
theorem ne_of_not_queued {n : Int × PriceLevel} (hn : n ∈ v) {p : Ptr}
    (hp : p ∈ n.2.orders m) : p ≠ o := by
  rintro rfl
  exact ho n.1 ⟨n.2, hn, hp⟩

/-- The level that receives the order, and the queue it holds afterwards. -/
theorem Shelved.enqueue_holds {i : Nat} {l : PriceLevel} (hi : v[i]? = some (px, l)) :
    (l.pushBack (m.modify o fun _ => x) o).2.Holds (l.pushBack (m.modify o fun _ => x) o).1
      (l.orders m ++ [o]) ∧
    ∀ p, p ∉ l.orders m → p ≠ o → (l.pushBack (m.modify o fun _ => x) o).1 p = m p := by
  have hn := List.mem_of_getElem? hi
  have hl : l.Holds (m.modify o fun _ => x) (l.orders m) :=
    (h.holds _ hn).frame fun p hp => Memory.modify_of_ne (ne_of_not_queued ho hn hp)
  refine ⟨hl.pushBack fun hp => ne_of_not_queued ho hn hp rfl, fun p hp hne => ?_⟩
  rw [hl.pushBack_frame hp hne, Memory.modify_of_ne hne]

omit h ho in
/-- A fresh level holds the new slot alone. -/
theorem holds_fresh (m : Memory) (o : Ptr) : (({} : PriceLevel).pushBack m o).2.Holds
    (({} : PriceLevel).pushBack m o).1 [o] ∧
    ∀ p, p ≠ o → (({} : PriceLevel).pushBack m o).1 p = m p := by
  have hl : ({} : PriceLevel).Holds m [] := ⟨Chain.isList_nil _, rfl⟩
  exact ⟨hl.pushBack (by simp), fun p hne => hl.pushBack_frame (by simp) hne⟩

/-- Only the new order and the orders at its price are written. -/
theorem Shelved.enqueue_frame {p : Ptr} (hp : ¬ Queued m v px p) (hne : p ≠ o) :
    (enqueue (m.modify o fun _ => x) s px v o).1 p = m p := by
  cases hf : Ladder.find s.cmp px v with
  | none =>
    rw [enqueue_of_find_none hf]
    exact ((holds_fresh _ o).2 p hne).trans (Memory.modify_of_ne hne)
  | some r =>
    have hi := (h.sorted.find_eq_some s.cmp_strict).mp hf
    rw [enqueue_of_find (i := r.1) (l := r.2) hf]
    exact (h.enqueue_holds ho hi).2 p (fun hm => hp ⟨r.2, List.mem_of_getElem? hi, hm⟩) hne

/-- The orders of another level keep their contents. -/
theorem Shelved.enqueue_other {n : Int × PriceLevel} (hn : n ∈ v) (hk : n.1 ≠ px) {p : Ptr}
    (hp : p ∈ n.2.orders m) : (enqueue (m.modify o fun _ => x) s px v o).1 p = m p := by
  refine h.enqueue_frame ho ?_ (ne_of_not_queued ho hn hp)
  rintro ⟨l, hl, hpl⟩
  have h₁ := (h.placed n hn p hp).1
  have h₂ := (h.placed (px, l) hl p hpl).1
  exact hk (h₁.symm.trans h₂)

variable (hx : x.price = px ∧ x.side = s ∧ x.stopType = .none)

include hx in
/-- Appending a new order keeps the side well formed. -/
theorem Shelved.enqueue : Shelved (enqueue (m.modify o fun _ => x) s px v o).1 s
    (enqueue (m.modify o fun _ => x) s px v o).2 := by
  have hplace (p : Ptr) :
      ((Lob.enqueue (m.modify o fun _ => x) s px v o).1 p).price =
        ((m.modify o fun _ => x) p).price ∧
      ((Lob.enqueue (m.modify o fun _ => x) s px v o).1 p).side =
        ((m.modify o fun _ => x) p).side ∧
      ((Lob.enqueue (m.modify o fun _ => x) s px v o).1 p).stopType =
        ((m.modify o fun _ => x) p).stopType := by
    have hb := enqueue_bare (m.modify o fun _ => x) s px v o p
    exact ⟨Order.price_of_bare hb, Order.side_of_bare hb, Order.stopType_of_bare hb⟩
  have hself := hplace o
  rw [Memory.modify_self, hx.1, hx.2.1, hx.2.2] at hself
  have hother (n : Int × PriceLevel) (hn : n ∈ v) (hk : n.1 ≠ px) (p : Ptr)
      (hp : p ∈ n.2.orders m) := h.enqueue_other ho (x := x) hn hk hp
  cases hf : Ladder.find s.cmp px v with
  | none =>
    have hpx := (h.sorted.find_eq_none s.cmp_strict).mp hf
    rw [enqueue_of_find_none hf] at hself hother ⊢
    refine h.insert hpx (holds_fresh _ o).1 (by simp) ?_
      fun n hn p hp => hother n hn (hpx n hn) p hp
    rintro p hp
    rw [List.mem_singleton.mp hp]
    exact hself
  | some r =>
    obtain ⟨i, l⟩ := r
    have hi := (h.sorted.find_eq_some s.cmp_strict).mp hf
    rw [enqueue_of_find hf] at hplace hself hother ⊢
    have hput := h.put hi (h.enqueue_holds ho hi).1 ?_ hother
    · rw [putLadder, if_neg (by rw [PriceLevel.pushBack_cnt]; exact Nat.succ_ne_zero _)] at hput
      exact hput
    · intro p hp
      rcases List.mem_append.mp hp with hp | hp
      · have hpl := hplace p
        have hn := List.mem_of_getElem? hi
        rw [Memory.modify_of_ne (ne_of_not_queued ho hn hp), (h.placed _ hn p hp).1,
          (h.placed _ hn p hp).2.1, (h.placed _ hn p hp).2.2] at hpl
        exact hpl
      · rw [List.mem_singleton.mp hp]
        exact hself

/-- The new order is queued at its price. -/
theorem Shelved.queued_enqueue (k : Int) (p : Ptr) :
    Queued (Lob.enqueue (m.modify o fun _ => x) s px v o).1
      (Lob.enqueue (m.modify o fun _ => x) s px v o).2 k p ↔
    Queued m v k p ∨ k = px ∧ p = o := by
  have hother (n : Int × PriceLevel) (hn : n ∈ v) (hk : n.1 ≠ px) (p : Ptr)
      (hp : p ∈ n.2.orders m) := h.enqueue_other ho (x := x) hn hk hp
  cases hf : Ladder.find s.cmp px v with
  | none =>
    have hpx := (h.sorted.find_eq_none s.cmp_strict).mp hf
    rw [enqueue_of_find_none hf] at hother ⊢
    rw [h.queued_insert hpx (holds_fresh _ o).1 fun n hn p hp => hother n hn (hpx n hn) p hp,
      List.mem_singleton]
    constructor
    · rintro (hk | ⟨_, hq⟩)
      · exact Or.inr hk
      · exact Or.inl hq
    · rintro (⟨l, hl, hp⟩ | hk)
      · exact Or.inr ⟨hpx _ hl, l, hl, hp⟩
      · exact Or.inl hk
  | some r =>
    obtain ⟨i, l⟩ := r
    have hi := (h.sorted.find_eq_some s.cmp_strict).mp hf
    rw [enqueue_of_find hf] at hother ⊢
    have hput := h.queued_put hi (h.enqueue_holds ho hi).1 hother k p
    rw [putLadder, if_neg (by rw [PriceLevel.pushBack_cnt]; exact Nat.succ_ne_zero _)] at hput
    rw [hput, List.mem_append, List.mem_singleton]
    constructor
    · rintro (⟨rfl, hp | rfl⟩ | ⟨_, hq⟩)
      · exact Or.inl ⟨l, List.mem_of_getElem? hi, hp⟩
      · exact Or.inr ⟨rfl, rfl⟩
      · exact Or.inl hq
    · rintro (⟨l', hl', hp⟩ | ⟨rfl, rfl⟩)
      · by_cases hk : k = px
        · subst hk
          have hll := h.sorted.value_unique s.cmp_strict hl' (List.mem_of_getElem? hi)
          exact Or.inl ⟨rfl, Or.inl (hll ▸ hp)⟩
        · exact Or.inr ⟨hk, l', hl', hp⟩
      · exact Or.inl ⟨rfl, Or.inr rfl⟩

/-- Appending an order shows as appending its entry. -/
theorem Shelved.view_enqueue (px : Int) (x : Order) :
    Ladder.mapValues (PriceLevel.view (Lob.enqueue (m.modify o fun _ => x) s px v o).1)
      (Lob.enqueue (m.modify o fun _ => x) s px v o).2 =
    Queue.enqueue s px (Ladder.mapValues (PriceLevel.view m) v) x.entry := by
  have hother (n : Int × PriceLevel) (hn : n ∈ v) (hk : n.1 ≠ px) (p : Ptr)
      (hp : p ∈ n.2.orders m) := h.enqueue_other ho (x := x) hn hk hp
  have hentry (p : Ptr) : ((Lob.enqueue (m.modify o fun _ => x) s px v o).1 p).entry =
      ((m.modify o fun _ => x) p).entry := Order.entry_of_bare (enqueue_bare ..)
  have hself := hentry o
  rw [Memory.modify_self] at hself
  cases hf : Ladder.find s.cmp px v with
  | none =>
    have hpx := (h.sorted.find_eq_none s.cmp_strict).mp hf
    have hfm : Ladder.find s.cmp px (Ladder.mapValues (PriceLevel.view m) v) = none := by
      rw [Ladder.find_mapValues, hf, Option.map_none]
    rw [enqueue_of_find_none hf] at hother hself ⊢
    rw [h.view_insert (holds_fresh _ o).1 fun n hn p hp => hother n hn (hpx n hn) p hp]
    simp only [Queue.enqueue, Ladder.findOrEmplace, hfm, Ladder.set_insertIdx,
      Ladder.lower_mapValues, List.map_cons, List.map_nil, hself, PriceLevel.pushBack_agg,
      Memory.modify_self]
    rfl
  | some r =>
    obtain ⟨i, l⟩ := r
    have hi := (h.sorted.find_eq_some s.cmp_strict).mp hf
    have hfm : Ladder.find s.cmp px (Ladder.mapValues (PriceLevel.view m) v) =
        some (i, l.view m) := by
      rw [Ladder.find_mapValues, hf]
      rfl
    rw [enqueue_of_find hf] at hother hself hentry ⊢
    have hput := h.view_put hi (h.enqueue_holds ho hi).1 hother
    rw [putLadder, if_neg (by rw [PriceLevel.pushBack_cnt]; exact Nat.succ_ne_zero _),
      if_neg (by simp)] at hput
    have hkeep : (l.orders m).map (fun p => ((l.pushBack (m.modify o fun _ => x) o).1 p).entry) =
        (l.orders m).map fun p => (m p).entry := by
      apply List.map_congr_left
      intro p hp
      rw [hentry, Memory.modify_of_ne (ne_of_not_queued ho (List.mem_of_getElem? hi) hp)]
    rw [hput, List.map_append, hkeep, List.map_singleton, hself, PriceLevel.pushBack_agg,
      Memory.modify_self]
    simp only [Queue.enqueue, Ladder.findOrEmplace, hfm]
    rfl

end Enqueue

end Lob
