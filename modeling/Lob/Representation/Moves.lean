import Lob.Representation.Edit

/-!
# Moves within one level

What matching does to a queued order: it rewrites the order where it stands,
takes it out, or sends it to the tail with its next slice. Each move shows in
the queues as the move of the order's entry.
-/

namespace Lob

/-- The write keeps the links of an order and the fields that place it. -/
structure Order.Quiet (f : Order → Order) : Prop where
  next : ∀ x, (f x).next = x.next
  prev : ∀ x, (f x).prev = x.prev
  place : ∀ x, (f x).SamePlace x

/-- Writing nothing is quiet. -/
theorem Order.quiet_id : Order.Quiet id :=
  ⟨fun _ => rfl, fun _ => rfl, fun _ => ⟨rfl, rfl, rfl, rfl⟩⟩

/-- Writing nothing leaves the slots. -/
@[simp] theorem Memory.modify_id (m : Memory) (o : Ptr) : m.modify o id = m := by
  funext q
  simp [modify_apply]

section Quiet

variable {m : Memory} {o p : Ptr} {f : Order → Order} (hf : Order.Quiet f)
include hf

/-- A quiet write leaves every order at its place. -/
theorem Order.Quiet.samePlace : ((m.modify o f) p).SamePlace (m p) := by
  by_cases hp : p = o
  · subst hp
    rw [Memory.modify_self]
    exact hf.place _
  · rw [Memory.modify_of_ne hp]
    exact Order.SamePlace.refl _

/-- A level keeps its queue when links, ends and count stay. -/
theorem PriceLevel.Holds.quiet {l l' : PriceLevel} {xs : List Ptr} (h : l.Holds m xs)
    (hends : l'.ends = l.ends) (hcnt : l'.cnt = l.cnt) : l'.Holds (m.modify o f) xs where
  list := by
    rw [Memory.links_modify hf.next hf.prev, hends]
    exact h.list
  cnt := hcnt.trans h.cnt

end Quiet

namespace OrderBook.WellFormed

variable {b : OrderBook} {s t : Side} {i : Nat} {px k : Int} {l l' : PriceLevel} {o p q : Ptr}
  {f g : Order → Order}

/-- Queued slots with the same id are the same. -/
theorem orderId_inj (h : b.WellFormed) (hp : b.On s px p) (hq : b.On t k q)
    (he : (b.mem p).orderId = (b.mem q).orderId) : p = q := by
  have hm := h.mapped s px p hp
  rw [he, h.mapped t k q hq] at hm
  exact (Option.some.inj hm).symm

section Level

variable (h : b.WellFormed) (hi : (b.ladder s)[i]? = some (px, l)) (ho : o ∈ l.orders b.mem)
include h hi

/-- A level of a well-formed book holds its orders. -/
theorem holds : l.Holds b.mem (l.orders b.mem) := (h.shelved s).holds _ (List.mem_of_getElem? hi)

include ho

/-- In a level an id belongs to one slot. -/
theorem inj_level (hp : p ∈ l.orders b.mem) (he : (b.mem p).orderId = (b.mem o).orderId) :
    p = o :=
  h.orderId_inj ⟨l, List.mem_of_getElem? hi, hp⟩ ⟨l, List.mem_of_getElem? hi, ho⟩ he

/-- Rewriting one order rewrites its entry. -/
theorem map_modify (hid : ∀ x, (f x).orderId = x.orderId) :
    ((l.orders b.mem).map fun p => (b.mem.modify o f p).entry) =
      ((l.orders b.mem).map fun p => (b.mem p).entry).map fun x =>
        if x.id = (f (b.mem o)).entry.id then (f (b.mem o)).entry else x := by
  rw [List.map_map]
  apply List.map_congr_left
  intro p hp
  have hfid : (f (b.mem o)).entry.id = (b.mem o).orderId := hid _
  simp only [Function.comp_apply, hfid]
  by_cases hpo : p = o
  · subst hpo
    rw [Memory.modify_self]
    exact (if_pos rfl).symm
  · rw [Memory.modify_of_ne hpo]
    exact (if_neg fun he => hpo (h.inj_level hi ho hp he)).symm

/-- Leaving out one order leaves out its entry. -/
theorem filter_entries {ys zs : List Ptr} (hsplit : l.orders b.mem = ys ++ o :: zs) :
    ((l.orders b.mem).map fun p => (b.mem p).entry).filter (fun x => x.id ≠ (b.mem o).orderId) =
      (ys ++ zs).map fun p => (b.mem p).entry := by
  have hnodup := (h.holds hi).list.nodup
  have hinj := fun p hp => h.inj_level (p := p) hi ho hp
  rw [hsplit] at hnodup hinj ⊢
  have hn := List.nodup_append.mp hnodup
  have hkeep (ws : List Ptr) (hws : ∀ p ∈ ws, p ∈ ys ++ o :: zs ∧ p ≠ o) :
      (ws.map fun p => (b.mem p).entry).filter (fun x => x.id ≠ (b.mem o).orderId) =
        ws.map fun p => (b.mem p).entry := by
    rw [List.filter_eq_self]
    intro x hx
    obtain ⟨p, hp, rfl⟩ := List.mem_map.mp hx
    exact decide_eq_true fun he => (hws p hp).2 (hinj p (hws p hp).1 he)
  have hys := hkeep ys fun p hp => ⟨by simp [hp], fun he => hn.2.2 p hp o (by simp) he⟩
  have hzs := hkeep zs fun p hp =>
    ⟨by simp [hp], fun he => (List.nodup_cons.mp hn.2.1).1 (he ▸ hp)⟩
  rw [List.map_append, List.map_cons, List.filter_append, hys, List.filter_cons_of_neg, hzs,
    ← List.map_append]
  simp [Order.entry]

/-- Rewriting a queued order and the aggregate of its level. -/
theorem rewrite (hf : Order.Quiet f) (hends : l'.ends = l.ends) (hcnt : l'.cnt = l.cnt) :
    Refines b ({ b with mem := b.mem.modify o f }.setLevel s i px l')
      (b.queues.put s i px ((l.view b.mem).rewrite (f (b.mem o)).entry l'.aggQty)) := by
  have hl : l'.Holds (b.mem.modify o f) (l.orders b.mem) := (h.holds hi).quiet hf hends hcnt
  have hne : l'.cnt ≠ 0 := by
    rw [hl.cnt]
    exact Nat.pos_iff_ne_zero.mp (List.length_pos_of_mem ho)
  rw [setLevel_eq_put hne, Queue.Level.rewrite, PriceLevel.view,
    ← h.map_modify hi ho fun x => (hf.place x).orderId]
  exact h.edit hi hl (fun p => hf.samePlace)
    (fun p hp => Memory.modify_of_ne (by rintro rfl; exact hp ho)) fun p => Iff.rfl

/-- Taking a rewritten order out of its level, unmapping it and freeing its slot. -/
theorem takeOut (hf : Order.Quiet f) (hends : l'.ends = l.ends) (hcnt : l'.cnt = l.cnt) :
    Refines b
      ((({ b with mem := (l'.remove (b.mem.modify o f) o).1 }.putLevel s i px
        (l'.remove (b.mem.modify o f) o).2).dropId (b.mem o).orderId).deallocate o)
      (b.queues.put s i px
        (({ l.view b.mem with agg := l'.aggQty } : Queue.Level).remove (f (b.mem o)).entry)) := by
  have hl : l'.Holds (b.mem.modify o f) (l.orders b.mem) := (h.holds hi).quiet hf hends hcnt
  have hfid : (f (b.mem o)).orderId = (b.mem o).orderId := (hf.place _).orderId
  obtain ⟨ys, zs, hsplit⟩ := List.append_of_mem ho
  rw [hsplit] at hl
  have hnodup := hl.list.nodup
  have hmem (p : Ptr) : p ∈ ys ++ zs ↔ p ∈ l.orders b.mem ∧ p ≠ o := by
    have hno := hl.list.not_mem_split
    rw [hsplit]
    constructor
    · intro hp
      refine ⟨by simp at hp ⊢; tauto, ?_⟩
      rintro rfl
      exact (List.mem_append.mp hp).elim hno.1 hno.2.1
    · rintro ⟨hp, hne⟩
      simp only [List.mem_append, List.mem_cons] at hp ⊢
      tauto
  have hentry (p : Ptr) (hp : p ∈ ys ++ zs) :
      ((l'.remove (b.mem.modify o f) o).1 p).entry = (b.mem p).entry := by
    rw [Order.entry_of_bare PriceLevel.remove_bare, Memory.modify_of_ne ((hmem p).mp hp).2]
  have hview : (({ l.view b.mem with agg := l'.aggQty } : Queue.Level).remove
      (f (b.mem o)).entry) = ⟨(l'.remove (b.mem.modify o f) o).2.aggQty,
        (ys ++ zs).map fun p => ((l'.remove (b.mem.modify o f) o).1 p).entry⟩ := by
    rw [List.map_congr_left hentry, ← h.filter_entries hi ho hsplit, PriceLevel.remove_agg,
      Memory.modify_self, Queue.Level.remove, PriceLevel.view, ← hfid]
    rfl
  rw [hview]
  apply h.release hi hl.remove ?_ ?_ ho hmem
  · intro p
    have hr := Order.samePlace_of_bare
      (PriceLevel.remove_bare (m := b.mem.modify o f) (l := l') (o := o) (q := p))
    have hq : ((b.mem.modify o f) p).SamePlace (b.mem p) := hf.samePlace
    exact hr.trans hq
  · intro p hp
    rw [hsplit] at hp
    rw [hl.remove_frame hp, Memory.modify_of_ne (by rintro rfl; simp at hp)]

/-- Sending a rewritten order to the tail of its level, rewriting it again in between. -/
theorem requeue (hf : Order.Quiet f) (hg : Order.Quiet g) (hends : l'.ends = l.ends)
    (hcnt : l'.cnt = l.cnt) {m : Memory} {l₁ : PriceLevel}
    (hm : l'.remove (b.mem.modify o f) o = (m, l₁)) :
    Refines b ({ b with mem := (l₁.pushBack (m.modify o g) o).1 }.setLevel s i px
        (l₁.pushBack (m.modify o g) o).2)
      (b.queues.put s i px ((({ l.view b.mem with agg := l'.aggQty } : Queue.Level).remove
        (f (b.mem o)).entry).append (g (m o)).entry)) := by
  have hl : l'.Holds (b.mem.modify o f) (l.orders b.mem) := (h.holds hi).quiet hf hends hcnt
  have hfid : (f (b.mem o)).orderId = (b.mem o).orderId := (hf.place _).orderId
  obtain ⟨ys, zs, hsplit⟩ := List.append_of_mem ho
  rw [hsplit] at hl
  have hno := hl.list.not_mem_split
  have hrm := hl.remove
  have hframe₁ (p : Ptr) (hp : p ∉ ys ++ o :: zs) : m p = b.mem p := by
    have hr := hl.remove_frame hp
    rw [hm, Memory.modify_of_ne (by rintro rfl; simp at hp)] at hr
    exact hr
  have hbare (p : Ptr) : (m p).bare = (b.mem.modify o f p).bare := by
    have hb := PriceLevel.remove_bare (m := b.mem.modify o f) (l := l') (o := o) (q := p)
    rw [hm] at hb
    exact hb
  have hagg : l₁.aggQty = l'.aggQty - (f (b.mem o)).remainingQty := by
    have ha := PriceLevel.remove_agg (m := b.mem.modify o f) (l := l') (o := o)
    rw [hm, Memory.modify_self] at ha
    exact ha
  rw [hm] at hrm
  have hl₁ : l₁.Holds (m.modify o g) (ys ++ zs) := hrm.quiet hg rfl rfl
  have hnot : o ∉ ys ++ zs := fun hmem => (List.mem_append.mp hmem).elim hno.1 hno.2.1
  have hpb := hl₁.pushBack hnot
  have hne : (l₁.pushBack (m.modify o g) o).2.cnt ≠ 0 := by
    rw [PriceLevel.pushBack_cnt]
    exact Nat.succ_ne_zero _
  have hentry (p : Ptr) (hp : p ∈ ys ++ zs) :
      ((l₁.pushBack (m.modify o g) o).1 p).entry = (b.mem p).entry := by
    have hpo : p ≠ o := by rintro rfl; exact hnot hp
    rw [Order.entry_of_bare PriceLevel.pushBack_bare, Memory.modify_of_ne hpo,
      Order.entry_of_bare (hbare p), Memory.modify_of_ne hpo]
  have hself : ((l₁.pushBack (m.modify o g) o).1 o).entry = (g (m o)).entry := by
    rw [Order.entry_of_bare PriceLevel.pushBack_bare, Memory.modify_self]
  have hview : ((({ l.view b.mem with agg := l'.aggQty } : Queue.Level).remove
      (f (b.mem o)).entry).append (g (m o)).entry) = ⟨(l₁.pushBack (m.modify o g) o).2.aggQty,
        (ys ++ zs ++ [o]).map fun p => ((l₁.pushBack (m.modify o g) o).1 p).entry⟩ := by
    rw [List.map_append, List.map_congr_left hentry, ← h.filter_entries hi ho hsplit,
      PriceLevel.pushBack_agg, Memory.modify_self, hagg, List.map_singleton, hself,
      Queue.Level.append, Queue.Level.remove, PriceLevel.view, ← hfid]
    rfl
  rw [setLevel_eq_put hne, hview]
  apply h.edit hi hpb ?_ ?_
  · intro p
    rw [hsplit]
    simp only [List.mem_append, List.mem_cons, List.not_mem_nil, or_false]
    tauto
  · intro p
    have hr := Order.samePlace_of_bare
      (PriceLevel.pushBack_bare (m := m.modify o g) (l := l₁) (o := o) (q := p))
    have hg' : ((m.modify o g) p).SamePlace (m p) := hg.samePlace
    have hb' := Order.samePlace_of_bare (hbare p)
    have hq : ((b.mem.modify o f) p).SamePlace (b.mem p) := hf.samePlace
    exact hr.trans (hg'.trans (hb'.trans hq))
  · intro p hp
    rw [hsplit] at hp
    have hpo : p ≠ o := by rintro rfl; simp at hp
    have hpn : p ∉ ys ++ zs := fun hmem => hp (by simp at hmem ⊢; tauto)
    rw [hl₁.pushBack_frame hpn hpo, Memory.modify_of_ne hpo, hframe₁ p hp]

end Level

end OrderBook.WellFormed

end Lob
