import Lob.Queue.Ordered

/-!
# Time priority

The ids of a level in queue order. An edit follows the old order when it lets
no new id in and moves none of the others, except an order that goes to the
tail.
-/

namespace Lob.Queue

/-- The ids of a level in queue order. -/
def Level.ids (L : Level) : List Nat := L.queue.map Entry.id

/-- The ids resting at a price, first in line first. -/
def Book.ids (B : Book) (s : Side) (px : Int) : List Nat := (B.levelAt s px).ids

variable {B B' B'' : Book} {s t : Side} {i id : Nat} {px k : Int} {L L' : Level} {e : Entry}
  {amt agg qty : Qty} {moved moved' : Nat → Prop}

namespace Level

/-- A rewritten entry keeps its place. -/
theorem ids_rewrite : (L.rewrite e agg).ids = L.ids := by
  rw [ids, rewrite, List.map_map, ids]
  apply List.map_congr_left
  intro x _
  simp only [Function.comp_apply]
  split
  · next h => exact h.symm
  · rfl

/-- Removal keeps the others in their order. -/
theorem ids_remove : (L.remove e).ids = L.ids.filter fun x => x ≠ e.id := by
  rw [ids, remove, ids, List.filter_map]
  rfl

/-- A new entry goes to the back. -/
theorem ids_append : (L.append e).ids = L.ids ++ [e.id] := by
  simp [ids, append]

/-- A filled order stays, goes to the tail, or leaves. -/
theorem ids_fill : (L.fill e amt agg).ids =
    if e.remaining - amt = 0 then
      if e.Refillable then (L.ids.filter fun x => x ≠ e.id) ++ [e.id]
      else L.ids.filter fun x => x ≠ e.id
    else L.ids := by
  rw [fill, show (e.take amt).remaining = e.remaining - amt from rfl]
  split
  · split
    · rw [ids_append, ids_remove]
      rfl
    · rw [ids_remove]
      rfl
  · rw [ids_rewrite]

end Level

namespace Book

/-- The queues of `B'` are those of `B` with ids left out and the ids in `moved` moved back. -/
structure Follows (B B' : Book) (moved : Nat → Prop) : Prop where
  subset : ∀ s px, ∀ x ∈ B'.ids s px, x ∈ B.ids s px
  order : ∀ s px x y, [x, y].Sublist (B.ids s px) → x ∈ B'.ids s px → y ∈ B'.ids s px →
    moved x ∨ [x, y].Sublist (B'.ids s px)

/-- Nothing has moved. -/
theorem Follows.refl (B : Book) : B.Follows B moved :=
  ⟨fun _ _ _ hx => hx, fun _ _ _ _ h _ _ => Or.inr h⟩

/-- What moved in either of two steps has moved. -/
theorem Follows.trans (h : B.Follows B' moved) (h' : B'.Follows B'' moved') :
    B.Follows B'' fun x => moved x ∨ moved' x where
  subset s px x hx := h.subset s px x (h'.subset s px x hx)
  order s px x y hxy hx hy := by
    rcases h.order s px x y hxy (h'.subset s px x hx) (h'.subset s px y hy) with hm | hxy
    · exact Or.inl (Or.inl hm)
    · rcases h'.order s px x y hxy hx hy with hm | hxy
      · exact Or.inl (Or.inr hm)
      · exact Or.inr hxy

/-- A book that moves no order keeps every two of its ids in their order. -/
theorem Follows.keeps {x y : Nat} (h : B.Follows B' fun _ => False)
    (hxy : [x, y].Sublist (B.ids s px)) (hx : x ∈ B'.ids s px) (hy : y ∈ B'.ids s px) :
    [x, y].Sublist (B'.ids s px) :=
  (h.order s px x y hxy hx hy).resolve_left fun hfalse => hfalse

/-- More may be counted as moved. -/
theorem Follows.mono (h : B.Follows B' moved) (hm : ∀ x, moved x → moved' x) :
    B.Follows B' moved' where
  subset := h.subset
  order s px x y hxy hx hy := (h.order s px x y hxy hx hy).imp_left (hm x)

/-- Writing one level writes one queue of ids. -/
theorem Ordered.ids_put (h : B.Ordered) (hi : (B.ladder s)[i]? = some (px, L))
    (h' : (B.put s i px L').Ordered) :
    (B.put s i px L').ids t k = if t = s ∧ k = px then L'.ids else B.ids t k := by
  rw [ids, Level.ids, h.queue_put hi h']
  split <;> rfl

/-- An edit of one level follows the old order if the level does. -/
theorem Ordered.follows_put (h : B.Ordered) (hi : (B.ladder s)[i]? = some (px, L))
    (h' : (B.put s i px L').Ordered) (hsub : ∀ x ∈ L'.ids, x ∈ L.ids)
    (hord : ∀ x y, [x, y].Sublist L.ids → x ∈ L'.ids → y ∈ L'.ids →
      moved x ∨ [x, y].Sublist L'.ids) :
    B.Follows (B.put s i px L') moved := by
  have hL : B.ids s px = L.ids := by
    rw [ids, h.levelAt_of_mem (List.mem_of_getElem? hi)]
  constructor
  · intro t k
    rw [h.ids_put hi h']
    split
    · next hk =>
      obtain ⟨rfl, rfl⟩ := hk
      rw [hL]
      exact hsub
    · exact fun x hx => hx
  · intro t k x y
    rw [h.ids_put hi h']
    split
    · next hk =>
      obtain ⟨rfl, rfl⟩ := hk
      rw [hL]
      exact hord x y
    · exact fun hxy _ _ => Or.inr hxy

/-- Two ids that are kept stay in order when others are left out. -/
theorem sublist_filter {x y c : Nat} {l : List Nat} (h : [x, y].Sublist l)
    (hx : x ≠ c) (hy : y ≠ c) : [x, y].Sublist (l.filter fun z => z ≠ c) := by
  have hf := h.filter fun z => decide (z ≠ c)
  simpa [hx, hy] using hf

/-- A removal moves nothing. -/
theorem Ordered.follows_remove (h : B.Ordered) {S : Spot} (hS : B.At id S)
    (h' : (B.put S.side S.index S.price (S.level.remove e)).Ordered) :
    B.Follows (B.put S.side S.index S.price (S.level.remove e)) moved := by
  refine h.follows_put hS.level h' ?_ fun x y hxy hx hy => Or.inr ?_
  · rw [Level.ids_remove]
    exact fun x hx => (List.mem_filter.mp hx).1
  · rw [Level.ids_remove] at hx hy ⊢
    exact sublist_filter hxy (by simpa using (List.mem_filter.mp hx).2)
      (by simpa using (List.mem_filter.mp hy).2)

/-- A rewrite in place moves nothing. -/
theorem Ordered.follows_rewrite (h : B.Ordered) {S : Spot} (hS : B.At id S)
    (h' : (B.put S.side S.index S.price (S.level.rewrite e agg)).Ordered) :
    B.Follows (B.put S.side S.index S.price (S.level.rewrite e agg)) moved := by
  refine h.follows_put hS.level h' ?_ fun x y hxy _ _ => Or.inr ?_
  · rw [Level.ids_rewrite]
    exact fun x hx => hx
  · rw [Level.ids_rewrite]
    exact hxy

/-- A fill moves an order back only when it shows its next slice. -/
theorem Ordered.follows_fill (h : B.Ordered) {S : Spot} (hS : B.At id S)
    (h' : (B.put S.side S.index S.price (S.level.fill S.entry amt agg)).Ordered) :
    B.Follows (B.put S.side S.index S.price (S.level.fill S.entry amt agg)) fun x =>
      x = id ∧ S.entry.remaining - amt = 0 ∧ S.entry.Refillable := by
  have hmem : id ∈ S.level.ids := hS.id ▸ List.mem_map_of_mem hS.mem
  refine h.follows_put hS.level h' ?_ fun x y hxy hx hy => ?_
  · rw [Level.ids_fill, hS.id]
    split
    · split
      · intro x hx
        rcases List.mem_append.mp hx with hx | hx
        · exact (List.mem_filter.mp hx).1
        · rw [List.mem_singleton.mp hx]
          exact hmem
      · exact fun x hx => (List.mem_filter.mp hx).1
    · exact fun x hx => hx
  · rw [Level.ids_fill, hS.id] at hx hy ⊢
    by_cases hz : S.entry.remaining - amt = 0
    · rw [if_pos hz] at hx hy ⊢
      by_cases hr : S.entry.Refillable
      · rw [if_pos hr] at hx hy ⊢
        by_cases hxid : x = id
        · exact Or.inl ⟨hxid, hz, hr⟩
        · refine Or.inr ?_
          by_cases hyid : y = id
          · have hxm : x ∈ S.level.ids.filter fun z => z ≠ id :=
              (List.mem_append.mp hx).resolve_right (by simpa using hxid)
            rw [hyid]
            exact (List.singleton_sublist.mpr hxm).append (List.Sublist.refl [id])
          · exact (sublist_filter hxy hxid hyid).trans (List.sublist_append_left _ _)
      · rw [if_neg hr] at hx hy ⊢
        exact Or.inr (sublist_filter hxy (by simpa using (List.mem_filter.mp hx).2)
          (by simpa using (List.mem_filter.mp hy).2))
    · rw [if_neg hz]
      exact Or.inr hxy

/-- A replenished order stands behind all others of its level. -/
theorem Ordered.ids_replenished (h : B.Ordered) {S : Spot} (hS : B.At id S)
    (h' : (B.put S.side S.index S.price (S.level.fill S.entry amt agg)).Ordered)
    (hz : S.entry.remaining - amt = 0) (hr : S.entry.Refillable) :
    (B.put S.side S.index S.price (S.level.fill S.entry amt agg)).ids S.side S.price =
      ((B.ids S.side S.price).filter fun x => x ≠ id) ++ [id] := by
  have hL : B.ids S.side S.price = S.level.ids := by
    rw [ids, h.levelAt_of_mem (List.mem_of_getElem? hS.level)]
  rw [h.ids_put hS.level h', if_pos ⟨rfl, rfl⟩, Level.ids_fill, if_pos hz, if_pos hr, hS.id, hL]

/-- A new order stands last at its price; all other queues are as before. -/
theorem Ordered.queue_add (h : B.Ordered) (h' : (B.add s px qty).Ordered) :
    ((B.add s px qty).levelAt t k).queue =
      if t = s ∧ k = px then (B.levelAt s px).queue ++ [⟨B.nextId, qty, qty, 0, 0⟩]
      else (B.levelAt t k).queue := by
  by_cases hk : t = s ∧ k = px
  · rw [if_pos hk]
    obtain ⟨rfl, rfl⟩ := hk
    rw [h'.levelAt_of_mem (h.mem_add.mpr (Or.inl ⟨rfl, rfl⟩)), Level.append]
  · rw [if_neg hk]
    rcases h.levelAt_cases t k with hm | ⟨hno, he⟩
    · rw [h'.levelAt_of_mem (h.mem_add.mpr (Or.inr ⟨hm, hk⟩))]
    · rw [he, h'.levelAt_of_absent]
      intro n hn hnk
      rcases h.mem_add.mp hn with ⟨ht, rfl⟩ | ⟨hn, _⟩
      · exact hk ⟨ht, hnk.symm⟩
      · exact hno n hn hnk

/-- An add appends the next id at its price. -/
theorem Ordered.ids_add (h : B.Ordered) (h' : (B.add s px qty).Ordered) :
    (B.add s px qty).ids t k =
      if t = s ∧ k = px then B.ids s px ++ [B.nextId] else B.ids t k := by
  rw [ids, Level.ids, h.queue_add h']
  split
  · rw [List.map_append]
    rfl
  · rfl

/-- Resting ids are below the next one. -/
theorem Ordered.ids_lt (h : B.Ordered) (hid : id ∈ B.ids s px) : id < B.nextId := by
  obtain ⟨e, he, rfl⟩ := List.mem_map.mp hid
  obtain ⟨L, hL, he⟩ := h.mem_levelAt.mp he
  exact (h.bound s _ hL e he).2

/-- A cancel moves nothing. -/
theorem Ordered.follows_cancel (h : B.Ordered) (h' : (B.cancel id).Ordered) :
    B.Follows (B.cancel id) moved := by
  rw [cancel] at h' ⊢
  cases hl : B.locate id with
  | none => exact Follows.refl B
  | some S =>
    rw [hl] at h'
    exact h.follows_remove (at_of_locate hl) h'

/-- A configuration moves nothing. -/
theorem Ordered.follows_configure (h : B.Ordered) {display : Qty}
    (h' : (B.configure id display).Ordered) : B.Follows (B.configure id display) moved := by
  rw [configure] at h' ⊢
  cases hl : B.locate id with
  | none => exact Follows.refl B
  | some S =>
    simp only [hl] at h' ⊢
    split at h'
    · next hd =>
      rw [if_pos hd]
      exact Follows.refl B
    · next hd =>
      rw [if_neg hd]
      exact h.follows_rewrite (at_of_locate hl) h'

/-- An addition changes no order among the ids that rest already. -/
theorem Ordered.order_add (h : B.Ordered) (h' : (B.add s px qty).Ordered) {x y : Nat}
    (hxy : [x, y].Sublist (B.ids t k)) : [x, y].Sublist ((B.add s px qty).ids t k) := by
  rw [h.ids_add h']
  split
  · next hk =>
    obtain ⟨rfl, rfl⟩ := hk
    exact hxy.trans (List.sublist_append_left _ _)
  · exact hxy

/-- The ids of an addition without the new one. -/
theorem Ordered.mem_ids_add (h : B.Ordered) (h' : (B.add s px qty).Ordered) {x : Nat}
    (hx : x ∈ (B.add s px qty).ids t k) (hlt : x < B.nextId) : x ∈ B.ids t k := by
  rw [h.ids_add h'] at hx
  split at hx
  · next hk =>
    obtain ⟨rfl, rfl⟩ := hk
    rcases List.mem_append.mp hx with hx | hx
    · exact hx
    · rw [List.mem_singleton] at hx
      omega
  · exact hx

/-- A modification moves no order back: it rewrites one in place or replaces it. -/
theorem Ordered.order_modify (h : B.Ordered) {newPrice : Int} {newQty : Qty}
    (hc : (B.cancel id).Ordered) (h' : (B.modify id newPrice newQty).Ordered) {x y : Nat}
    (hxy : [x, y].Sublist (B.ids t k)) (hx : x ∈ (B.modify id newPrice newQty).ids t k)
    (hy : y ∈ (B.modify id newPrice newQty).ids t k) :
    [x, y].Sublist ((B.modify id newPrice newQty).ids t k) := by
  have hxlt : x < (B.cancel id).nextId := by
    rw [nextId_cancel]
    exact h.ids_lt (hxy.subset (by simp))
  have hylt : y < (B.cancel id).nextId := by
    rw [nextId_cancel]
    exact h.ids_lt (hxy.subset (by simp))
  rw [modify] at h' hx hy ⊢
  cases hl : B.locate id with
  | none => exact hxy
  | some S =>
    simp only [hl] at h' hx hy ⊢
    split at h'
    · next hpx =>
      rw [if_pos hpx] at hx hy ⊢
      exact (h.follows_rewrite (at_of_locate hl) h').keeps hxy hx hy
    · next hpx =>
      rw [if_neg hpx] at hx hy ⊢
      have hkeep := (h.follows_cancel hc).keeps hxy (hc.mem_ids_add h' hx hxlt)
        (hc.mem_ids_add h' hy hylt)
      exact hc.order_add h' hkeep

end Book

end Lob.Queue
