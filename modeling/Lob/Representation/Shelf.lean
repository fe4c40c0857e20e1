import Lob.Representation.Level

/-!
# One side of the book

A side is shelved when its ladder is sorted, no level is empty, every level
holds its queue, and every queued order carries the side and the price of its
level. Price and side then tell the levels' slots apart, so an edit of one
level leaves the queues of all others as they were.
-/

namespace Lob

open Chain

/-- The ladder of one side is well formed over the order memory. -/
structure Shelved (m : Memory) (s : Side) (v : PriceLadder) : Prop where
  sorted : Ladder.Sorted s.cmp v
  holds : ∀ n ∈ v, n.2.Holds m (n.2.orders m)
  nonempty : ∀ n ∈ v, n.2.orders m ≠ []
  placed : ∀ n ∈ v, ∀ p ∈ n.2.orders m,
    (m p).price = n.1 ∧ (m p).side = s ∧ (m p).stopType = .none

/-- Slot `p` is queued at price `px` of a ladder. -/
def Queued (m : Memory) (v : PriceLadder) (px : Int) (p : Ptr) : Prop :=
  ∃ l, (px, l) ∈ v ∧ p ∈ l.orders m

theorem shelved_nil (m : Memory) (s : Side) : Shelved m s [] :=
  ⟨List.Pairwise.nil, by simp, by simp, by simp⟩

section Frame

variable {m m' : Memory} {s : Side} {v : PriceLadder} {n : Int × PriceLevel}

/-- A level whose orders are untouched keeps its queue. -/
theorem Shelved.orders_frame (h : Shelved m s v) (hn : n ∈ v)
    (hm : ∀ p ∈ n.2.orders m, m' p = m p) : n.2.orders m' = n.2.orders m :=
  ((h.holds n hn).frame hm).orders_eq

/-- A level whose orders are untouched shows what it showed. -/
theorem Shelved.view_frame (h : Shelved m s v) (hn : n ∈ v)
    (hm : ∀ p ∈ n.2.orders m, m' p = m p) : n.2.view m' = n.2.view m := by
  rw [PriceLevel.view, PriceLevel.view, h.orders_frame hn hm]
  congr 1
  exact List.map_congr_left fun p hp => by rw [hm p hp]

/-- A side whose orders are untouched stays well formed. -/
theorem Shelved.frame (h : Shelved m s v) (hm : ∀ n ∈ v, ∀ p ∈ n.2.orders m, m' p = m p) :
    Shelved m' s v where
  sorted := h.sorted
  holds n hn := by
    rw [h.orders_frame hn (hm n hn)]
    exact (h.holds n hn).frame (hm n hn)
  nonempty n hn := by
    rw [h.orders_frame hn (hm n hn)]
    exact h.nonempty n hn
  placed n hn p hp := by
    rw [h.orders_frame hn (hm n hn)] at hp
    rw [hm n hn p hp]
    exact h.placed n hn p hp

theorem Shelved.queued_frame (h : Shelved m s v)
    (hm : ∀ n ∈ v, ∀ p ∈ n.2.orders m, m' p = m p) (px : Int) (p : Ptr) :
    Queued m' v px p ↔ Queued m v px p := by
  constructor
  · rintro ⟨l, hl, hp⟩
    exact ⟨l, hl, h.orders_frame hl (hm _ hl) ▸ hp⟩
  · rintro ⟨l, hl, hp⟩
    exact ⟨l, hl, (h.orders_frame hl (hm _ hl)).symm ▸ hp⟩

end Frame

section Put

variable {m m' : Memory} {s : Side} {v : PriceLadder} {i : Nat} {px : Int}
  {l l' : PriceLevel} {xs : List Ptr}

/-- The ladder after one level has become `l'`; a level without orders is dropped. -/
def putLadder (v : PriceLadder) (i : Nat) (px : Int) (l : PriceLevel) : PriceLadder :=
  if l.cnt = 0 then v.eraseIdx i else v.set i (px, l)

/-- The nodes after the edit: the edited level if it has orders, and the other levels. -/
theorem Shelved.mem_put (h : Shelved m s v) (hv : v[i]? = some (px, l))
    {n : Int × PriceLevel} :
    n ∈ putLadder v i px l' ↔ l'.cnt ≠ 0 ∧ n = (px, l') ∨ n ∈ v ∧ n.1 ≠ px := by
  by_cases hc : l'.cnt = 0
  · rw [putLadder, if_pos hc, h.sorted.mem_eraseIdx s.cmp_strict hv]
    simp [hc]
  · rw [putLadder, if_neg hc, h.sorted.mem_set s.cmp_strict hv]
    simp [hc]

variable (h : Shelved m s v) (hv : v[i]? = some (px, l)) (hl : l'.Holds m' xs)
  (hplaced : ∀ p ∈ xs, (m' p).price = px ∧ (m' p).side = s ∧ (m' p).stopType = .none)
  (hother : ∀ n ∈ v, n.1 ≠ px → ∀ p ∈ n.2.orders m, m' p = m p)
include h hv hl hother

include hplaced in
/-- Editing one level keeps the side well formed. -/
theorem Shelved.put : Shelved m' s (putLadder v i px l') := by
  have hcnt : l'.cnt ≠ 0 → xs ≠ [] := by
    rintro hc rfl
    exact hc hl.cnt
  constructor
  · rw [putLadder]
    split
    · exact h.sorted.eraseIdx i
    · exact h.sorted.set hv
  · intro n hn
    rcases (h.mem_put hv).mp hn with ⟨_, rfl⟩ | ⟨hn, hk⟩
    · rw [hl.orders_eq]
      exact hl
    · rw [h.orders_frame hn (hother n hn hk)]
      exact (h.holds n hn).frame (hother n hn hk)
  · intro n hn
    rcases (h.mem_put hv).mp hn with ⟨hc, rfl⟩ | ⟨hn, hk⟩
    · rw [hl.orders_eq]
      exact hcnt hc
    · rw [h.orders_frame hn (hother n hn hk)]
      exact h.nonempty n hn
  · intro n hn p hp
    rcases (h.mem_put hv).mp hn with ⟨_, rfl⟩ | ⟨hn, hk⟩
    · rw [hl.orders_eq] at hp
      exact hplaced p hp
    · rw [h.orders_frame hn (hother n hn hk)] at hp
      rw [hother n hn hk p hp]
      exact h.placed n hn p hp

/-- After the edit, the slots at the edited price are `xs`. -/
theorem Shelved.queued_put (k : Int) (p : Ptr) :
    Queued m' (putLadder v i px l') k p ↔ k = px ∧ p ∈ xs ∨ k ≠ px ∧ Queued m v k p := by
  constructor
  · rintro ⟨x, hx, hp⟩
    rcases (h.mem_put hv).mp hx with ⟨_, he⟩ | ⟨hx, hk⟩
    · cases he
      exact Or.inl ⟨rfl, hl.orders_eq ▸ hp⟩
    · exact Or.inr ⟨hk, x, hx, h.orders_frame hx (hother _ hx hk) ▸ hp⟩
  · rintro (⟨rfl, hp⟩ | ⟨hk, x, hx, hp⟩)
    · have hc : l'.cnt ≠ 0 := by
        rw [hl.cnt]
        exact Nat.pos_iff_ne_zero.mp (List.length_pos_of_mem hp)
      exact ⟨l', (h.mem_put hv).mpr (Or.inl ⟨hc, rfl⟩), hl.orders_eq.symm ▸ hp⟩
    · exact ⟨x, (h.mem_put hv).mpr (Or.inr ⟨hx, hk⟩),
        (h.orders_frame hx (hother _ hx hk)).symm ▸ hp⟩

/-- The edit shows as writing the one level of the queues. -/
theorem Shelved.view_put :
    Ladder.mapValues (PriceLevel.view m') (putLadder v i px l') =
      if xs = [] then (Ladder.mapValues (PriceLevel.view m) v).eraseIdx i
      else (Ladder.mapValues (PriceLevel.view m) v).set i
        (px, ⟨l'.aggQty, xs.map fun p => (m' p).entry⟩) := by
  have hview : ∀ n ∈ v, n.1 ≠ px → n.2.view m' = n.2.view m := fun n hn hk =>
    h.view_frame hn (hother n hn hk)
  have hxs : xs = [] ↔ l'.cnt = 0 := by rw [hl.cnt, List.length_eq_zero_iff]
  have hnew : l'.view m' = ⟨l'.aggQty, xs.map fun p => (m' p).entry⟩ := by
    rw [PriceLevel.view, hl.orders_eq]
  by_cases hc : l'.cnt = 0
  · rw [putLadder, if_pos hc, if_pos (hxs.mpr hc)]
    exact h.sorted.mapValues_eraseIdx s.cmp_strict hv hview
  · rw [putLadder, if_neg hc, if_neg (mt hxs.mp hc), ← hnew]
    exact h.sorted.mapValues_set s.cmp_strict hv hview

end Put

section Insert

variable {m m' : Memory} {s : Side} {v : PriceLadder} {px : Int} {l : PriceLevel}
  {xs : List Ptr} (h : Shelved m s v) (hpx : ∀ n ∈ v, n.1 ≠ px) (hl : l.Holds m' xs)
  (hxs : xs ≠ [])
  (hplaced : ∀ p ∈ xs, (m' p).price = px ∧ (m' p).side = s ∧ (m' p).stopType = .none)
  (hother : ∀ n ∈ v, ∀ p ∈ n.2.orders m, m' p = m p)
include h hl hother

include hpx hxs hplaced in
/-- Inserting a level at a new price keeps the side well formed. -/
theorem Shelved.insert :
    Shelved m' s (v.insertIdx (Ladder.lower s.cmp px v) (px, l)) where
  sorted := h.sorted.insert s.cmp_strict hpx
  holds n hn := by
    rcases Ladder.mem_insertIdx_lower.mp hn with rfl | hn
    · rw [hl.orders_eq]
      exact hl
    · rw [h.orders_frame hn (hother n hn)]
      exact (h.holds n hn).frame (hother n hn)
  nonempty n hn := by
    rcases Ladder.mem_insertIdx_lower.mp hn with rfl | hn
    · rw [hl.orders_eq]
      exact hxs
    · rw [h.orders_frame hn (hother n hn)]
      exact h.nonempty n hn
  placed n hn p hp := by
    rcases Ladder.mem_insertIdx_lower.mp hn with rfl | hn
    · rw [hl.orders_eq] at hp
      exact hplaced p hp
    · rw [h.orders_frame hn (hother n hn)] at hp
      rw [hother n hn p hp]
      exact h.placed n hn p hp

include hpx in
theorem Shelved.queued_insert (k : Int) (p : Ptr) :
    Queued m' (v.insertIdx (Ladder.lower s.cmp px v) (px, l)) k p ↔
      k = px ∧ p ∈ xs ∨ k ≠ px ∧ Queued m v k p := by
  constructor
  · rintro ⟨x, hx, hp⟩
    rcases Ladder.mem_insertIdx_lower.mp hx with he | hx
    · cases he
      exact Or.inl ⟨rfl, hl.orders_eq ▸ hp⟩
    · exact Or.inr ⟨hpx _ hx, x, hx, h.orders_frame hx (hother _ hx) ▸ hp⟩
  · rintro (⟨rfl, hp⟩ | ⟨_, x, hx, hp⟩)
    · exact ⟨l, Ladder.mem_insertIdx_lower.mpr (Or.inl rfl), hl.orders_eq.symm ▸ hp⟩
    · exact ⟨x, Ladder.mem_insertIdx_lower.mpr (Or.inr hx),
        (h.orders_frame hx (hother _ hx)).symm ▸ hp⟩

theorem Shelved.view_insert :
    Ladder.mapValues (PriceLevel.view m') (v.insertIdx (Ladder.lower s.cmp px v) (px, l)) =
      (Ladder.mapValues (PriceLevel.view m) v).insertIdx (Ladder.lower s.cmp px v)
        (px, ⟨l.aggQty, xs.map fun p => (m' p).entry⟩) := by
  have hnew : l.view m' = ⟨l.aggQty, xs.map fun p => (m' p).entry⟩ := by
    rw [PriceLevel.view, hl.orders_eq]
  rw [← hnew]
  exact Ladder.mapValues_insert fun n hn => h.view_frame hn (hother n hn)

end Insert

end Lob
