import Lob.Resting.Runs

/-!
# Consistency of the book's structures

What the five structures of a book say about each other: the ladders, the lists
of the levels, the id table, the free list and the best prices.
-/

namespace Lob

namespace OrderBook

variable {b : OrderBook} {s : Side} {px : Int} {p : Ptr}

/-- The slots queued in any level. -/
def restingSlots (b : OrderBook) : List Ptr :=
  (b.bids ++ b.asks).flatMap fun n => n.2.orders b.mem

/-- The structures of a stop-free book agree. -/
structure Consistent (b : OrderBook) : Prop where
  bids_descending : b.bids.Pairwise fun m n => n.1 < m.1
  asks_ascending : b.asks.Pairwise fun m n => m.1 < n.1
  nonempty : ∀ s, ∀ n ∈ b.ladder s, n.2.cnt ≠ 0
  /-- Ends, links and count of a level are one list of orders of its side and price. -/
  list : ∀ s, ∀ n ∈ b.ladder s,
    Chain.IsList b.mem.links n.2.ends (n.2.orders b.mem) ∧ (n.2.orders b.mem).length = n.2.cnt ∧
      ∀ p ∈ n.2.orders b.mem, (b.mem p).price = n.1 ∧ (b.mem p).side = s
  /-- An id is mapped iff one order has it, queued in one level. -/
  mapped_iff : ∀ id, (∃ p, (b.idSlots[id]?).join = some p) ↔
    ∃! r : Side × Int × Ptr, b.On r.1 r.2.1 r.2.2 ∧ (b.mem r.2.2).orderId = id
  mapped_slot : ∀ id p, (b.idSlots[id]?).join = some p →
    b.On (b.mem p).side (b.mem p).price p ∧ (b.mem p).orderId = id
  partition : b.pool.mode = .pool →
    (b.pool.freelist ++ b.restingSlots).Perm (List.range b.pool.capacity)
  bestBid_iff : ∀ px, b.bestBid = some px ↔
    (∃ p, b.On .buy px p) ∧ ∀ k p, b.On .buy k p → k ≤ px
  bestAsk_iff : ∀ px, b.bestAsk = some px ↔
    (∃ p, b.On .sell px p) ∧ ∀ k p, b.On .sell k p → px ≤ k

theorem mem_restingSlots : p ∈ b.restingSlots ↔ ∃ s px, b.On s px p := by
  rw [restingSlots, List.mem_flatMap]
  constructor
  · rintro ⟨n, hn, hp⟩
    rcases List.mem_append.mp hn with hn | hn
    · exact ⟨.buy, n.1, n.2, hn, hp⟩
    · exact ⟨.sell, n.1, n.2, hn, hp⟩
  · rintro ⟨s, px, l, hl, hp⟩
    refine ⟨(px, l), List.mem_append.mpr ?_, hp⟩
    cases s with
    | buy => exact Or.inl hl
    | sell => exact Or.inr hl

namespace WellFormed

variable (h : b.WellFormed)
include h

/-- No slot is queued twice. -/
theorem nodup_restingSlots : b.restingSlots.Nodup := by
  rw [restingSlots, List.nodup_flatMap]
  have hside (s : Side) : (b.ladder s).Pairwise fun m n =>
      List.Disjoint (m.2.orders b.mem) (n.2.orders b.mem) := by
    refine (List.Pairwise.and_mem.mp (h.shelved s).sorted).imp ?_
    rintro m n ⟨hm, hn, hlt⟩ p hpm hpn
    have hk : m.1 = n.1 := ((h.shelved s).placed m hm p hpm).1.symm.trans
      ((h.shelved s).placed n hn p hpn).1
    rw [hk, s.cmp_strict.irrefl] at hlt
    contradiction
  constructor
  · intro n hn
    rcases List.mem_append.mp hn with hn | hn
    · exact ((h.shelved .buy).holds n hn).list.nodup
    · exact ((h.shelved .sell).holds n hn).list.nodup
  · rw [List.pairwise_append]
    refine ⟨hside .buy, hside .sell, ?_⟩
    intro m hm n hn p hpm hpn
    have hb := ((h.shelved .buy).placed m hm p hpm).2.1
    have hs := ((h.shelved .sell).placed n hn p hpn).2.1
    rw [hb] at hs
    contradiction

/-- Without stops, the mapped slots are the queued ones. -/
theorem live_iff (hs : b.StopFree) : b.Live p ↔ ∃ s px, b.On s px p := by
  constructor
  · rintro ⟨id, hf⟩
    have hst : (b.mem p).stopType = .none := by
      by_contra hne
      have hsome := stopSlot_eq_some.mpr ⟨hf, hne, rfl⟩
      rw [hs id] at hsome
      contradiction
    exact ⟨_, _, h.resting id p hf hst⟩
  · rintro ⟨s, px, ho⟩
    exact h.live_of_on ho

theorem partition (hs : b.StopFree) (hm : b.pool.mode = .pool) :
    (b.pool.freelist ++ b.restingSlots).Perm (List.range b.pool.capacity) := by
  refine (List.perm_ext_iff_of_nodup ?_ List.nodup_range).mpr fun q => ?_
  · refine List.nodup_append.mpr ⟨h.pool.nodup, h.nodup_restingSlots, ?_⟩
    rintro q hf r hr rfl
    exact h.pool.free q hf ((h.live_iff hs).mpr (mem_restingSlots.mp hr))
  · rw [List.mem_append, List.mem_range, h.pool.slots hm, h.live_iff hs, mem_restingSlots]

/-- The first level has the best price of its side. -/
theorem best_iff (px : Int) : b.best s = some px ↔
    (∃ p, b.On s px p) ∧ ∀ k p, b.On s k p → k = px ∨ s.cmp px k = true := by
  have hsorted := (h.shelved s).sorted
  have hne := (h.shelved s).nonempty
  rw [best]
  cases hv : b.ladder s with
  | nil =>
    simp only [List.head?_nil, Option.map_none, reduceCtorEq, false_iff, not_and]
    rintro ⟨p, l, hl, _⟩
    rw [hv] at hl
    contradiction
  | cons n rest =>
    rw [hv] at hsorted hne
    obtain ⟨hfirst, _⟩ := List.pairwise_cons.mp hsorted
    obtain ⟨q, hq⟩ := List.exists_mem_of_ne_nil _ (hne n List.mem_cons_self)
    have hon : b.On s n.1 q := ⟨n.2, by rw [hv]; exact List.mem_cons_self, hq⟩
    have hbest : ∀ k p, b.On s k p → k = n.1 ∨ s.cmp n.1 k = true := by
      rintro k p ⟨l, hl, _⟩
      rw [hv] at hl
      rcases List.mem_cons.mp hl with he | hl
      · exact Or.inl (congrArg Prod.fst he)
      · exact Or.inr (hfirst _ hl)
    simp only [List.head?_cons, Option.map_some, Option.some.injEq]
    constructor
    · rintro rfl
      exact ⟨⟨q, hon⟩, hbest⟩
    · rintro ⟨⟨p, hp⟩, hall⟩
      rcases hall _ _ hon with he | hlt
      · exact he
      · rcases hbest _ _ hp with he | hlt'
        · exact he.symm
        · rw [s.cmp_strict.asymm hlt] at hlt'
          contradiction

/-- A well-formed book without stops is consistent. -/
theorem consistent (hs : b.StopFree) : b.Consistent where
  bids_descending := (h.shelved .buy).sorted.imp fun hlt => of_decide_eq_true hlt
  asks_ascending := (h.shelved .sell).sorted.imp fun hlt => of_decide_eq_true hlt
  nonempty s n hn := by
    rw [((h.shelved s).holds n hn).cnt, ne_eq, List.length_eq_zero_iff]
    exact (h.shelved s).nonempty n hn
  list s n hn := by
    have hl := (h.shelved s).holds n hn
    exact ⟨hl.list, hl.cnt.symm, fun p hp =>
      ⟨((h.shelved s).placed n hn p hp).1, ((h.shelved s).placed n hn p hp).2.1⟩⟩
  mapped_iff id := by
    rw [← findId_eq]
    constructor
    · rintro ⟨p, hf⟩
      have horder := (h.table id p hf).1
      obtain ⟨s, px, ho⟩ := (h.live_iff hs).mp ⟨id, hf⟩
      refine ⟨(s, px, p), ⟨ho, horder⟩, ?_⟩
      rintro ⟨t, k, q⟩ ⟨hq, hid⟩
      obtain rfl : q = p := h.orderId_inj hq ho (hid.trans horder.symm)
      have hp := h.placed ho
      have hq := h.placed hq
      rw [hp.1] at hq
      rw [hp.2.1] at hq
      rw [hq.1, hq.2.1]
    · rintro ⟨⟨s, px, p⟩, ⟨ho, hid⟩, _⟩
      exact ⟨p, hid ▸ h.mapped s px p ho⟩
  mapped_slot id p hf := by
    rw [← findId_eq] at hf
    obtain ⟨s, px, ho⟩ := (h.live_iff hs).mp ⟨id, hf⟩
    obtain ⟨hpx, hside, _⟩ := h.placed ho
    exact ⟨hside ▸ hpx ▸ ho, (h.table id p hf).1⟩
  partition := h.partition hs
  bestBid_iff px := by
    rw [bestBid, h.best_iff]
    simp only [Side.cmp, decide_eq_true_eq]
    constructor <;> rintro ⟨hp, hall⟩ <;> refine ⟨hp, fun k p ho => ?_⟩ <;>
      have := hall k p ho <;> omega
  bestAsk_iff px := by
    rw [bestAsk, h.best_iff]
    simp only [Side.cmp, decide_eq_true_eq]
    constructor <;> rintro ⟨hp, hall⟩ <;> refine ⟨hp, fun k p ho => ?_⟩ <;>
      have := hall k p ho <;> omega

end WellFormed

end OrderBook

end Lob
