import Lob.Queue.Ordered

/-!
# Cancelling entries

A cancellation takes one entry out of the one level it stands in. Described on
all levels alike, it leaves each without the entry of an id and drops a level
that has run empty. In this form two cancellations commute, and a cancellation
undoes an addition.
-/

namespace Lob.Queue

namespace Level

/-- What the entry of an id shows. -/
def shownBy (L : Level) (id : Nat) : Qty :=
  ((L.queue.find? fun e => e.id = id).map Entry.remaining).getD 0

/-- The level without the entry of an id. -/
def without (L : Level) (id : Nat) : Level :=
  { agg := L.agg - L.shownBy id, queue := L.queue.filter fun e => e.id ≠ id }

variable {L : Level} {e : Entry} {i j id : Nat}

theorem without_of_absent (h : ∀ e ∈ L.queue, e.id ≠ id) : L.without id = L := by
  have hfind : (L.queue.find? fun e => e.id = id) = none := by
    rw [List.find?_eq_none]
    intro e he
    simpa using h e he
  have hfilter : (L.queue.filter fun e => e.id ≠ id) = L.queue := by
    rw [List.filter_eq_self]
    intro e he
    exact decide_eq_true (h e he)
  rw [without, shownBy, hfind, hfilter, Option.map_none, Option.getD_none, UInt64.sub_zero]

/-- The entry of an id is the one that is taken out. -/
theorem Distinct.without_eq (hd : L.Distinct) (he : e ∈ L.queue) : L.without e.id = L.remove e := by
  obtain ⟨ys, zs, hq⟩ := List.append_of_mem he
  have hfind : (L.queue.find? fun x => x.id = e.id) = some e := by
    have hnone : (ys.find? fun x => x.id = e.id) = none := by
      rw [List.find?_eq_none]
      intro x hx
      simpa using (hd.split hq).1 x hx
    rw [hq, List.find?_append, hnone, Option.none_or, List.find?_cons_of_pos]
    exact decide_eq_true rfl
  rw [without, shownBy, hfind, remove, Option.map_some, Option.getD_some]

/-- Taking out the last entry undoes appending it. -/
theorem without_append (h : ∀ x ∈ L.queue, x.id ≠ e.id) : (L.append e).without e.id = L := by
  have hfind : (L.queue.find? fun x => x.id = e.id) = none := by
    rw [List.find?_eq_none]
    intro x hx
    simpa using h x hx
  have hfilter : (L.queue.filter fun x => x.id ≠ e.id) = L.queue := by
    rw [List.filter_eq_self]
    intro x hx
    exact decide_eq_true (h x hx)
  have hlast : (L.append e).shownBy e.id = e.remaining := by
    simp [shownBy, append, hfind]
  have hqueue : (L.append e).queue.filter (fun x => x.id ≠ e.id) = L.queue := by
    rw [append, List.filter_append, hfilter, List.filter_cons_of_neg (by simp), List.filter_nil,
      List.append_nil]
  rw [without, hlast, hqueue, append]
  simp

theorem shownBy_without (hij : i ≠ j) : (L.without i).shownBy j = L.shownBy j := by
  rw [shownBy, shownBy, without, List.find?_filter]
  congr 2
  refine congrArg (fun p => List.find? p L.queue) (funext fun e => ?_)
  by_cases he : e.id = j
  · simp [he, Ne.symm hij]
  · simp [he]

theorem without_without (hij : i ≠ j) : (L.without i).without j =
    ⟨L.agg - L.shownBy i - L.shownBy j, L.queue.filter fun e => e.id ≠ j ∧ e.id ≠ i⟩ := by
  have hagg : ((L.without i).without j).agg = L.agg - L.shownBy i - (L.without i).shownBy j := rfl
  have hqueue : ((L.without i).without j).queue =
      (L.queue.filter fun e => e.id ≠ i).filter fun e => e.id ≠ j := rfl
  rw [shownBy_without hij] at hagg
  rw [List.filter_filter] at hqueue
  simp only [Bool.decide_and, ← hagg, ← hqueue]

/-- The order in which two entries are taken out does not matter. -/
theorem without_comm (L : Level) (i j : Nat) :
    (L.without i).without j = (L.without j).without i := by
  by_cases hij : i = j
  · rw [hij]
  · have hagg : L.agg - L.shownBy i - L.shownBy j = L.agg - L.shownBy j - L.shownBy i := by grind
    rw [without_without hij, without_without (Ne.symm hij), hagg]
    simp only [and_comm]

end Level

/-- What cancelling an id makes of a level: it has lost the entry, or is dropped. -/
def cleared (id : Nat) (n : Int × Level) : Option (Int × Level) :=
  if (n.2.without id).queue = [] then none else some (n.1, n.2.without id)

/-- Of two cancellations, a level that runs empty is dropped once. -/
theorem cleared_bind (i j : Nat) (n : Int × Level) : (cleared i n).bind (cleared j) =
    if ((n.2.without i).without j).queue = [] then none
    else some (n.1, (n.2.without i).without j) := by
  rw [cleared]
  split
  · next hq =>
    have hq' : ((n.2.without i).without j).queue = [] := by
      rw [Level.without, hq, List.filter_nil]
    rw [if_pos hq', Option.bind_none]
  · rfl

namespace Book

variable {B : Book} {s t : Side} {px : Int} {i j id : Nat} {n : Int × Level} {qty : Qty}

theorem cleared_of_absent (hne : n.2.queue ≠ []) (h : ∀ e ∈ n.2.queue, e.id ≠ id) :
    cleared id n = some n := by
  rw [cleared, Level.without_of_absent h, if_neg hne]

theorem Ordered.sorted_cancel (h : B.Ordered) (id : Nat) (t : Side) :
    Ladder.Sorted t.cmp ((B.cancel id).ladder t) := by
  rw [cancel]
  cases hl : B.locate id with
  | none => exact h.sorted t
  | some S =>
    simp only
    by_cases ht : t = S.side
    · rw [put, ht, ladder_setLadder_self]
      split
      · exact (h.sorted _).eraseIdx _
      · exact (h.sorted _).set (at_of_locate hl).level
    · rw [ladder_put_of_ne ht]
      exact h.sorted t

theorem sorted_cleared {v : List (Int × Level)} (h : Ladder.Sorted t.cmp v) :
    Ladder.Sorted t.cmp (v.filterMap (cleared id)) := by
  refine List.Pairwise.filterMap _ (fun m m' hlt n hn n' hn' => ?_) h
  rw [cleared] at hn hn'
  split at hn
  · contradiction
  · split at hn'
    · contradiction
    · rw [← Option.some.inj hn, ← Option.some.inj hn']
      exact hlt

/-- A cancellation on all levels alike. -/
theorem Ordered.cancel_ladder (h : B.Ordered) (id : Nat) (t : Side) :
    (B.cancel id).ladder t = (B.ladder t).filterMap (cleared id) := by
  refine (h.sorted_cancel id t).ext t.cmp_strict (sorted_cleared (h.sorted t)) fun n => ?_
  rw [List.mem_filterMap, cancel]
  cases hl : B.locate id with
  | none =>
    have hself (m : Int × Level) (hm : m ∈ B.ladder t) : cleared id m = some m := by
      refine cleared_of_absent (h.nonempty t m hm) ?_
      rintro e he rfl
      obtain ⟨i, L, hat⟩ := Rests.exists_at ⟨m.2, hm, he⟩
      exact (locate_eq_none h.distinct).mp hl _ hat
    constructor
    · exact fun hn => ⟨n, hn, hself n hn⟩
    · rintro ⟨m, hm, hc⟩
      rw [hself m hm] at hc
      exact Option.some.inj hc ▸ hm
  | some S =>
    have hS := at_of_locate hl
    have hSmem := List.mem_of_getElem? hS.level
    have hout : cleared id (S.price, S.level) =
        if (S.level.remove S.entry).queue = [] then none
        else some (S.price, S.level.remove S.entry) := by
      have hwithout := (h.level _ _ hSmem).without_eq hS.mem
      rw [hS.id] at hwithout
      rw [cleared, hwithout]
    have hother (m : Int × Level) (hm : m ∈ B.ladder t) (hne : ¬ (t = S.side ∧ m.1 = S.price)) :
        cleared id m = some m := by
      refine cleared_of_absent (h.nonempty t m hm) ?_
      intro e he hid
      obtain ⟨rfl, hpx, _⟩ := h.rests_unique ⟨m.2, hm, he⟩ hS.rests (hid.trans hS.id.symm)
      exact hne ⟨rfl, hpx⟩
    rw [h.mem_put hS.level]
    constructor
    · rintro (⟨rfl, rfl, hq⟩ | ⟨hn, hne⟩)
      · exact ⟨_, hSmem, by rw [hout, if_neg hq]⟩
      · exact ⟨n, hn, hother n hn hne⟩
    · rintro ⟨m, hm, hc⟩
      by_cases hat : t = S.side ∧ m.1 = S.price
      · obtain ⟨rfl, hpx⟩ := hat
        have hval : m.2 = S.level :=
          (h.sorted S.side).value_unique S.side.cmp_strict (hpx ▸ hm) hSmem
        have hmS : m = (S.price, S.level) := Prod.ext hpx hval
        rw [hmS, hout] at hc
        split at hc
        · contradiction
        · next hq => exact Or.inl ⟨rfl, (Option.some.inj hc).symm, hq⟩
      · rw [hother m hm hat] at hc
        obtain rfl := Option.some.inj hc
        exact Or.inr ⟨hm, hat⟩

/-- Every queue loses the entry of the cancelled id. -/
theorem Ordered.queue_cancel (h : B.Ordered) (h' : (B.cancel id).Ordered) (t : Side) (k : Int) :
    ((B.cancel id).levelAt t k).queue = (B.levelAt t k).queue.filter fun e => e.id ≠ id := by
  have hladder := h.cancel_ladder id t
  rcases h.levelAt_cases t k with hm | ⟨hno, he⟩
  · by_cases hq : ((B.levelAt t k).without id).queue = []
    · rw [h'.levelAt_of_absent]
      · exact hq.symm
      · intro n hn hk
        rw [hladder, List.mem_filterMap] at hn
        obtain ⟨m, hmem, hc⟩ := hn
        rw [cleared] at hc
        split at hc
        · contradiction
        · next hne =>
          obtain rfl := Option.some.inj hc
          obtain rfl : m.1 = k := hk
          have hval := (h.sorted t).value_unique t.cmp_strict hmem hm
          rw [hval] at hne
          exact hne hq
    · have hmem : (k, (B.levelAt t k).without id) ∈ (B.cancel id).ladder t := by
        rw [hladder, List.mem_filterMap]
        exact ⟨_, hm, by rw [cleared, if_neg hq]⟩
      rw [h'.levelAt_of_mem hmem]
      rfl
  · rw [he, h'.levelAt_of_absent]
    · rfl
    · intro n hn hk
      rw [hladder, List.mem_filterMap] at hn
      obtain ⟨m, hmem, hc⟩ := hn
      rw [cleared] at hc
      split at hc
      · contradiction
      · obtain rfl := Option.some.inj hc
        exact hno m hmem hk

/-- Cancellations commute. -/
theorem Ordered.cancel_comm (h : B.Ordered) (hi : (B.cancel i).Ordered) (hj : (B.cancel j).Ordered)
    (t : Side) : ((B.cancel i).cancel j).ladder t = ((B.cancel j).cancel i).ladder t := by
  rw [hi.cancel_ladder, hj.cancel_ladder, h.cancel_ladder, h.cancel_ladder,
    List.filterMap_filterMap, List.filterMap_filterMap]
  refine congrArg (fun f => List.filterMap f (B.ladder t)) (funext fun n => ?_)
  rw [cleared_bind, cleared_bind, Level.without_comm]

/-- Cancelling the entry just added restores the levels. -/
theorem Ordered.cancel_add (h : B.Ordered) (ha : (B.add s px qty).Ordered) (t : Side) :
    ((B.add s px qty).cancel B.nextId).ladder t = B.ladder t := by
  rw [ha.cancel_ladder]
  refine (sorted_cleared (ha.sorted t)).ext t.cmp_strict (h.sorted t) fun n => ?_
  rw [List.mem_filterMap]
  have hfresh (k : Int) (L : Level) (hL : (k, L) ∈ B.ladder t) : ∀ e ∈ L.queue, e.id ≠ B.nextId :=
    fun e he => Nat.ne_of_lt (h.bound t _ hL e he).2
  have hself (m : Int × Level) (hm : m ∈ B.ladder t) : cleared B.nextId m = some m :=
    cleared_of_absent (h.nonempty t m hm) (hfresh m.1 m.2 hm)
  have hout (ht : t = s) : cleared B.nextId
      (px, (B.levelAt s px).append ⟨B.nextId, qty, qty, 0, 0⟩) =
      if (B.levelAt s px).queue = [] then none else some (px, B.levelAt s px) := by
    have hback : ((B.levelAt s px).append ⟨B.nextId, qty, qty, 0, 0⟩).without B.nextId =
        B.levelAt s px := by
      refine Level.without_append fun x hx => ?_
      obtain ⟨L, hL, hx⟩ := h.mem_levelAt.mp hx
      exact hfresh px L (ht ▸ hL) x hx
    rw [cleared, hback]
  constructor
  · rintro ⟨m, hm, hc⟩
    rcases h.mem_add.mp hm with ⟨rfl, rfl⟩ | ⟨hm, _⟩
    · rw [hout rfl] at hc
      split at hc
      · contradiction
      · next hq =>
        obtain rfl := Option.some.inj hc
        rcases h.levelAt_cases t px with hmem | ⟨_, he⟩
        · exact hmem
        · rw [he] at hq
          exact absurd rfl hq
    · rw [hself m hm] at hc
      exact Option.some.inj hc ▸ hm
  · intro hn
    by_cases hat : t = s ∧ n.1 = px
    · obtain ⟨rfl, rfl⟩ := hat
      have hlevel := h.levelAt_of_mem hn
      refine ⟨_, h.mem_add.mpr (Or.inl ⟨rfl, rfl⟩), ?_⟩
      rw [hout rfl, hlevel, if_neg (h.nonempty t n hn)]
    · exact ⟨n, h.mem_add.mpr (Or.inr ⟨hn, hat⟩), hself n hn⟩

end Book

end Lob.Queue
