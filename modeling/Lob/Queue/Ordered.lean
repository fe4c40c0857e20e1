import Lob.Queue.Matching

/-!
# Well-formed queues

Both ladders are sorted, no queue is empty, and an id stands at one place. An
edit of one level then leaves the nodes of all other prices as they were, and
an entry splits the queue it stands in.
-/

namespace Lob.Queue

namespace Level

variable {L : Level} {e e' : Entry} {ys zs : List Entry} {agg : Qty}

/-- The entries of a level have different ids. -/
def Distinct (L : Level) : Prop := (L.queue.map Entry.id).Nodup

/-- The ids around an entry differ from its own. -/
theorem Distinct.split (h : L.Distinct) (hq : L.queue = ys ++ e :: zs) :
    (∀ x ∈ ys, x.id ≠ e.id) ∧ ∀ x ∈ zs, x.id ≠ e.id := by
  rw [Distinct, hq, List.map_append, List.map_cons, List.nodup_append, List.nodup_cons] at h
  constructor
  · intro x hx he
    exact h.2.2 x.id (List.mem_map_of_mem hx) e.id (by simp) he
  · intro x hx he
    exact h.2.1.1 (he ▸ List.mem_map_of_mem hx)

/-- Rewriting replaces the entry where it stands. -/
theorem Distinct.rewrite_eq (h : L.Distinct) (hq : L.queue = ys ++ e :: zs) (he : e'.id = e.id) :
    L.rewrite e' agg = ⟨agg, ys ++ e' :: zs⟩ := by
  obtain ⟨hys, hzs⟩ := h.split hq
  have hkeep (ws : List Entry) (hws : ∀ x ∈ ws, x.id ≠ e.id) :
      ws.map (fun x => if x.id = e'.id then e' else x) = ws := by
    rw [List.map_congr_left (g := id), List.map_id]
    intro x hx
    exact if_neg (he ▸ hws x hx)
  rw [rewrite, hq, List.map_append, List.map_cons, hkeep ys hys, hkeep zs hzs, if_pos he.symm]

/-- Removing closes the gap. -/
theorem Distinct.remove_eq (h : L.Distinct) (hq : L.queue = ys ++ e :: zs) (he : e'.id = e.id) :
    ({ L with agg } : Level).remove e' = ⟨agg - e'.remaining, ys ++ zs⟩ := by
  obtain ⟨hys, hzs⟩ := h.split hq
  have hkeep (ws : List Entry) (hws : ∀ x ∈ ws, x.id ≠ e.id) :
      ws.filter (fun x => x.id ≠ e'.id) = ws := by
    rw [List.filter_eq_self]
    intro x hx
    exact decide_eq_true (he ▸ hws x hx)
  rw [remove, hq, List.filter_append, List.filter_cons_of_neg (by simp [he]), hkeep ys hys,
    hkeep zs hzs]

/-- The three outcomes of a fill, by what is left of the entry. -/
theorem Distinct.fill_eq (h : L.Distinct) (hq : L.queue = ys ++ e :: zs) (amt : Qty) :
    L.fill e amt agg =
      if e.remaining - amt = 0 then
        if e.Refillable then ⟨agg - 0 + min e.display e.hidden, ys ++ zs ++ [(e.take amt).refill]⟩
        else ⟨agg - 0, ys ++ zs⟩
      else ⟨agg, ys ++ e.take amt :: zs⟩ := by
  have hid : (e.take amt).id = e.id := rfl
  have hrem : (e.take amt).remaining = e.remaining - amt := rfl
  rw [fill, h.remove_eq hq hid, h.rewrite_eq hq hid, hrem]
  split
  · next hz =>
    rw [hz]
    split <;> rfl
  · rfl

/-- An entry at the head that hides nothing keeps its place or leaves. -/
theorem Distinct.queue_fill (h : L.Distinct) (hq : L.queue = e :: zs) (hd : e.display = 0)
    (amt agg : Qty) :
    (L.fill e amt agg).queue = if e.remaining - amt = 0 then zs else e.take amt :: zs := by
  have hno : ¬ e.Refillable := fun hr => hr.1 hd
  rw [h.fill_eq (show L.queue = [] ++ e :: zs from hq), if_neg hno]
  split
  · rfl
  · rfl

end Level

/-- The invariant of the queues. -/
structure Book.Ordered (B : Book) : Prop where
  sorted : ∀ s, Ladder.Sorted s.cmp (B.ladder s)
  nonempty : ∀ s, ∀ n ∈ B.ladder s, n.2.queue ≠ []
  level : ∀ s, ∀ n ∈ B.ladder s, n.2.Distinct
  distinct : B.Distinct
  bound : ∀ s, ∀ n ∈ B.ladder s, ∀ e ∈ n.2.queue, 0 < e.id ∧ e.id < B.nextId

namespace Book

variable {B : Book} {s t : Side} {i id : Nat} {px k : Int} {L L' : Level} {e x : Entry}
  {n : Int × Level} {S : Spot}

/-- The ladder written is the one read. -/
@[simp] theorem ladder_setLadder_self (v : List (Int × Level)) :
    (B.setLadder s v).ladder s = v := by
  cases s <;> rfl

/-- The other side keeps its ladder. -/
theorem ladder_setLadder_of_ne (v : List (Int × Level)) (h : t ≠ s) :
    (B.setLadder s v).ladder t = B.ladder t := by
  cases s <;> cases t <;> first | rfl | exact absurd rfl h

/-- Using an id leaves the ladders alone. -/
@[simp] theorem ladder_withNextId (m : Nat) : { B with nextId := m }.ladder s = B.ladder s := by
  cases s <;> rfl

/-- Writing a level uses no id. -/
@[simp] theorem nextId_put : (B.put s i px L).nextId = B.nextId := by
  cases s <;> rfl

/-- A cancel uses no id. -/
theorem nextId_cancel : (B.cancel id).nextId = B.nextId := by
  rw [cancel]
  split
  · rfl
  · exact nextId_put

/-- A configuration uses no id. -/
theorem nextId_configure {display : Qty} : (B.configure id display).nextId = B.nextId := by
  rw [configure]
  cases B.locate id with
  | none => rfl
  | some S =>
    simp only
    split
    · rfl
    · exact nextId_put

/-- Writing a level leaves the other side alone. -/
theorem ladder_put_of_ne (h : t ≠ s) : (B.put s i px L).ladder t = B.ladder t :=
  ladder_setLadder_of_ne _ h

/-- The search returns a place where the entry stands. -/
theorem at_of_locate {B : Book} {id : Nat} {S : Spot} (h : B.locate id = some S) : B.At id S := by
  have hin (s : Side) (S : Spot) (hs : B.locateIn s id = some S) : B.At id S := by
    obtain ⟨n, hn, he⟩ := List.exists_of_findSome?_eq_some hs
    obtain ⟨e, hf, rfl⟩ := Option.map_eq_some_iff.mp he
    have hz := List.mk_mem_zipIdx_iff_getElem?.mp hn
    exact ⟨hz, List.mem_of_find?_eq_some hf, by simpa using List.find?_some hf⟩
  rw [locate, Option.or_eq_some_iff] at h
  rcases h with h | ⟨_, h⟩
  · exact hin .buy S h
  · exact hin .sell S h

/-- An entry that stands somewhere is found. -/
theorem locate_of_at {B : Book} {id : Nat} {S : Spot} (hd : B.Distinct) (h : B.At id S) :
    B.locate id = some S := by
  have hin : B.locateIn S.side id ≠ none := by
    rw [locateIn, ne_eq, List.findSome?_eq_none_iff]
    intro hall
    have hz := hall ((S.price, S.level), S.index) (List.mk_mem_zipIdx_iff_getElem?.mpr h.level)
    rw [Option.map_eq_none_iff, List.find?_eq_none] at hz
    exact hz S.entry h.mem (by simpa using h.id)
  have hsome : B.locate id ≠ none := by
    rw [locate]
    cases hs : S.side <;> rw [hs] at hin
    · cases hb : B.locateIn .buy id with
      | none => exact absurd hb hin
      | some T => simp
    · cases hb : B.locateIn .buy id <;> simp [hin]
  obtain ⟨T, hT⟩ := Option.ne_none_iff_exists'.mp hsome
  rw [hT, hd id T S (at_of_locate hT) h]

/-- The search fails exactly when the entry stands nowhere. -/
theorem locate_eq_none {B : Book} {id : Nat} (hd : B.Distinct) :
    B.locate id = none ↔ ∀ S, ¬ B.At id S := by
  constructor
  · intro h S hS
    rw [locate_of_at hd hS] at h
    contradiction
  · intro h
    cases hl : B.locate id with
    | none => rfl
    | some S => exact absurd (at_of_locate hl) (h S)

/-- An entry with id `id` rests on side `s` at price `px`. -/
def Rests (B : Book) (s : Side) (px : Int) (e : Entry) : Prop :=
  ∃ L, (px, L) ∈ B.ladder s ∧ e ∈ L.queue

/-- A located entry rests. -/
theorem At.rests (h : B.At id S) : B.Rests S.side S.price S.entry :=
  ⟨S.level, List.mem_of_getElem? h.level, h.mem⟩

/-- A resting entry can be located. -/
theorem Rests.exists_at (h : B.Rests s px e) :
    ∃ i L, B.At e.id ⟨s, i, px, L, e⟩ := by
  obtain ⟨L, hL, he⟩ := h
  obtain ⟨i, hi⟩ := List.mem_iff_getElem?.mp hL
  exact ⟨i, L, hi, he, rfl⟩

/-- The resting entry of an id and its place are unique. -/
theorem Ordered.rests_unique (h : B.Ordered) (he : B.Rests s px e) (hx : B.Rests t k x)
    (hid : e.id = x.id) : s = t ∧ px = k ∧ e = x := by
  obtain ⟨i, L, hi⟩ := he.exists_at
  obtain ⟨j, L', hj⟩ := hx.exists_at
  rw [hid] at hi
  have hS := h.distinct _ _ _ hi hj
  simp only [Spot.mk.injEq] at hS
  exact ⟨hS.1, hS.2.2.1, hS.2.2.2.2⟩

/-- Writing one level: the level written, if it has entries, and the nodes of other prices. -/
theorem Ordered.mem_put (h : B.Ordered) (hi : (B.ladder s)[i]? = some (px, L)) :
    n ∈ (B.put s i px L').ladder t ↔
      (t = s ∧ n = (px, L') ∧ L'.queue ≠ []) ∨ n ∈ B.ladder t ∧ ¬ (t = s ∧ n.1 = px) := by
  by_cases ht : t = s
  · subst ht
    rw [put, ladder_setLadder_self]
    split
    · next hq =>
      rw [(h.sorted t).mem_eraseIdx t.cmp_strict hi]
      simp [hq]
    · next hq =>
      rw [(h.sorted t).mem_set t.cmp_strict hi]
      simp [hq]
  · rw [ladder_put_of_ne ht]
    simp [ht]

/-- The level at a price, an empty one when there is none. -/
def levelAt (B : Book) (s : Side) (px : Int) : Level :=
  match Ladder.find s.cmp px (B.ladder s) with
  | some (_, L) => L
  | none => ⟨0, []⟩

/-- A price has one level. -/
theorem Ordered.levelAt_of_mem (h : B.Ordered) (hL : (px, L) ∈ B.ladder s) :
    B.levelAt s px = L := by
  obtain ⟨i, hf, _⟩ := (h.sorted s).find_of_mem s.cmp_strict hL
  rw [levelAt, hf]

/-- The entries of the level at a price are those that rest there. -/
theorem Ordered.mem_levelAt (h : B.Ordered) :
    e ∈ (B.levelAt s px).queue ↔ B.Rests s px e := by
  constructor
  · intro he
    rw [levelAt] at he
    split at he
    · next i L hf =>
      exact ⟨L, List.mem_of_getElem? (((h.sorted s).find_eq_some s.cmp_strict).mp hf), he⟩
    · contradiction
  · rintro ⟨L, hL, he⟩
    rw [h.levelAt_of_mem hL]
    exact he

/-- A price without a level has an empty one. -/
theorem Ordered.levelAt_of_absent (h : B.Ordered) (hpx : ∀ n ∈ B.ladder s, n.1 ≠ px) :
    B.levelAt s px = ⟨0, []⟩ := by
  rw [levelAt, ((h.sorted s).find_eq_none s.cmp_strict).mpr hpx]

/-- A level is stored, or it is the empty one. -/
theorem Ordered.levelAt_cases (h : B.Ordered) (s : Side) (px : Int) :
    (px, B.levelAt s px) ∈ B.ladder s ∨
      (∀ n ∈ B.ladder s, n.1 ≠ px) ∧ B.levelAt s px = ⟨0, []⟩ := by
  by_cases hpx : ∃ L, (px, L) ∈ B.ladder s
  · obtain ⟨L, hL⟩ := hpx
    rw [h.levelAt_of_mem hL]
    exact Or.inl hL
  · have hno : ∀ n ∈ B.ladder s, n.1 ≠ px := by
      rintro n hn rfl
      exact hpx ⟨n.2, hn⟩
    exact Or.inr ⟨hno, h.levelAt_of_absent hno⟩

/-- The level at the written price holds the written queue; other queues are as before. -/
theorem Ordered.queue_put (h : B.Ordered) (hi : (B.ladder s)[i]? = some (px, L))
    (h' : (B.put s i px L').Ordered) :
    ((B.put s i px L').levelAt t k).queue =
      if t = s ∧ k = px then L'.queue else (B.levelAt t k).queue := by
  by_cases hk : t = s ∧ k = px
  · rw [if_pos hk]
    obtain ⟨rfl, rfl⟩ := hk
    by_cases hq : L'.queue = []
    · rw [h'.levelAt_of_absent, hq]
      intro n hn
      rcases (h.mem_put hi).mp hn with ⟨_, _, hne⟩ | ⟨_, hne⟩
      · exact absurd hq hne
      · exact fun hc => hne ⟨rfl, hc⟩
    · rw [h'.levelAt_of_mem ((h.mem_put hi).mpr (Or.inl ⟨rfl, rfl, hq⟩))]
  · rw [if_neg hk]
    rcases h.levelAt_cases t k with hm | ⟨hno, he⟩
    · rw [h'.levelAt_of_mem ((h.mem_put hi).mpr (Or.inr ⟨hm, hk⟩))]
    · rw [he, h'.levelAt_of_absent]
      intro n hn hnk
      rcases (h.mem_put hi).mp hn with ⟨ht, rfl, _⟩ | ⟨hn, _⟩
      · exact hk ⟨ht, hnk.symm⟩
      · exact hno n hn hnk

/-- Adding an entry: its level with the entry appended, and the nodes of other prices. -/
theorem Ordered.mem_add (h : B.Ordered) {qty : Qty} :
    n ∈ (B.add s px qty).ladder t ↔
      (t = s ∧ n = (px, (B.levelAt s px).append ⟨B.nextId, qty, qty, 0, 0⟩)) ∨
      n ∈ B.ladder t ∧ ¬ (t = s ∧ n.1 = px) := by
  rw [add, ladder_withNextId]
  by_cases ht : t = s
  · subst ht
    rw [ladder_setLadder_self, enqueue, Ladder.findOrEmplace, levelAt]
    cases hf : Ladder.find t.cmp px (B.ladder t) with
    | some r =>
      have hi := ((h.sorted t).find_eq_some t.cmp_strict).mp hf
      simp only
      rw [(h.sorted t).mem_set t.cmp_strict hi]
      simp
    | none =>
      have hpx := ((h.sorted t).find_eq_none t.cmp_strict).mp hf
      simp only [Ladder.set_insertIdx]
      rw [Ladder.mem_insertIdx_lower]
      constructor
      · rintro (hn | hn)
        · exact Or.inl ⟨trivial, hn⟩
        · exact Or.inr ⟨hn, fun hc => hpx n hn hc.2⟩
      · rintro (⟨_, hn⟩ | ⟨hn, _⟩)
        · exact Or.inl hn
        · exact Or.inr hn
  · rw [ladder_setLadder_of_ne _ ht]
    simp [ht]

end Book

end Lob.Queue
