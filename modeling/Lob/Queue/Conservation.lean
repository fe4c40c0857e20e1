import Lob.Queue.Entries

/-!
# Conservation of quantity

A fill takes from an entry what it reports: the visible and the hidden part lose that
much together, or the entry leaves with nothing left. An order is balanced when what
has been executed against it and what the book still holds make up its size.
-/

namespace Lob.Queue

namespace Entry

/-- The visible and the hidden quantity of an entry. -/
def total (e : Entry) : Nat := e.remaining.toNat + e.hidden.toNat

/-- Only an entry with a display size hides anything. -/
def Displayed (e : Entry) : Prop := e.display = 0 → e.hidden = 0

/-- What a fill leaves of an entry. -/
def filled (e : Entry) (amt : Qty) : Option Entry :=
  if (e.take amt).remaining = 0 then
    if e.Refillable then some (e.take amt).refill else none
  else some (e.take amt)

variable {e x : Entry} {amt display : Qty}

/-- A fill keeps the id. -/
theorem filled_id (h : e.filled amt = some x) : x.id = e.id := by
  rw [filled] at h
  split at h
  · split at h
    · obtain rfl := Option.some.inj h
      rfl
    · contradiction
  · obtain rfl := Option.some.inj h
    rfl

/-- Showing a slice moves quantity from the hidden to the visible part. -/
theorem total_refill (hz : e.remaining = 0) : e.refill.total = e.total := by
  have hle : min e.display e.hidden ≤ e.hidden := Word.min_le_right _ _
  have hsub := Word.toNat_sub hle
  rw [UInt64.le_iff_toNat_le] at hle
  simp only [total, refill, hsub, hz, UInt64.toNat_zero]
  omega

/-- A fill takes from the total what it fills. -/
theorem total_take (ha : amt ≤ e.remaining) : (e.take amt).total + amt.toNat = e.total := by
  have hsub := Word.toNat_sub ha
  rw [UInt64.le_iff_toNat_le] at ha
  simp only [total, take, hsub]
  omega

/-- What stays in the book is what was there less the fill. -/
theorem filled_total (h : e.filled amt = some x) (ha : amt ≤ e.remaining) :
    x.total + amt.toNat = e.total := by
  have htake := total_take ha
  rw [filled] at h
  split at h
  · next hz =>
    split at h
    · obtain rfl := Option.some.inj h
      rw [total_refill hz, htake]
    · contradiction
  · obtain rfl := Option.some.inj h
    exact htake

/-- An entry that leaves is filled completely. -/
theorem filled_none (h : e.filled amt = none) (ha : amt ≤ e.remaining) (hd : e.Displayed) :
    amt.toNat = e.total := by
  have htake := total_take ha
  rw [filled] at h
  split at h
  · next hz =>
    split at h
    · contradiction
    · next hr =>
      have hh : e.hidden = 0 := by
        by_contra hh
        by_cases hdis : e.display = 0
        · exact hh (hd hdis)
        · exact hr ⟨hdis, hh⟩
      have hzero : (e.take amt).total = 0 := by
        simp only [total, hz]
        rw [show (e.take amt).hidden = e.hidden from rfl, hh]
        rfl
      omega
  · contradiction

/-- The split of `configure_iceberg` covers the whole size. -/
theorem total_configured : (Book.configured e display).total = e.qty.toNat := by
  simp only [total, Book.configured, Word.toNat_min]
  split
  · next hlt =>
    have hle : display ≤ e.qty := UInt64.le_of_lt hlt
    have hsub := Word.toNat_sub hle
    rw [UInt64.le_iff_toNat_le] at hle
    omega
  · next hlt =>
    rw [UInt64.lt_iff_toNat_lt] at hlt
    simp only [UInt64.toNat_zero]
    omega

end Entry

variable {B : Book} {s t : Side} {px k : Int} {i id j : Nat} {L L' : Level} {e x : Entry}
  {S : Spot} {amt agg qty display : Qty} {size ex : Nat} {gone : Prop}

namespace Level

/-- After a fill the others stand, and what is left of the filled entry. -/
theorem Distinct.mem_fill_iff (h : L.Distinct) (he : e ∈ L.queue) :
    x ∈ (L.fill e amt agg).queue ↔ (x ∈ L.queue ∧ x.id ≠ e.id) ∨ e.filled amt = some x := by
  obtain ⟨ys, zs, hq⟩ := List.append_of_mem he
  obtain ⟨hys, hzs⟩ := h.split hq
  have hothers : x ∈ L.queue ∧ x.id ≠ e.id ↔ x ∈ ys ∨ x ∈ zs := by
    rw [hq, List.mem_append, List.mem_cons]
    constructor
    · rintro ⟨hx | rfl | hx, hne⟩
      · exact Or.inl hx
      · exact absurd rfl hne
      · exact Or.inr hx
    · rintro (hx | hx)
      · exact ⟨Or.inl hx, hys x hx⟩
      · exact ⟨Or.inr (Or.inr hx), hzs x hx⟩
  rw [h.fill_eq hq, hothers, Entry.filled, show (e.take amt).remaining = e.remaining - amt from rfl]
  split
  · split
    · simp [or_assoc, eq_comm]
    · simp
  · simp only [List.mem_append, List.mem_cons, Option.some.injEq]
    tauto

/-- A removal takes the entries of one id. -/
theorem mem_remove_iff : x ∈ (L.remove e).queue ↔ x ∈ L.queue ∧ x.id ≠ e.id := by
  simp [remove]

/-- After a rewrite the others stand, and the new entry. -/
theorem Distinct.mem_rewrite_iff (h : L.Distinct) (he : e ∈ L.queue) {e' : Entry}
    (hid : e'.id = e.id) :
    x ∈ (L.rewrite e' agg).queue ↔ (x ∈ L.queue ∧ x.id ≠ e.id) ∨ some e' = some x := by
  obtain ⟨ys, zs, hq⟩ := List.append_of_mem he
  obtain ⟨hys, hzs⟩ := h.split hq
  rw [h.rewrite_eq hq hid, hq]
  simp only [List.mem_append, List.mem_cons, Option.some.injEq]
  constructor
  · rintro (hx | rfl | hx)
    · exact Or.inl ⟨Or.inl hx, hys x hx⟩
    · exact Or.inr rfl
    · exact Or.inl ⟨Or.inr (Or.inr hx), hzs x hx⟩
  · rintro (⟨hx | rfl | hx, hne⟩ | rfl)
    · exact Or.inl hx
    · exact absurd rfl hne
    · exact Or.inr (Or.inr hx)
    · exact Or.inr (Or.inl rfl)

end Level

namespace Book

/-- Replacing or removing one entry of its level: the other entries rest where they did. -/
theorem Ordered.rests_edit (h : B.Ordered) (hS : B.At id S) {r : Option Entry}
    (hL : ∀ x, x ∈ L'.queue ↔ (x ∈ S.level.queue ∧ x.id ≠ id) ∨ r = some x) :
    (B.put S.side S.index S.price L').Rests t k x ↔
      (B.Rests t k x ∧ x.id ≠ id) ∨ (t = S.side ∧ k = S.price ∧ r = some x) := by
  have hlevel := List.mem_of_getElem? hS.level
  constructor
  · rintro ⟨M, hM, hx⟩
    rcases (h.mem_put hS.level).mp hM with ⟨rfl, he, _⟩ | ⟨hM, hk⟩
    · obtain ⟨rfl, rfl⟩ := Prod.mk.inj he
      rcases (hL x).mp hx with ⟨hx, hne⟩ | hr
      · exact Or.inl ⟨⟨S.level, hlevel, hx⟩, hne⟩
      · exact Or.inr ⟨rfl, rfl, hr⟩
    · refine Or.inl ⟨⟨M, hM, hx⟩, fun hid => hk ?_⟩
      have hu := h.rests_unique ⟨M, hM, hx⟩ hS.rests (hid.trans hS.id.symm)
      exact ⟨hu.1, hu.2.1⟩
  · rintro (⟨⟨M, hM, hx⟩, hne⟩ | ⟨rfl, rfl, hr⟩)
    · by_cases hk : t = S.side ∧ k = S.price
      · obtain ⟨rfl, rfl⟩ := hk
        obtain rfl := (h.sorted S.side).value_unique S.side.cmp_strict hM hlevel
        have hx' := (hL x).mpr (Or.inl ⟨hx, hne⟩)
        exact ⟨L', (h.mem_put hS.level).mpr (Or.inl ⟨rfl, rfl, List.ne_nil_of_mem hx'⟩), hx'⟩
      · exact ⟨M, (h.mem_put hS.level).mpr (Or.inr ⟨hM, hk⟩), hx⟩
    · have hx' := (hL x).mpr (Or.inr hr)
      exact ⟨L', (h.mem_put hS.level).mpr (Or.inl ⟨rfl, rfl, List.ne_nil_of_mem hx'⟩), hx'⟩

/-- A fill changes what rests under its id only. -/
theorem Ordered.rests_fill (h : B.Ordered) (hS : B.At id S) (amt agg : Qty) (t : Side) (k : Int)
    (x : Entry) :
    (B.put S.side S.index S.price (S.level.fill S.entry amt agg)).Rests t k x ↔
      (B.Rests t k x ∧ x.id ≠ id) ∨
        (t = S.side ∧ k = S.price ∧ S.entry.filled amt = some x) := by
  refine h.rests_edit hS fun y => ?_
  rw [(h.level _ _ (List.mem_of_getElem? hS.level)).mem_fill_iff hS.mem, hS.id]

/-- A rewrite changes what rests under its id only. -/
theorem Ordered.rests_rewrite (h : B.Ordered) (hS : B.At id S) {e : Entry} (he : e.id = id)
    (agg : Qty) (t : Side) (k : Int) (x : Entry) :
    (B.put S.side S.index S.price (S.level.rewrite e agg)).Rests t k x ↔
      (B.Rests t k x ∧ x.id ≠ id) ∨ (t = S.side ∧ k = S.price ∧ some e = some x) := by
  refine h.rests_edit hS fun y => ?_
  rw [(h.level _ _ (List.mem_of_getElem? hS.level)).mem_rewrite_iff hS.mem (he.trans hS.id.symm),
    hS.id]

/-- After a removal nothing rests under its id. -/
theorem Ordered.rests_remove (h : B.Ordered) (hS : B.At id S) :
    (B.put S.side S.index S.price (S.level.remove S.entry)).Rests t k x ↔
      B.Rests t k x ∧ x.id ≠ id := by
  rw [h.rests_edit hS (r := none) fun y => by rw [Level.mem_remove_iff, hS.id]; simp]
  simp

/-- An add lets one more entry rest. -/
theorem Ordered.rests_add (h : B.Ordered) : (B.add s px qty).Rests t k x ↔
    B.Rests t k x ∨ (t = s ∧ k = px ∧ x = ⟨B.nextId, qty, qty, 0, 0⟩) := by
  constructor
  · rintro ⟨M, hM, hx⟩
    rcases h.mem_add.mp hM with ⟨rfl, he⟩ | ⟨hM, _⟩
    · obtain ⟨rfl, rfl⟩ := Prod.mk.inj he
      rcases Level.mem_append hx with hx | hx
      · exact Or.inl (h.mem_levelAt.mp hx)
      · exact Or.inr ⟨rfl, rfl, hx⟩
    · exact Or.inl ⟨M, hM, hx⟩
  · rintro (⟨M, hM, hx⟩ | ⟨rfl, rfl, rfl⟩)
    · by_cases hk : t = s ∧ k = px
      · obtain ⟨rfl, rfl⟩ := hk
        refine ⟨_, h.mem_add.mpr (Or.inl ⟨rfl, rfl⟩), ?_⟩
        rw [h.levelAt_of_mem hM]
        exact List.mem_append_left _ hx
      · exact ⟨M, h.mem_add.mpr (Or.inr ⟨hM, hk⟩), hx⟩
    · exact ⟨_, h.mem_add.mpr (Or.inl ⟨rfl, rfl⟩), by simp [Level.append]⟩

/-- A property of all entries in terms of where they rest. -/
theorem all_iff {P : Entry → Prop} : B.All P ↔ ∀ t k x, B.Rests t k x → P x := by
  constructor
  · intro h t k x hx
    obtain ⟨L, hL, hx⟩ := hx
    exact h t _ hL x hx
  · intro h t n hn x hx
    exact h t n.1 x ⟨n.2, hn, hx⟩

/-- After an addition all entries have a property iff the new one does. -/
theorem All.add_iff {P : Entry → Prop} (h : B.All P) (ho : B.Ordered) :
    (B.add s px qty).All P ↔ P ⟨B.nextId, qty, qty, 0, 0⟩ :=
  ⟨fun hall => all_iff.mp hall s px _ (ho.rests_add.mpr (Or.inr ⟨rfl, rfl, rfl⟩)), h.add ho⟩

/-- After an edit in place all entries have a property iff the new one does. -/
theorem All.rewrite_iff {P : Entry → Prop} (h : B.All P) (ho : B.Ordered) (hS : B.At id S)
    {e : Entry} (he : e.id = id) :
    (B.put S.side S.index S.price (S.level.rewrite e agg)).All P ↔ P e :=
  ⟨fun hall => all_iff.mp hall S.side S.price e
    ((ho.rests_rewrite hS he agg _ _ e).mpr (Or.inr ⟨rfl, rfl, rfl⟩)), h.rewrite hS⟩

/-- After a modification all entries have a property iff the modified one does, or the one that
replaces it. -/
theorem All.modify_iff {P : Entry → Prop} (h : B.All P) (ho : B.Ordered)
    (hc : (B.cancel id).Ordered) (hl : B.locate id = some S) {newPrice : Int} {newQty : Qty} :
    (B.modify id newPrice newQty).All P ↔
      if newPrice = S.price then P (modified S.entry newQty)
      else P ⟨B.nextId, newQty, newQty, 0, 0⟩ := by
  have hS := at_of_locate hl
  rw [modify, hl]
  by_cases hpx : newPrice = S.price
  · simp only [if_pos hpx]
    exact h.rewrite_iff ho hS hS.id
  · simp only [if_neg hpx]
    rw [(h.cancel id).add_iff hc, nextId_cancel]

/-- Of order `id`, whose size is `size`, the quantity `ex` has been executed: the rest of it is in
the book, or it has left the book, filled or cancelled. -/
def Balanced (B : Book) (s : Side) (px : Int) (id size ex : Nat) (cancelled : Prop) : Prop :=
  (∃ e, B.Rests s px e ∧ e.id = id ∧ ex + e.total = size) ∨
    (∀ t k e, B.Rests t k e → e.id ≠ id) ∧ (cancelled ∨ ex = size)

namespace Balanced

variable (hb : B.Balanced s px id size ex gone)
include hb

/-- An order that is gone stays so. -/
theorem mono {gone' : Prop} (hg : gone → gone') : B.Balanced s px id size ex gone' :=
  hb.imp_right fun h => ⟨h.1, h.2.imp_left hg⟩

/-- A fill moves quantity from the book to what has been executed. -/
theorem fill (h : B.Ordered) (hd : B.All Entry.Displayed) (hS : B.At j S)
    (ha : amt ≤ S.entry.remaining) :
    (B.put S.side S.index S.price (S.level.fill S.entry amt agg)).Balanced s px id size
      (ex + if j = id then amt.toNat else 0) gone := by
  have hrests := h.rests_fill hS amt agg
  by_cases hj : j = id
  · subst hj
    rw [if_pos rfl]
    rcases hb with ⟨e, he, hid, hsum⟩ | ⟨hnone, _⟩
    · obtain ⟨rfl, rfl, rfl⟩ := h.rests_unique he hS.rests (hid.trans hS.id.symm)
      cases hf : S.entry.filled amt with
      | none =>
        have hall := Entry.filled_none hf ha (hd.at hS).1
        refine Or.inr ⟨?_, Or.inr (by omega)⟩
        intro t k x hx
        rw [hrests, hf] at hx
        rcases hx with ⟨_, hne⟩ | ⟨_, _, hc⟩
        · exact hne
        · contradiction
      | some x =>
        have hx := Entry.filled_total hf ha
        exact Or.inl ⟨x, (hrests _ _ _).mpr (Or.inr ⟨rfl, rfl, hf⟩),
          (Entry.filled_id hf).trans hS.id, by omega⟩
    · exact absurd hS.id (hnone _ _ _ hS.rests)
  · rw [if_neg hj, Nat.add_zero]
    rcases hb with ⟨e, he, hid, hsum⟩ | ⟨hnone, hgone⟩
    · refine Or.inl ⟨e, (hrests _ _ _).mpr (Or.inl ⟨he, ?_⟩), hid, hsum⟩
      rw [hid]
      exact Ne.symm hj
    · refine Or.inr ⟨fun t k x hx => ?_, hgone⟩
      rcases (hrests _ _ _).mp hx with ⟨hx, _⟩ | ⟨_, _, hf⟩
      · exact hnone _ _ _ hx
      · rw [Entry.filled_id hf, hS.id]
        exact hj

/-- A cancelled order is marked as such. -/
theorem cancel (h : B.Ordered) (j : Nat) :
    (B.cancel j).Balanced s px id size ex (gone ∨ j = id ∧ ∃ S, B.At j S) := by
  rw [Book.cancel]
  cases hl : B.locate j with
  | none => exact hb.mono Or.inl
  | some S =>
    have hS := at_of_locate hl
    have hrests := fun t k x => h.rests_remove (t := t) (k := k) (x := x) hS
    rcases hb with ⟨e, he, hid, hsum⟩ | ⟨hnone, hgone⟩
    · by_cases hj : j = id
      · refine Or.inr ⟨fun t k x hx => ?_, Or.inl (Or.inr ⟨hj, S, hS⟩)⟩
        rw [← hj]
        exact ((hrests _ _ _).mp hx).2
      · refine Or.inl ⟨e, (hrests _ _ _).mpr ⟨he, ?_⟩, hid, hsum⟩
        rw [hid]
        exact Ne.symm hj
    · exact Or.inr ⟨fun t k x hx => hnone _ _ _ ((hrests _ _ _).mp hx).1,
        hgone.imp_left Or.inl⟩

/-- Another order's arrival leaves the balance. -/
theorem add (h : B.Ordered) {u : Side} {k : Int} (hid : id ≠ B.nextId) :
    (B.add u k qty).Balanced s px id size ex gone := by
  rcases hb with ⟨e, he, heid, hsum⟩ | ⟨hnone, hgone⟩
  · exact Or.inl ⟨e, h.rests_add.mpr (Or.inl he), heid, hsum⟩
  · refine Or.inr ⟨fun t k x hx => ?_, hgone⟩
    rcases h.rests_add.mp hx with hx | ⟨_, _, rfl⟩
    · exact hnone _ _ _ hx
    · exact Ne.symm hid

/-- Splitting another order leaves the balance. -/
theorem configure (h : B.Ordered) (hid : j ≠ id) (display : Qty) :
    (B.configure j display).Balanced s px id size ex gone := by
  rw [Book.configure]
  cases hl : B.locate j with
  | none => exact hb
  | some S =>
    have hS := at_of_locate hl
    simp only
    split
    · exact hb
    · have hid' : (configured S.entry display).id = j := hS.id
      have hrests := h.rests_rewrite hS hid'
      rcases hb with ⟨e, he, heid, hsum⟩ | ⟨hnone, hgone⟩
      · refine Or.inl ⟨e, (hrests _ _ _ _).mpr (Or.inl ⟨he, ?_⟩), heid, hsum⟩
        rw [heid]
        exact Ne.symm hid
      · refine Or.inr ⟨fun t k x hx => ?_, hgone⟩
        rcases (hrests _ _ _ _).mp hx with ⟨hx, _⟩ | ⟨_, _, hx⟩
        · exact hnone _ _ _ hx
        · rw [← Option.some.inj hx]
          exact fun he => hid (hS.id.symm.trans he)

end Balanced

/-- A new order is balanced. -/
theorem balanced_add (h : B.Ordered) :
    (B.add s px qty).Balanced s px B.nextId qty.toNat 0 gone :=
  Or.inl ⟨_, h.rests_add.mpr (Or.inr ⟨rfl, rfl, rfl⟩), rfl, by simp [Entry.total]⟩

/-- A new order is balanced when it has been split. -/
theorem balanced_configure (h : B.Ordered) (h' : (B.add s px qty).Ordered) :
    ((B.add s px qty).configure B.nextId display).Balanced s px B.nextId qty.toNat 0 gone := by
  have hnew : (B.add s px qty).Rests s px ⟨B.nextId, qty, qty, 0, 0⟩ :=
    h.rests_add.mpr (Or.inr ⟨rfl, rfl, rfl⟩)
  obtain ⟨i, L, hS⟩ := hnew.exists_at
  rw [Book.configure, locate_of_at h'.distinct hS]
  simp only
  split
  · exact balanced_add h
  · refine Or.inl ⟨configured ⟨B.nextId, qty, qty, 0, 0⟩ display,
      (h'.rests_rewrite hS (e := configured ⟨B.nextId, qty, qty, 0, 0⟩ display) rfl _ _ _ _).mpr
        (Or.inr ⟨rfl, rfl, rfl⟩), rfl, ?_⟩
    rw [Entry.total_configured, Nat.zero_add]

end Book

end Lob.Queue
