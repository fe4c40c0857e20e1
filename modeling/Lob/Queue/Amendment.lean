import Lob.Queue.Conservation

/-!
# Amending the size of an order

An entry is to hold what its size leaves after what has been executed against
it. Fills keep it so. A modification in place does under a condition on the
sizes before and after, which is stated and shown to be exact.
-/

namespace Lob.Queue

/-- The condition under which a modification in place leaves an entry with what its new size
leaves open, `ex` having been executed. The two branches are those of the source. -/
def Entry.Amends (e : Entry) (ex : Nat) (newQty : Qty) : Prop :=
  if 0 ≤ newQty.toInt64 - e.qty.toInt64 then
    e.qty ≤ newQty ∧ (ex ≤ e.qty.toNat ∨ newQty = e.qty) ∨
      newQty < e.qty ∧ ex + e.hidden.toNat ≤ newQty.toNat
  else
    e.hidden = 0 ∧ (newQty.toNat ≤ ex ∧ (e.remaining = 0 ∨ newQty = 0) ∨
      ex = 0 ∧ newQty ≤ e.remaining)

/-- The condition is exact for an entry that holds what its size leaves open. -/
theorem Entry.amends_iff {e : Entry} {ex : Nat} (h : e.total = e.qty.toNat - ex) (newQty : Qty) :
    (Book.modified e newQty).total = newQty.toNat - ex ↔ e.Amends ex newQty := by
  have htotal : (Book.modified e newQty).total =
      (Book.modifiedRemaining e newQty).toNat + e.hidden.toNat := rfl
  have hq := e.qty.toNat_lt
  have hn := newQty.toNat_lt
  rw [htotal, Book.modifiedRemaining, Amends]
  rw [total] at h
  split
  · have hgrow : (e.remaining + (newQty.toInt64 - e.qty.toInt64).toUInt64).toNat =
        (e.remaining.toNat + (2 ^ 64 - e.qty.toNat + newQty.toNat)) % 2 ^ 64 := by
      rw [Word.toUInt64_sub, UInt64.toNat_add, UInt64.toNat_sub]
      omega
    rw [hgrow, UInt64.le_iff_toNat_le, UInt64.lt_iff_toNat_lt, ← UInt64.toNat_inj]
    omega
  · next hneg =>
    have hne : newQty.toNat ≠ e.qty.toNat := by
      intro heq
      rw [UInt64.toNat_inj.mp heq, (Word.toInt64_sub_eq_zero _ _).mpr rfl] at hneg
      exact hneg (Int64.le_refl 0)
    rw [Word.toNat_min, UInt64.le_iff_toNat_le, ← Word.toNat_eq_zero, ← Word.toNat_eq_zero,
      ← Word.toNat_eq_zero]
    omega

/-- Every entry holds what its size leaves after what has been executed against it, and nothing
has been executed beyond the limit of its order. -/
structure Book.Covered (B : Book) (ex limit : Nat → Nat) : Prop where
  rest : ∀ s px e, B.Rests s px e → e.total = e.qty.toNat - ex e.id
  size : ∀ s px e, B.Rests s px e → e.qty.toNat ≤ limit e.id
  within : ∀ id, ex id ≤ limit id
  fresh : ∀ id, B.nextId ≤ id → ex id = 0

variable {B : Book} {s : Side} {px : Int} {id : Nat} {S : Spot} {amt agg qty display newQty : Qty}
  {ex limit : Nat → Nat}

/-- A fill leaves the size of an entry. -/
theorem Entry.filled_qty {e x : Entry} (h : e.filled amt = some x) : x.qty = e.qty := by
  rw [filled] at h
  split at h
  · split at h
    · obtain rfl := Option.some.inj h
      rfl
    · contradiction
  · obtain rfl := Option.some.inj h
    rfl

namespace Book.Covered

variable (h : B.Covered ex limit) (ho : B.Ordered)
include h ho

/-- A fill counts as executed what the entry loses. -/
theorem fill (hS : B.At id S) (ha : amt ≤ S.entry.remaining) :
    (B.put S.side S.index S.price (S.level.fill S.entry amt agg)).Covered
      (fun j => ex j + if id = j then amt.toNat else 0) limit := by
  have hrests := ho.rests_fill hS amt agg
  have hle : amt.toNat ≤ S.entry.total :=
    Nat.le_trans (UInt64.le_iff_toNat_le.mp ha) (Nat.le_add_right _ _)
  have hrest := h.rest _ _ _ hS.rests
  have hsize := h.size _ _ _ hS.rests
  rw [hS.id] at hrest hsize
  constructor
  · intro t k x hx
    rcases (hrests t k x).mp hx with ⟨hx, hne⟩ | ⟨rfl, rfl, hf⟩
    · rw [if_neg (Ne.symm hne), Nat.add_zero]
      exact h.rest t k x hx
    · have htotal := Entry.filled_total hf ha
      rw [Entry.filled_qty hf, Entry.filled_id hf, hS.id, if_pos rfl]
      omega
  · intro t k x hx
    rcases (hrests t k x).mp hx with ⟨hx, _⟩ | ⟨rfl, rfl, hf⟩
    · exact h.size t k x hx
    · rw [Entry.filled_qty hf, Entry.filled_id hf, hS.id]
      exact hsize
  · intro j
    have hj := h.within j
    split
    · next he =>
      subst he
      omega
    · exact hj
  · intro j hj
    rw [nextId_put] at hj
    have hlt := (ho.bound _ _ (List.mem_of_getElem? hS.level) _ hS.mem).2
    rw [hS.id] at hlt
    rw [if_neg (by omega), h.fresh j hj]

theorem applyFill (id : Nat) (qty : Qty) : (B.applyFill id qty).2.Covered
    (fun j => ex j + if id = j then (B.applyFill id qty).1.toNat else 0) limit := by
  rw [Book.applyFill]
  cases hl : B.locate id with
  | none => simpa using h
  | some S => exact h.fill ho (at_of_locate hl) (Word.min_le_right _ _)

/-- A new order may execute its size. -/
theorem add (s : Side) (px : Int) (qty : Qty) : (B.add s px qty).Covered ex
    (fun j => if j = B.nextId then qty.toNat else limit j) := by
  have hold (t : Side) (k : Int) (x : Entry) (hx : B.Rests t k x) : x.id ≠ B.nextId := by
    obtain ⟨L, hL, hx⟩ := hx
    exact Nat.ne_of_lt (ho.bound t _ hL x hx).2
  have hfresh := h.fresh B.nextId (Nat.le_refl _)
  constructor
  · intro t k x hx
    rcases ho.rests_add.mp hx with hx | ⟨_, _, rfl⟩
    · exact h.rest t k x hx
    · simp [Entry.total, hfresh]
  · intro t k x hx
    rcases ho.rests_add.mp hx with hx | ⟨_, _, rfl⟩
    · rw [if_neg (hold t k x hx)]
      exact h.size t k x hx
    · rw [if_pos rfl]
  · intro j
    split
    · next hj => rw [hj, hfresh]; exact Nat.zero_le _
    · exact h.within j
  · intro j hj
    exact h.fresh j (Nat.le_of_succ_le hj)

theorem cancel (id : Nat) : (B.cancel id).Covered ex limit := by
  rw [Book.cancel]
  cases hl : B.locate id with
  | none => exact h
  | some S =>
    have hrests := fun t k x => ho.rests_remove (t := t) (k := k) (x := x) (at_of_locate hl)
    exact ⟨fun t k x hx => h.rest t k x ((hrests t k x).mp hx).1,
      fun t k x hx => h.size t k x ((hrests t k x).mp hx).1, h.within,
      fun j hj => h.fresh j (nextId_put ▸ hj)⟩

/-- Splitting an order that has not been executed. -/
theorem configure (hz : ex id = 0) : (B.configure id display).Covered ex limit := by
  rw [Book.configure]
  cases hl : B.locate id with
  | none => exact h
  | some S =>
    have hS := at_of_locate hl
    simp only
    split
    · exact h
    · have hid : (configured S.entry display).id = id := hS.id
      have hrests := ho.rests_rewrite hS hid
      constructor
      · intro t k x hx
        rcases (hrests _ t k x).mp hx with ⟨hx, _⟩ | ⟨_, _, hx⟩
        · exact h.rest t k x hx
        · obtain rfl := Option.some.inj hx
          rw [Entry.total_configured, hid, hz]
          rfl
      · intro t k x hx
        rcases (hrests _ t k x).mp hx with ⟨hx, _⟩ | ⟨_, _, hx⟩
        · exact h.size t k x hx
        · obtain rfl := Option.some.inj hx
          have hsize := h.size S.side S.price S.entry hS.rests
          exact hsize
      · exact h.within
      · exact fun j hj => h.fresh j (nextId_put ▸ hj)

/-- A modification in place that leaves what the new size leaves open. -/
theorem rewrite (hS : B.At id S)
    (hm : (modified S.entry newQty).total = newQty.toNat - ex id) :
    (B.put S.side S.index S.price (S.level.rewrite (modified S.entry newQty) agg)).Covered ex
      (fun j => if j = id then max (ex id) newQty.toNat else limit j) := by
  have hid : (modified S.entry newQty).id = id := hS.id
  have hrests := ho.rests_rewrite hS hid
  constructor
  · intro t k x hx
    rcases (hrests _ t k x).mp hx with ⟨hx, _⟩ | ⟨_, _, hx⟩
    · exact h.rest t k x hx
    · obtain rfl := Option.some.inj hx
      rw [hid]
      exact hm
  · intro t k x hx
    rcases (hrests _ t k x).mp hx with ⟨hx, hne⟩ | ⟨_, _, hx⟩
    · rw [if_neg hne]
      exact h.size t k x hx
    · obtain rfl := Option.some.inj hx
      rw [hid, if_pos rfl]
      exact Nat.le_max_right _ _
  · intro j
    split
    · next hj => rw [hj]; exact Nat.le_max_left _ _
    · exact h.within j
  · exact fun j hj => h.fresh j (nextId_put ▸ hj)

end Book.Covered

end Lob.Queue
