import Lob.Core.Word
import Lob.Queue.Ordered

/-!
# The cached aggregate of a level

A level is summed when its aggregate is the sum of what its entries show, taken
in words, and exact when it is the sum without wrap-around. An update that does
not stop at zero keeps a level summed. Between exact levels no update stops at
zero, and a summed level is exact once its total fits a word.
-/

namespace Lob.Queue

/-- What the entries of a level show in total. -/
def Level.shown (L : Level) : Nat := (L.queue.map fun e => e.remaining.toNat).sum

/-- The cached aggregate is the total. -/
def Level.Exact (L : Level) : Prop := L.agg.toNat = L.shown

/-- The cached aggregate is the total up to wrap-around. -/
def Level.Summed (L : Level) : Prop := L.agg = (L.queue.map Entry.remaining).sum

/-- Every level of a book is exact. -/
def Book.Exact (B : Book) : Prop := ∀ s, ∀ n ∈ B.ladder s, n.2.Exact

/-- Every level of a book is summed. -/
def Book.Summed (B : Book) : Prop := ∀ s, ∀ n ∈ B.ladder s, n.2.Summed

variable {B : Book} {s t : Side} {i id : Nat} {px k : Int} {L L' : Level} {e e' : Entry}
  {ys zs : List Entry} {amt agg : Qty} {delta : Int64}

/-- An update that does not stop at zero adds the difference. -/
theorem adjusted_unclamped (h : ¬ (delta < 0 ∧ agg < (-delta).toUInt64)) :
    adjusted agg delta = agg + delta.toUInt64 := by
  rw [adjusted]
  split
  · rfl
  · next hle =>
    have hkept : ¬ agg < (-delta).toUInt64 := fun hlt => h ⟨Int64.not_le.mp hle, hlt⟩
    rw [decreased, if_neg hkept, Int64.toUInt64_neg]
    grind

/-- The two updates of the aggregate agree below half the word range. -/
theorem adjusted_neg_toInt64 (h : amt.toNat < 2 ^ 63) (agg : Qty) :
    adjusted agg (-amt.toInt64) = decreased agg amt := by
  have hneg : -amt.toInt64 = (0 : Qty).toInt64 - amt.toInt64 := by simp
  have hback : (- -amt.toInt64).toUInt64 = amt := by simp
  have hnn := Word.sub_nonneg (a := 0) (b := amt) (by decide) h
  rw [← hneg] at hnn
  rw [adjusted, hback]
  split
  · next hle =>
    have hzero : amt.toNat = 0 := Nat.le_zero.mp (UInt64.le_iff_toNat_le.mp (hnn.mp hle))
    have hkept : ¬ agg < amt := by
      rw [UInt64.lt_iff_toNat_lt, hzero]
      exact Nat.not_lt_zero _
    rw [decreased, if_neg hkept, Word.toNat_eq_zero.mp hzero]
    exact UInt64.add_zero agg |>.trans (UInt64.sub_zero agg).symm
  · rfl

namespace Level

theorem shown_split (hq : L.queue = ys ++ e :: zs) :
    L.shown = e.remaining.toNat + (⟨0, ys ++ zs⟩ : Level).shown := by
  simp only [shown, hq, List.map_append, List.map_cons, List.sum_append, List.sum_cons]
  omega

theorem shown_append_cons (agg : Qty) :
    (⟨agg, ys ++ e :: zs⟩ : Level).shown =
      e.remaining.toNat + (⟨0, ys ++ zs⟩ : Level).shown :=
  shown_split rfl

theorem remaining_le_shown (he : e ∈ L.queue) : e.remaining.toNat ≤ L.shown := by
  obtain ⟨ys, zs, hq⟩ := List.append_of_mem he
  rw [shown_split hq]
  omega

theorem summed_append_cons : (⟨agg, ys ++ e :: zs⟩ : Level).Summed ↔
    agg = e.remaining + ((ys ++ zs).map Entry.remaining).sum := by
  simp only [Summed, List.map_append, List.map_cons, List.sum_append, List.sum_cons]
  grind

/-- An exact level is a summed one whose total fits a word. -/
theorem exact_iff : L.Exact ↔ L.Summed ∧ L.shown < 2 ^ 64 := by
  have hshown : L.shown = ((L.queue.map Entry.remaining).map UInt64.toNat).sum := by
    rw [shown, List.map_map]
    rfl
  rw [Exact, Summed, hshown]
  constructor
  · intro h
    have hlt : ((L.queue.map Entry.remaining).map UInt64.toNat).sum < 2 ^ 64 :=
      h ▸ L.agg.toNat_lt
    refine ⟨?_, hlt⟩
    rw [← UInt64.toNat_inj, Word.toNat_sum hlt, h]
  · rintro ⟨h, hlt⟩
    rw [h, Word.toNat_sum hlt]

/-- Appending. -/
theorem Summed.append (h : L.Summed) : (L.append e).Summed := by
  rw [Summed] at h
  simp only [Summed, Level.append, List.map_append, List.map_cons, List.map_nil, List.sum_append,
    List.sum_cons, List.sum_nil, h]
  grind

/-- Removing an entry with what it shows. -/
theorem Summed.remove (h : L.Summed) (hd : L.Distinct) (he : e ∈ L.queue) :
    (L.remove e).Summed := by
  obtain ⟨ys, zs, hq⟩ := List.append_of_mem he
  have hagg : L.agg = e.remaining + ((ys ++ zs).map Entry.remaining).sum :=
    summed_append_cons.mp (hq ▸ h)
  rw [hd.remove_eq hq rfl, Summed, hagg]
  grind

/-- Rewriting an entry, with its change added to the aggregate. -/
theorem Summed.rewrite (h : L.Summed) (hd : L.Distinct) (he : e ∈ L.queue) (hid : e'.id = e.id)
    (hagg : agg = L.agg + (e'.remaining - e.remaining)) : (L.rewrite e' agg).Summed := by
  obtain ⟨ys, zs, hq⟩ := List.append_of_mem he
  have hold : L.agg = e.remaining + ((ys ++ zs).map Entry.remaining).sum :=
    summed_append_cons.mp (hq ▸ h)
  rw [hd.rewrite_eq hq hid, summed_append_cons, hagg, hold]
  grind

/-- Filling an entry, with the fill taken from the aggregate. -/
theorem Summed.fill (h : L.Summed) (hd : L.Distinct) (he : e ∈ L.queue)
    (hagg : agg = L.agg - amt) : (L.fill e amt agg).Summed := by
  obtain ⟨ys, zs, hq⟩ := List.append_of_mem he
  have hold : L.agg = e.remaining + ((ys ++ zs).map Entry.remaining).sum :=
    summed_append_cons.mp (hq ▸ h)
  have hrest : e.remaining - amt = 0 → (⟨agg - 0, ys ++ zs⟩ : Level).Summed := by
    intro hz
    rw [Summed, hagg, hold]
    grind
  rw [hd.fill_eq hq]
  split
  · next hz =>
    split
    · exact (hrest hz).append (e := (e.take amt).refill)
    · exact hrest hz
  · rw [summed_append_cons, hagg, hold, show (e.take amt).remaining = e.remaining - amt from rfl]
    grind

/-- Rewriting an entry of an exact level does not stop at zero. -/
theorem Exact.unclamped (h : L.Exact) (he : e ∈ L.queue) (hr : e.remaining.toNat < 2 ^ 63)
    (hr' : e'.remaining.toNat < 2 ^ 63) :
    ¬ (e'.remaining.toInt64 - e.remaining.toInt64 < 0 ∧
      L.agg < (-(e'.remaining.toInt64 - e.remaining.toInt64)).toUInt64) := by
  rintro ⟨hneg, hlt⟩
  have hle := remaining_le_shown he
  have hsign : e'.remaining ≤ e.remaining :=
    Std.le_of_not_ge fun hge => Int64.not_lt.mpr ((Word.sub_nonneg hr' hr).mpr hge) hneg
  have hsub := Word.toNat_sub hsign
  rw [Exact] at h
  rw [Word.toUInt64_neg_sub, UInt64.lt_iff_toNat_lt] at hlt
  omega

/-- Deducting a fill from the aggregate of an exact level does not stop at zero. -/
theorem Exact.covers (h : L.Exact) (he : e ∈ L.queue) (ha : amt ≤ e.remaining) :
    ¬ L.agg < amt := by
  have hle := remaining_le_shown he
  have han := UInt64.le_iff_toNat_le.mp ha
  rw [Exact] at h
  rw [UInt64.lt_iff_toNat_lt]
  omega

/-- What a fill leaves shown: at least the old total without the fill. -/
theorem Distinct.fill_shown (hd : L.Distinct) (he : e ∈ L.queue) (ha : amt ≤ e.remaining)
    (agg : Qty) :
    L.shown ≤ (L.fill e amt agg).shown + amt.toNat := by
  obtain ⟨ys, zs, hq⟩ := List.append_of_mem he
  have hs := shown_split hq
  have han := UInt64.le_iff_toNat_le.mp ha
  have hsub := Word.toNat_sub ha
  rw [hd.fill_eq hq]
  split
  · next hz =>
    have heq := Word.sub_eq_zero.mp hz
    split
    · simp only [shown, List.map_append, List.sum_append] at hs ⊢
      rw [hs, heq]
      omega
    · simp only [shown] at hs ⊢
      rw [hs, heq]
      omega
  · rw [shown_append_cons, hs, show (e.take amt).remaining = e.remaining - amt from rfl]
    omega

end Level

namespace Book

/-- The level at the written price shows what was written; others are as before. -/
theorem Ordered.shown_put (h : B.Ordered) (hi : (B.ladder s)[i]? = some (px, L))
    (h' : (B.put s i px L').Ordered) :
    ((B.put s i px L').levelAt t k).shown =
      if t = s ∧ k = px then L'.shown else (B.levelAt t k).shown := by
  rw [Level.shown, h.queue_put hi h']
  split <;> rfl

/-- What holds of every level and of a written one holds of every level after the write. -/
theorem Ordered.forall_put {P : Level → Prop} (h : B.Ordered) (hP : ∀ s, ∀ n ∈ B.ladder s, P n.2)
    (hi : (B.ladder s)[i]? = some (px, L)) (hL : L'.queue ≠ [] → P L') :
    ∀ t, ∀ n ∈ (B.put s i px L').ladder t, P n.2 := by
  intro t n hn
  rcases (h.mem_put hi).mp hn with ⟨_, rfl, hq⟩ | ⟨hn, _⟩
  · exact hL hq
  · exact hP t n hn

/-- An exact book is a summed one whose totals fit a word. -/
theorem exact_iff : B.Exact ↔ B.Summed ∧ ∀ s, ∀ n ∈ B.ladder s, n.2.shown < 2 ^ 64 := by
  constructor
  · intro h
    exact ⟨fun s n hn => (Level.exact_iff.mp (h s n hn)).1,
      fun s n hn => (Level.exact_iff.mp (h s n hn)).2⟩
  · rintro ⟨h, hb⟩ s n hn
    exact Level.exact_iff.mpr ⟨h s n hn, hb s n hn⟩

theorem Summed.levelAt (hx : B.Summed) (h : B.Ordered) : (B.levelAt s px).Summed := by
  rcases h.levelAt_cases s px with hm | ⟨_, he⟩
  · exact hx s _ hm
  · rw [he]
    rfl

/-- Adding an entry. -/
theorem Summed.add (hx : B.Summed) (h : B.Ordered) (s : Side) (px : Int) (qty : Qty) :
    (B.add s px qty).Summed := by
  intro t n hn
  rcases h.mem_add.mp hn with ⟨rfl, rfl⟩ | ⟨hn, _⟩
  · exact (hx.levelAt h).append
  · exact hx t n hn

/-- Taking an entry out. -/
theorem Summed.cancel (hx : B.Summed) (h : B.Ordered) (id : Nat) : (B.cancel id).Summed := by
  rw [Book.cancel]
  cases hl : B.locate id with
  | none => exact hx
  | some S =>
    have hS := at_of_locate hl
    have hn := List.mem_of_getElem? hS.level
    exact h.forall_put hx hS.level fun _ => (hx _ _ hn).remove (h.level _ _ hn) hS.mem

/-- Rewriting an entry where its update does not stop at zero. -/
theorem Summed.rewrite (hx : B.Summed) (h : B.Ordered) {S : Spot} (hS : B.At id S)
    (hid : e'.id = S.entry.id)
    (hc : ¬ (e'.remaining.toInt64 - S.entry.remaining.toInt64 < 0 ∧
      S.level.agg < (-(e'.remaining.toInt64 - S.entry.remaining.toInt64)).toUInt64)) :
    (B.put S.side S.index S.price (S.level.rewrite e'
      (adjusted S.level.agg (e'.remaining.toInt64 - S.entry.remaining.toInt64)))).Summed := by
  have hn := List.mem_of_getElem? hS.level
  refine h.forall_put hx hS.level fun _ => ?_
  refine Level.Summed.rewrite (hx _ _ hn) (h.level _ _ hn) hS.mem hid ?_
  rw [adjusted_unclamped hc, Word.toUInt64_sub]

/-- Filling an entry where its update does not stop at zero. -/
theorem Summed.fill (hx : B.Summed) (h : B.Ordered) {S : Spot} (hS : B.At id S)
    (hagg : agg = S.level.agg - amt) :
    (B.put S.side S.index S.price (S.level.fill S.entry amt agg)).Summed := by
  have hn := List.mem_of_getElem? hS.level
  exact h.forall_put hx hS.level fun _ =>
    Level.Summed.fill (hx _ _ hn) (h.level _ _ hn) hS.mem hagg

/-- Rewriting an entry of an exact book does not stop at zero when the totals are below half the
word range before and after. -/
theorem Exact.unclamped (hx : B.Exact) (h : B.Ordered) {S : Spot} (hS : B.At id S)
    (hid : e'.id = S.entry.id) (hb₀ : ∀ n ∈ B.ladder S.side, n.2.shown < 2 ^ 63)
    (hb : ∀ n ∈ (B.put S.side S.index S.price (S.level.rewrite e' agg)).ladder S.side,
      n.2.shown < 2 ^ 63) :
    ¬ (e'.remaining.toInt64 - S.entry.remaining.toInt64 < 0 ∧
      S.level.agg < (-(e'.remaining.toInt64 - S.entry.remaining.toInt64)).toUInt64) := by
  have hn := List.mem_of_getElem? hS.level
  have hmem : e' ∈ (S.level.rewrite e' agg).queue :=
    List.mem_map.mpr ⟨S.entry, hS.mem, if_pos hid.symm⟩
  have hput : (S.price, S.level.rewrite e' agg) ∈
      (B.put S.side S.index S.price (S.level.rewrite e' agg)).ladder S.side :=
    (h.mem_put hS.level).mpr (Or.inl ⟨rfl, rfl, List.ne_nil_of_mem hmem⟩)
  have hr := Nat.lt_of_le_of_lt (Level.remaining_le_shown hS.mem) (hb₀ _ hn)
  have hr' := Nat.lt_of_le_of_lt (Level.remaining_le_shown hmem) (hb _ hput)
  exact Level.Exact.unclamped (hx _ _ hn) hS.mem hr hr'

end Book

end Lob.Queue
