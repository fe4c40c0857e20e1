import Mathlib.Algebra.Order.BigOperators.Group.List
import Mathlib.Algebra.Order.Group.Nat
import Lob.Queue.Matching
import Lob.Queue.Volume

/-!
# How deep orders get

An order gets to a level of the side it trades against once it is past the better
ones. First come, first served, it has to take all that rests there; pro rata it
trades at one level only, and gets past that at best. What the better levels hold
therefore bounds from below what has to be spent before there is a trade at a price.
-/

namespace Lob

/-- What is counted on the way to a price. -/
inductive Gauge
  | volume
  | levels
  deriving DecidableEq, Repr

/-- What it takes to get past a level. -/
def Gauge.holds : Gauge → Queue.Level → Nat
  | .volume, L => L.volume
  | .levels, _ => 1

/-- What an order of a size does towards that. -/
def Gauge.spends : Gauge → Qty → Nat
  | .volume, qty => qty.toNat
  | .levels, _ => 1

namespace MatchingPolicy

/-- What decides how far an order gets. -/
def gauge : MatchingPolicy → Gauge
  | .fifoStack => .volume
  | .proRata _ => .levels

/-- The count bounds what is gone after orders of `size` in all, with at most `rest` on the side.
Pro rata, sizes whose products do not fit a word may execute more than was asked for. -/
def Bounds (p : MatchingPolicy) (g : Gauge) (rest size : Nat) : Prop :=
  g = p.gauge ∨ g = .volume ∧ rest * (size + 1) < 2 ^ 64

/-- Smaller sizes are bounded as well. -/
theorem Bounds.mono {p : MatchingPolicy} {g : Gauge} {rest rest' size size' : Nat}
    (h : p.Bounds g rest size) (hr : rest' ≤ rest) (hs : size' ≤ size) : p.Bounds g rest' size' :=
  h.imp_right fun h => ⟨h.1, Nat.lt_of_le_of_lt (Nat.mul_le_mul hr (Nat.succ_le_succ hs)) h.2⟩

end MatchingPolicy

/-- A price that is no worse than a better one is better. -/
theorem Side.cmp_of_not_cmp (s : Side) {px p k : Int} (h : s.cmp px p = false)
    (hk : s.cmp px k = true) : s.cmp p k = true := by
  by_cases he : p = px
  · rw [he]
    exact hk
  · exact s.cmp_strict.trans _ _ _ ((s.cmp_strict.total _ _ he).resolve_right (by simp [h])) hk

namespace Queue

namespace Book

/-- The side has a level at a price. -/
def Quotes (B : Book) (s : Side) (px : Int) : Prop := ∃ L, (px, L) ∈ B.ladder s

/-- What the levels better than a price hold. -/
def ahead (g : Gauge) (B : Book) (s : Side) (px : Int) : Nat :=
  (((B.ladder s).filter fun n => s.cmp n.1 px).map fun n => g.holds n.2).sum

/-- An order that can do `q` towards it gets to a price. -/
def Gets (g : Gauge) (B : Book) (s : Side) (q : Nat) (px : Int) : Prop :=
  B.Quotes s px ∧ B.ahead g s px < q

/-- The order gets to a price and to no worse one. -/
def Ends (g : Gauge) (B : Book) (s : Side) (q : Nat) (px : Int) : Prop :=
  B.Gets g s q px ∧ ∀ k, B.Gets g s q k → s.cmp px k = false

/-- What a match does to the levels of a side. -/
structure Digs (p : MatchingPolicy) (s : Side) (qty : Qty) (B : Book) (fills : List Fill)
    (B' : Book) : Prop where
  quotes : ∀ px, B'.Quotes s px → B.Quotes s px
  volume : B'.volume s ≤ B.volume s
  ahead : ∀ g, p.Bounds g (B.volume s) qty.toNat → ∀ px,
    B.ahead g s px ≤ B'.ahead g s px + g.spends qty
  ends : ∀ f ∈ fills.getLast?, B.Ends p.gauge s (p.gauge.spends qty) f.price
  left : ∀ f ∈ fills.getLast?, ∀ px, B'.Quotes s px → s.cmp px f.price = false
  /-- First come, first served, a level behind one that is left has not been touched. -/
  behind : p = .fifoStack → ∀ k, B.Quotes s k → (∃ px, B'.Quotes s px ∧ s.cmp px k = true) →
    B'.Quotes s k ∧ B'.ahead .volume s k + qty.toNat = B.ahead .volume s k
  other : ∀ t, t ≠ s → ∀ k x, B'.Rests t k x ↔ B.Rests t k x

variable {B B' : Book} {s t : Side} {px k : Int} {L : Level} {e x : Entry} {p : MatchingPolicy}
  {g : Gauge} {w : Sweep} {qty : Nat} {id i : Nat} {rest : List (Int × Level)}

/-- Volume ahead is what better prices hold. -/
theorem ahead_volume (B : Book) (s : Side) (px : Int) :
    B.ahead .volume s px = B.held (fun k => s.cmp k px) s := rfl

/-- A price is quoted iff the ladder has it. -/
theorem quotes_iff_mem : B.Quotes s px ↔ px ∈ (B.ladder s).map Prod.fst := by
  rw [List.mem_map]
  constructor
  · exact fun ⟨L, hL⟩ => ⟨(px, L), hL, rfl⟩
  · rintro ⟨⟨_, L⟩, hL, rfl⟩
    exact ⟨L, hL⟩

instance : Decidable (B.Quotes s px) := decidable_of_iff _ quotes_iff_mem.symm

/-- An ordered book quotes the prices of its resting entries. -/
theorem Ordered.quotes_iff (h : B.Ordered) : B.Quotes s px ↔ ∃ e, B.Rests s px e := by
  constructor
  · rintro ⟨L, hL⟩
    obtain ⟨e, es, hq⟩ := List.exists_cons_of_ne_nil (h.nonempty s _ hL)
    exact ⟨e, L, hL, by rw [hq]; exact List.mem_cons_self⟩
  · rintro ⟨e, L, hL, _⟩
    exact ⟨L, hL⟩

/-- More entries have no less in all. -/
theorem sum_total_le {xs ys : List Entry} (hys : ys.Nodup) (h : ∀ e ∈ ys, e ∈ xs) :
    (ys.map Entry.total).sum ≤ (xs.map Entry.total).sum := by
  obtain ⟨l, hperm, hl⟩ := List.subperm_of_subset hys h
  rw [← (hperm.map Entry.total).sum_nat]
  exact (hl.map Entry.total).sum_le_sum fun _ _ => Nat.zero_le _

/-- A level with more entries holds no less. -/
theorem holds_le {L' : Level} (hd : L.Distinct) (h : ∀ e ∈ L.queue, e ∈ L'.queue)
    (g : Gauge) : g.holds L ≤ g.holds L' := by
  cases g with
  | volume => exact sum_total_le (List.Nodup.of_map Entry.id hd) h
  | levels => exact Nat.le_refl 1

/-- The entries of a side. -/
def entries (B : Book) (s : Side) : List Entry := (B.ladder s).flatMap fun n => n.2.queue

/-- The entries of a side are what rests there. -/
theorem mem_entries : x ∈ B.entries s ↔ ∃ k, B.Rests s k x := by
  rw [entries, List.mem_flatMap]
  constructor
  · exact fun ⟨⟨k, L⟩, hL, hx⟩ => ⟨k, L, hL, hx⟩
  · exact fun ⟨k, L, hL, hx⟩ => ⟨(k, L), hL, hx⟩

/-- No entry rests twice. -/
theorem Ordered.nodup_entries (h : B.Ordered) (s : Side) : (B.entries s).Nodup := by
  refine List.nodup_flatMap.mpr ⟨fun n hn => List.Nodup.of_map Entry.id (h.level s n hn), ?_⟩
  refine (h.sorted s).imp_of_mem fun {n m} hn hm hnm => ?_
  intro x hx hx'
  obtain ⟨-, hk, -⟩ := h.rests_unique ⟨n.2, hn, hx⟩ ⟨m.2, hm, hx'⟩ rfl
  rw [hk, s.cmp_strict.irrefl] at hnm
  contradiction

/-- The volume of a side is that of its entries. -/
theorem volume_eq (B : Book) (s : Side) : B.volume s = ((B.entries s).map Entry.total).sum := by
  rw [entries, List.map_flatMap, List.flatMap_def, List.sum_flatten, List.map_map]
  rfl

/-- A side on which nothing is new. -/
theorem Ordered.volume_mono (h' : B'.Ordered) (hall : ∀ k x, B'.Rests s k x → B.Rests s k x) :
    B'.volume s ≤ B.volume s := by
  rw [volume_eq, volume_eq]
  refine sum_total_le (h'.nodup_entries s) fun x hx => ?_
  obtain ⟨k, hk⟩ := mem_entries.mp hx
  exact mem_entries.mpr ⟨k, hall k x hk⟩

/-- A side on which one entry is new at most. -/
theorem Ordered.volume_le (h' : B'.Ordered) {size : Nat}
    (hall : ∀ k x, B'.Rests s k x → B.Rests s k x ∨ x.id = id ∧ x.total ≤ size) :
    B'.volume s ≤ B.volume s + size := by
  rw [volume_eq, volume_eq]
  have hnodup := h'.nodup_entries s
  by_cases hnew : ∃ y ∈ B'.entries s, y ∉ B.entries s
  · obtain ⟨y, hy, hyB⟩ := hnew
    obtain ⟨k, hk⟩ := mem_entries.mp hy
    obtain ⟨hid, hsize⟩ := (hall k y hk).resolve_left fun hr => hyB (mem_entries.mpr ⟨k, hr⟩)
    have hle : ((B'.entries s).map Entry.total).sum ≤
        ((y :: B.entries s).map Entry.total).sum := by
      refine sum_total_le hnodup fun x hx => ?_
      obtain ⟨j, hj⟩ := mem_entries.mp hx
      rcases hall j x hj with hx | ⟨hxid, -⟩
      · exact List.mem_cons_of_mem y (mem_entries.mpr ⟨j, hx⟩)
      · rw [(h'.rests_unique hj hk (hxid.trans hid.symm)).2.2]
        exact List.mem_cons_self
    rw [List.map_cons, List.sum_cons] at hle
    omega
  · refine (sum_total_le hnodup fun x hx => ?_).trans (Nat.le_add_right _ size)
    by_contra hno
    exact hnew ⟨x, hx, hno⟩

/-- Where every better level has its counterpart, the better levels hold no less. -/
theorem Ordered.sum_holds_le (h : B.Ordered) {v : List (Int × Level)}
    (hv : ∀ n ∈ B.ladder s, s.cmp n.1 px = true →
      ∃ m ∈ v, m.1 = n.1 ∧ g.holds n.2 ≤ g.holds m.2) :
    B.ahead g s px ≤ (v.map fun n => g.holds n.2).sum := by
  have hkeys : ((B.ladder s).filter fun n => s.cmp n.1 px).Pairwise fun n m => n.1 ≠ m.1 := by
    refine (List.Pairwise.sublist List.filter_sublist (h.sorted s)).imp fun {n m} hnm he => ?_
    rw [he, s.cmp_strict.irrefl] at hnm
    contradiction
  have hu : ∀ n ∈ (B.ladder s).filter fun n => s.cmp n.1 px,
      ∃ m ∈ v, m.1 = n.1 ∧ g.holds n.2 ≤ g.holds m.2 := fun n hn =>
    hv n (List.mem_of_mem_filter hn) (List.mem_filter.mp hn).2
  unfold ahead
  clear hv
  generalize (B.ladder s).filter (fun n => s.cmp n.1 px) = u at *
  induction u generalizing v with
  | nil => exact Nat.zero_le _
  | cons n u ih =>
    rw [List.pairwise_cons] at hkeys
    obtain ⟨m, hm, hmn, hle⟩ := hu n List.mem_cons_self
    obtain ⟨v₁, v₂, rfl⟩ := List.append_of_mem hm
    have hrest := ih (v := v₁ ++ v₂) hkeys.2 fun a ha => by
      obtain ⟨b, hb, hba, hab⟩ := hu a (List.mem_cons_of_mem n ha)
      refine ⟨b, ?_, hba, hab⟩
      rcases List.mem_append.mp hb with hb | hb
      · exact List.mem_append_left _ hb
      · rcases List.mem_cons.mp hb with rfl | hb
        · exact absurd (hmn.symm.trans hba) (hkeys.1 a ha)
        · exact List.mem_append_right _ hb
    simp only [List.map_append, List.sum_append, List.map_cons, List.sum_cons] at hrest ⊢
    omega

/-- Where every entry still rests, the better levels hold no less. -/
theorem Ordered.ahead_le (h : B.Ordered) (h' : B'.Ordered)
    (hall : ∀ k x, B.Rests s k x → B'.Rests s k x) (g : Gauge) (px : Int) :
    B.ahead g s px ≤ B'.ahead g s px := by
  refine h.sum_holds_le fun n hn hpx => ?_
  obtain ⟨k, L⟩ := n
  obtain ⟨e, L', hL', _⟩ := (h.quotes_iff.mp ⟨L, hn⟩).imp fun e he => hall k e he
  refine ⟨(k, L'), List.mem_filter.mpr ⟨hL', hpx⟩, rfl,
    holds_le (h.level s _ hn) (fun x hx => ?_) g⟩
  obtain ⟨M, hM, hx⟩ := hall k x ⟨L, hn, hx⟩
  rwa [← (h'.sorted s).value_unique s.cmp_strict hM hL']

/-- Where the same entries rest, the better levels hold as much. -/
theorem Ordered.ahead_eq (h : B.Ordered) (h' : B'.Ordered)
    (hall : ∀ k x, B'.Rests s k x ↔ B.Rests s k x) (g : Gauge) (px : Int) :
    B'.ahead g s px = B.ahead g s px :=
  Nat.le_antisymm (h'.ahead_le h (fun k x => (hall k x).mp) g px)
    (h.ahead_le h' (fun k x => (hall k x).mpr) g px)

/-- Nothing is better than the best level. -/
theorem Ordered.ahead_head (h : B.Ordered) (hv : B.ladder s = (px, L) :: rest)
    (hk : s.cmp px k = false) : B.ahead g s k = 0 := by
  have hsorted := h.sorted s
  rw [hv, Ladder.Sorted, List.pairwise_cons] at hsorted
  rw [ahead, hv, List.filter_cons_of_neg (by simp [hk]), List.filter_eq_nil_iff.mpr]
  · rfl
  · intro n hn hnk
    have hpk := s.cmp_strict.trans _ _ _ (hsorted.1 n hn) hnk
    rw [hk] at hpk
    contradiction

/-- No level is better than the best one. -/
theorem Ordered.cmp_head (h : B.Ordered) (hv : B.ladder s = (px, L) :: rest)
    (hk : B.Quotes s k) : s.cmp k px = false := by
  obtain ⟨M, hM⟩ := hk
  have hsorted := h.sorted s
  rw [hv, Ladder.Sorted, List.pairwise_cons] at hsorted
  rw [hv] at hM
  rcases List.mem_cons.mp hM with he | hM
  · rw [(Prod.mk.inj he).1]
    exact s.cmp_strict.irrefl px
  · exact s.cmp_strict.asymm (hsorted.1 _ hM)

/-- Writing a level adds no price. -/
theorem Ordered.quotes_of_put (h : B.Ordered) (hi : (B.ladder s)[i]? = some (px, L))
    {L' : Level} (hk : (B.put s i px L').Quotes s k) : B.Quotes s k := by
  obtain ⟨M, hM⟩ := hk
  rcases (h.mem_put hi).mp hM with ⟨_, he, _⟩ | ⟨hM, _⟩
  · rw [(Prod.mk.inj he).1]
    exact ⟨L, List.mem_of_getElem? hi⟩
  · exact ⟨M, hM⟩

/-- Writing a level leaves the other prices. -/
theorem Ordered.quotes_put (h : B.Ordered) (hi : (B.ladder s)[i]? = some (px, L)) {L' : Level}
    (hne : k ≠ px) (hk : B.Quotes s k) : (B.put s i px L').Quotes s k := by
  obtain ⟨M, hM⟩ := hk
  exact ⟨M, (h.mem_put hi).mpr (Or.inr ⟨hM, fun hc => hne hc.2⟩)⟩

/-- Where no level is better, nothing is held by better levels. -/
theorem ahead_eq_zero (h : B.ahead .levels s px = 0) (g : Gauge) : B.ahead g s px = 0 := by
  have hlen : ((B.ladder s).filter fun n => s.cmp n.1 px).length = 0 := by
    have hsum : (((B.ladder s).filter fun n => s.cmp n.1 px).map fun _ => 1).sum = 0 := h
    rwa [List.map_const', List.sum_replicate_nat, Nat.mul_one] at hsum
  rw [ahead, List.length_eq_zero_iff.mp hlen]
  rfl

/-- An order gets to a price by every count that bounds it. -/
theorem Gets.ahead_lt {q : Qty} {n m : Nat} (h : B.Gets p.gauge s (p.gauge.spends q) px)
    (hg : p.Bounds g n m) : B.ahead g s px < p.gauge.spends q := by
  rcases hg with rfl | ⟨rfl, -⟩
  · exact h.2
  · cases p with
    | fifoStack => exact h.2
    | proRata =>
      rw [ahead_eq_zero (Nat.lt_one_iff.mp h.2)]
      exact Nat.one_pos

/-- What a loop of `market_order` has done to the levels. -/
structure Dug (B : Book) (s : Side) (qty : Nat) (w : Sweep) : Prop where
  toFill : w.toFill.toNat + filledQty w.fills = qty
  quotes : ∀ px, w.book.Quotes s px → B.Quotes s px
  volume : w.book.volume s + filledQty w.fills = B.volume s
  ahead : ∀ px, B.ahead .volume s px ≤ w.book.ahead .volume s px + filledQty w.fills
  gets : ∀ f ∈ w.fills, B.Gets .volume s qty f.price
  /-- No level left is better than a price at which there was a fill. -/
  top : ∀ f ∈ w.fills, ∀ n ∈ w.book.ladder s, s.cmp n.1 f.price = false
  prices : w.fills.Pairwise fun f g => s.cmp g.price f.price = false
  behind : ∀ k, B.Quotes s k → (∀ f ∈ w.fills, s.cmp f.price k = true) → w.book.Quotes s k ∧
    w.book.ahead .volume s k + filledQty w.fills = B.ahead .volume s k
  other : ∀ t, t ≠ s → w.book.ladder t = B.ladder t

/-- The loop starts with nothing dug. -/
theorem dug_init (B : Book) (s : Side) (q : Qty) : Dug B s q.toNat ⟨B, q, []⟩ where
  toFill := rfl
  quotes _ h := h
  volume := rfl
  ahead _ := Nat.le_refl _
  gets _ hf := absurd hf List.not_mem_nil
  top _ hf := absurd hf List.not_mem_nil
  prices := List.Pairwise.nil
  behind _ h _ := ⟨h, rfl⟩
  other _ _ := rfl

/-- Each iteration takes from the best level what it fills. -/
theorem Dug.step (h : Dug B s qty w) (ho : w.book.Ordered) (hd : w.book.All Entry.Displayed)
    (ha : w.active s = true) : Dug B s qty (sweepStep s w) := by
  obtain ⟨hvolume, htoFill⟩ := sweepStep_volume (s := s) ho hd
  cases hv : w.book.ladder s with
  | nil => simp [Sweep.active, hv] at ha
  | cons n rest =>
    obtain ⟨px, L⟩ := n
    have hn : (px, L) ∈ w.book.ladder s := by rw [hv]; exact List.mem_cons_self
    obtain ⟨e, es, hq⟩ := List.exists_cons_of_ne_nil (ho.nonempty s _ hn)
    have he : e ∈ L.queue := by rw [hq]; exact List.mem_cons_self
    have hi : (w.book.ladder s)[0]? = some (px, L) := by rw [hv]; rfl
    have hpos : 0 < w.toFill.toNat := by
      simp only [Sweep.active, Bool.and_eq_true, decide_eq_true_eq] at ha
      exact UInt64.lt_iff_toNat_lt.mp ha.1
    have hheld (k : Int) := ho.held_fill hi he (Word.min_le_right w.toFill e.remaining)
      (hd s _ hn e he) (decreased L.agg (min w.toFill e.remaining)) fun j => s.cmp j k
    rw [sweepStep_cons hv hq] at hvolume htoFill ⊢
    generalize min w.toFill e.remaining = take at *
    generalize L.fill e take (decreased L.agg take) = L' at *
    have hsum := filledQty_append w.fills ⟨e.id, px, take⟩
    simp only [← ahead_volume] at hheld
    constructor
    · exact htoFill.trans h.toFill
    · exact fun k hk => h.quotes k (ho.quotes_of_put hi hk)
    · exact hvolume.trans h.volume
    · intro k
      have hold := h.ahead k
      have hnew := hheld k
      simp only [hsum]
      split at hnew
      · omega
      · omega
    · intro f hf
      rw [List.mem_append, List.mem_singleton] at hf
      rcases hf with hf | rfl
      · exact h.gets f hf
      · have hold := h.ahead px
        rw [ho.ahead_head hv (s.cmp_strict.irrefl px)] at hold
        have htotal := h.toFill
        refine ⟨h.quotes px ⟨L, hn⟩, ?_⟩
        change B.ahead .volume s px < qty
        omega
    · intro f hf m hm
      have hquote := ho.quotes_of_put hi ⟨m.2, hm⟩
      rw [List.mem_append, List.mem_singleton] at hf
      rcases hf with hf | rfl
      · obtain ⟨M, hM⟩ := hquote
        exact h.top f hf (m.1, M) hM
      · exact ho.cmp_head hv hquote
    · rw [List.pairwise_append]
      refine ⟨h.prices, List.pairwise_singleton _ _, fun f hf g hg => ?_⟩
      rw [List.mem_singleton.mp hg]
      exact h.top f hf _ hn
    · intro k hB hworse
      have hpx : s.cmp px k = true :=
        hworse ⟨_, px, _⟩ (List.mem_append_right _ (List.mem_singleton_self _))
      obtain ⟨hquote, hold⟩ := h.behind k hB fun f hf => hworse f (List.mem_append_left _ hf)
      have hnew := hheld k
      rw [if_pos hpx] at hnew
      refine ⟨ho.quotes_put hi (fun he => ?_) hquote, ?_⟩
      · rw [he, s.cmp_strict.irrefl] at hpx
        contradiction
      · simp only [hsum]
        omega
    · intro t ht
      exact (ladder_put_of_ne ht).trans (h.other t ht)

/-- The loop has ended. -/
theorem Dug.digs {q : Qty} (h : Dug B s q.toNat w) (ha : w.active s = false) :
    Digs .fifoStack s q B w.fills w.book := by
  have hdone {n : Int × Level} (hn : n ∈ w.book.ladder s) : w.toFill.toNat = 0 := by
    rw [Sweep.active, Bool.and_eq_false_iff, decide_eq_false_iff_not] at ha
    rcases ha with ha | ha
    · rw [UInt64.lt_iff_toNat_lt, UInt64.toNat_zero] at ha
      omega
    · simp [List.ne_nil_of_mem hn] at ha
  have htotal := h.toFill
  constructor
  · exact h.quotes
  · have hvolume := h.volume
    omega
  · intro g hg px
    obtain rfl : g = .volume := hg.elim id And.left
    have hold := h.ahead px
    change _ ≤ _ + q.toNat
    omega
  · intro f hf
    have hmem : f ∈ w.fills := List.mem_of_getLast? hf
    refine ⟨h.gets f hmem, fun k hk => Bool.eq_false_iff.mpr fun hlt => ?_⟩
    have hall : ∀ g ∈ w.fills, s.cmp g.price k = true := by
      intro g hg
      obtain ⟨l, hl⟩ := List.getLast?_eq_some_iff.mp hf
      have hprices := h.prices
      rw [hl, List.pairwise_append] at hprices
      rw [hl, List.mem_append, List.mem_singleton] at hg
      rcases hg with hg | rfl
      · exact s.cmp_of_not_cmp (hprices.2.2 g hg f (List.mem_singleton_self f)) hlt
      · exact hlt
    obtain ⟨⟨M, hM⟩, hsum⟩ := h.behind k hk.1 hall
    have hz := hdone hM
    have hlt' : B.ahead .volume s k < q.toNat := hk.2
    omega
  · exact fun f hf px ⟨L, hL⟩ => h.top f (List.mem_of_getLast? hf) (px, L) hL
  · rintro - k hk ⟨px, ⟨L, hL⟩, hlt⟩
    obtain ⟨hquotes, hsum⟩ := h.behind k hk fun f hf =>
      s.cmp_of_not_cmp (h.top f hf (px, L) hL) hlt
    have hz := hdone hL
    exact ⟨hquotes, by omega⟩
  · intro t ht k x
    rw [Rests, Rests, h.other t ht]

/-- Only the entries at one price may differ. -/
def Eases (s : Side) (px : Int) (B B' : Book) : Prop :=
  ∀ t k x, ¬ (t = s ∧ k = px) → (B'.Rests t k x ↔ B.Rests t k x)

/-- Filling an entry at the price. -/
theorem Ordered.eases_applyFill (h : B.Ordered)
    (hid : ∀ t k x, B.Rests t k x → x.id = id → t = s ∧ k = px) (amt : Qty) :
    Eases s px B (B.applyFill id amt).2 := by
  rw [applyFill]
  cases hloc : B.locate id with
  | none => exact fun _ _ _ _ => Iff.rfl
  | some S =>
    have hS := at_of_locate hloc
    obtain ⟨hs, hpx⟩ := hid _ _ _ hS.rests hS.id
    intro t k x hne
    rw [h.rests_fill hS, hs, hpx]
    constructor
    · rintro (⟨hx, _⟩ | ⟨ht, hk, _⟩)
      · exact hx
      · exact absurd ⟨ht, hk⟩ hne
    · exact fun hx => Or.inl ⟨hx, fun hid' => hne (hid t k x hx hid')⟩

/-- A match that fills at the best price gets past one level at most. -/
theorem Eases.digs {fills : List Fill} {minFill q : Qty} (h : B.Ordered) (h' : B'.Ordered)
    (he : Eases s px B B') (hv : B.ladder s = (px, L) :: rest) (hf : ∀ f ∈ fills, f.price = px)
    (hvolume : B'.volume s ≤ B.volume s)
    (hahead : B.volume s * (q.toNat + 1) < 2 ^ 64 →
      ∀ k, B.ahead .volume s k ≤ B'.ahead .volume s k + q.toNat) :
    Digs (.proRata minFill) s q B fills B' := by
  have hn : (px, L) ∈ B.ladder s := by rw [hv]; exact List.mem_cons_self
  have hsame (k : Int) (hk : k ≠ px) : B'.Quotes s k ↔ B.Quotes s k := by
    rw [h.quotes_iff, h'.quotes_iff]
    exact exists_congr fun x => he s k x fun hc => hk hc.2
  have hquotes (k : Int) (hk : B'.Quotes s k) : B.Quotes s k := by
    by_cases hpx : k = px
    · exact hpx ▸ ⟨L, hn⟩
    · exact (hsame k hpx).mp hk
  have hlevels (k : Int) : B.ahead .levels s k ≤ B'.ahead .levels s k + 1 := by
    have hle : B.ahead .levels s k ≤ (((px, L) :: (B'.ladder s).filter fun n =>
        s.cmp n.1 k).map fun n => Gauge.levels.holds n.2).sum := by
      refine h.sum_holds_le fun n hn hnk => ?_
      by_cases hpx : n.1 = px
      · exact ⟨(px, L), List.mem_cons_self, hpx.symm, Nat.le_refl 1⟩
      · obtain ⟨M, hM⟩ := (hsame n.1 hpx).mpr ⟨n.2, hn⟩
        exact ⟨(n.1, M), List.mem_cons_of_mem _ (List.mem_filter.mpr ⟨hM, hnk⟩), rfl,
          Nat.le_refl 1⟩
    rw [List.map_cons, List.sum_cons, Nat.add_comm] at hle
    exact hle
  constructor
  · exact hquotes
  · exact hvolume
  · rintro g (rfl | ⟨rfl, hfits⟩) k
    · exact hlevels k
    · exact hahead hfits k
  · intro f hfl
    rw [hf f (List.mem_of_getLast? hfl)]
    refine ⟨⟨⟨L, hn⟩, ?_⟩, fun k hk => Bool.eq_false_iff.mpr fun hlt => ?_⟩
    · rw [h.ahead_head hv (s.cmp_strict.irrefl px)]
      exact Nat.one_pos
    · -- The best level is ahead of `k`.
      have hmem : (1 : Nat) ∈ ((B.ladder s).filter fun n => s.cmp n.1 k).map fun n =>
          Gauge.levels.holds n.2 :=
        List.mem_map.mpr ⟨(px, L), List.mem_filter.mpr ⟨hn, hlt⟩, rfl⟩
      exact Nat.not_lt_of_le (List.le_sum_of_mem hmem) hk.2
  · intro f hfl k hk
    rw [hf f (List.mem_of_getLast? hfl)]
    exact h.cmp_head hv (hquotes k hk)
  · exact fun hp => MatchingPolicy.noConfusion hp
  · exact fun t ht k x => he t k x fun hc => ht hc.1

/-- A match pro rata without effect. -/
theorem Digs.refl (minFill : Qty) (s : Side) (q : Qty) (B : Book) :
    Digs (.proRata minFill) s q B [] B where
  quotes _ h := h
  volume := Nat.le_refl _
  ahead _ _ _ := Nat.le_add_right _ _
  ends _ hf := by simp at hf
  left _ hf := by simp at hf
  behind hp := MatchingPolicy.noConfusion hp
  other _ _ _ _ := Iff.rfl

/-- Quotes depend on what rests. -/
theorem Ordered.quotes_congr (h : B.Ordered) (h' : B'.Ordered)
    (hall : ∀ k x, B'.Rests s k x ↔ B.Rests s k x) (px : Int) :
    B'.Quotes s px ↔ B.Quotes s px := by
  rw [h.quotes_iff, h'.quotes_iff]
  exact exists_congr (hall px)

/-- The side that is not traded against keeps its prices. -/
theorem Digs.quotes_of {fills : List Fill} {q : Qty} (h : Digs p s q B fills B') (ho : B.Ordered)
    (ho' : B'.Ordered) (hpx : B'.Quotes t px) : B.Quotes t px := by
  by_cases ht : t = s
  · subst ht
    exact h.quotes px hpx
  · exact (ho.quotes_congr ho' (h.other t ht) px).mp hpx

/-- No side gets more volume. -/
theorem Digs.volume_le {fills : List Fill} {q : Qty} (h : Digs p s q B fills B') (ho' : B'.Ordered)
    (t : Side) : B'.volume t ≤ B.volume t := by
  by_cases ht : t = s
  · subst ht
    exact h.volume
  · exact ho'.volume_mono fun k x hx => (h.other t ht k x).mp hx

/-- The side that is not traded against keeps what is ahead. -/
theorem Digs.ahead_le {fills : List Fill} {q : Qty} (h : Digs p s q B fills B') (ho : B.Ordered)
    (ho' : B'.Ordered) (t : Side) (hg : t = s → p.Bounds g (B.volume s) q.toNat) (px : Int) :
    B.ahead g t px ≤ B'.ahead g t px + if t = s then g.spends q else 0 := by
  by_cases ht : t = s
  · subst ht
    rw [if_pos rfl]
    exact h.ahead g (hg rfl) px
  · rw [if_neg ht, ho.ahead_eq ho' (h.other t ht) g px]
    exact Nat.le_refl _

/-- First come, first served, both sides keep the levels behind one that is left. -/
theorem Digs.behind_of {fills : List Fill} {q : Qty} (h : Digs p s q B fills B') (ho : B.Ordered)
    (ho' : B'.Ordered) (hp : p = .fifoStack) (t : Side) (hk : B.Quotes t k)
    (hleft : ∃ px, B'.Quotes t px ∧ t.cmp px k = true) : B'.Quotes t k ∧
      B'.ahead .volume t k + (if t = s then q.toNat else 0) = B.ahead .volume t k := by
  by_cases ht : t = s
  · subst ht
    rw [if_pos rfl]
    exact h.behind hp k hk hleft
  · rw [if_neg ht, ho.ahead_eq ho' (h.other t ht) .volume k]
    exact ⟨(ho.quotes_congr ho' (h.other t ht) k).mpr hk, rfl⟩

/-- Splitting an order leaves the others where they rest. -/
theorem Ordered.rests_configure (h : B.Ordered) {display : Qty} (hx : B.Rests t k x)
    (hid : x.id ≠ id) : (B.configure id display).Rests t k x := by
  rw [configure]
  split
  · exact hx
  · next S hloc =>
    split
    · exact hx
    · have hS := at_of_locate hloc
      exact (h.rests_rewrite hS (e := configured S.entry display) hS.id _ t k x).mpr
        (Or.inl ⟨hx, hid⟩)

/-- Splitting an order moves nothing, and makes up its size again. -/
theorem Ordered.rests_of_configure (h : B.Ordered) {display : Qty}
    (hx : (B.configure id display).Rests t k x) :
    B.Rests t k x ∨ ∃ e, B.Rests t k e ∧ e.id = id ∧ x.id = id ∧ x.total = e.qty.toNat := by
  rw [configure] at hx
  split at hx
  · exact Or.inl hx
  · next S hloc =>
    split at hx
    · exact Or.inl hx
    · have hS := at_of_locate hloc
      rcases (h.rests_rewrite hS (e := configured S.entry display) hS.id _ t k x).mp hx with
        ⟨hx, _⟩ | ⟨rfl, rfl, he⟩
      · exact Or.inl hx
      · obtain rfl := Option.some.inj he
        exact Or.inr ⟨S.entry, hS.rests, hS.id, hS.id, Entry.total_configured⟩

end Book

end Queue

end Lob
