import Mathlib.Algebra.BigOperators.Group.List.Basic
import Lob.Demo.Backends
import Lob.Queue.Cancellation
import Lob.Resting.Aggregate
import Lob.Resting.Positive

/-!
# Dictionaries as sides of a book

A dictionary of the toy book shows a side of the queues. Additions and
cancellations keep this, and the loops of the two market branches take the same
fills one after the other.
-/

namespace Lob.Demo

open Queue (Entry Book Level)

/-- The order of the toy book that an entry is. -/
def ToyOrder.ofEntry (e : Entry) : ToyOrder := ⟨e.id, e.remaining.toNat⟩

/-- The list of a level, if there is any order. -/
def listed (os : List ToyOrder) : Option (List ToyOrder) := if os = [] then none else some os

/-- The dictionary holds the queues of a side. -/
def Levels.Shows (d : Levels) (B : Book) (s : Side) : Prop :=
  ∀ px, d.lookup px = listed ((B.levelAt s px).queue.map ToyOrder.ofEntry)

/-- The entry is no iceberg and shows some quantity. -/
structure Plain (e : Entry) : Prop where
  display : e.display = 0
  shows : e.Shows

/-- A level as the page shows it. -/
def LevelView.ofLevel (n : Int × Level) : LevelView := ⟨n.1, n.2.shown, n.2.queue.length⟩

variable {d : Levels} {B : Book} {s t : Side} {px k : Int} {L : Level}

namespace Levels.Shows

variable (h : d.Shows B s) (ho : B.Ordered)
include h ho

/-- A stored level is in the dictionary. -/
theorem lookup_of_mem (hn : (px, L) ∈ B.ladder s) :
    d.lookup px = some (L.queue.map ToyOrder.ofEntry) := by
  have hne : L.queue.map ToyOrder.ofEntry ≠ [] := by
    rw [ne_eq, List.map_eq_nil_iff]
    exact ho.nonempty s _ hn
  rw [h px, ho.levelAt_of_mem hn, listed, if_neg hne]

/-- The keys of the dictionary are the prices of the ladder. -/
theorem mem_keys : px ∈ d.keys ↔ px ∈ (B.ladder s).map Prod.fst := by
  rw [← AList.mem_keys, ← AList.lookup_isSome, h px, List.mem_map]
  rcases ho.levelAt_cases s px with hm | ⟨hno, he⟩
  · have hlookup := h.lookup_of_mem ho hm
    rw [h px] at hlookup
    rw [hlookup]
    exact ⟨fun _ => ⟨_, hm, rfl⟩, fun _ => rfl⟩
  · rw [he]
    constructor
    · intro hs
      contradiction
    · rintro ⟨n, hn, hk⟩
      exact absurd hk (hno n hn)

theorem keys_perm : d.keys.Perm ((B.ladder s).map Prod.fst) := by
  have hnodup : ((B.ladder s).map Prod.fst).Nodup := by
    rw [List.nodup_iff_pairwise_ne, List.pairwise_map]
    refine (ho.sorted s).imp fun {m n} hlt heq => ?_
    rw [heq, s.cmp_strict.irrefl] at hlt
    contradiction
  exact (List.perm_ext_iff_of_nodup d.keys_nodup hnodup).mpr fun px => h.mem_keys ho

/-- The sorted keys are the prices, best first. -/
theorem sortedKeys_eq : d.sortedKeys s = (B.ladder s).map Prod.fst := by
  have hsorted := ho.sorted s
  have hperm := h.keys_perm ho
  cases s with
  | buy =>
    refine ((List.perm_insertionSort _ _).trans hperm).eq_of_pairwise
      (fun a b _ _ (hab : a ≥ b) (hba : b ≥ a) => Int.le_antisymm hba hab)
      (List.pairwise_insertionSort (· ≥ ·) _) ?_
    rw [List.pairwise_map]
    exact hsorted.imp fun {m n} hlt => Int.le_of_lt (of_decide_eq_true hlt)
  | sell =>
    refine ((List.perm_insertionSort _ _).trans hperm).eq_of_pairwise
      (fun a b _ _ (hab : a ≤ b) (hba : b ≤ a) => Int.le_antisymm hab hba)
      (List.pairwise_insertionSort (· ≤ ·) _) ?_
    rw [List.pairwise_map]
    exact hsorted.imp fun {m n} hlt => Int.le_of_lt (of_decide_eq_true hlt)

/-- `min` and `max` find the best price. -/
theorem best_eq : d.best s = (B.ladder s).head?.map Prod.fst := by
  have hsorted := ho.sorted s
  have hkeys {a : Int} : a ∈ d.keys ↔ a ∈ (B.ladder s).map Prod.fst := h.mem_keys ho
  cases hv : B.ladder s with
  | nil =>
    have hnil : d.keys = [] := by
      rw [List.eq_nil_iff_forall_not_mem]
      intro a ha
      rw [hkeys, hv] at ha
      contradiction
    cases s with
    | buy => rw [best, hnil]; rfl
    | sell => rw [best, hnil]; rfl
  | cons n rest =>
    have hmem : n.1 ∈ d.keys := by
      rw [hkeys, hv]
      exact List.mem_cons_self
    have hbest {a : Int} (ha : a ∈ d.keys) : a = n.1 ∨ s.cmp n.1 a = true := by
      rw [hkeys, hv, List.map_cons, List.mem_cons, List.mem_map] at ha
      rw [hv] at hsorted
      rcases ha with ha | ⟨m, hm, rfl⟩
      · exact Or.inl ha
      · exact Or.inr ((List.pairwise_cons.mp hsorted).1 m hm)
    cases s with
    | buy =>
      refine List.max?_eq_some_iff.mpr ⟨hmem, fun a ha => ?_⟩
      rcases hbest ha with rfl | hlt
      · exact Int.le_refl _
      · exact Int.le_of_lt (of_decide_eq_true hlt)
    | sell =>
      refine List.min?_eq_some_iff.mpr ⟨hmem, fun a ha => ?_⟩
      rcases hbest ha with rfl | hlt
      · exact Int.le_refl _
      · exact Int.le_of_lt (of_decide_eq_true hlt)

end Levels.Shows

theorem sum_qty (q : List Entry) : ((q.map ToyOrder.ofEntry).map ToyOrder.qty).sum =
    ((q.map fun e => e.remaining.toNat).sum : Nat) := by
  induction q with
  | nil => rfl
  | cons e es ih =>
    rw [List.map_cons, List.map_cons, List.sum_cons, ih, List.map_cons, List.sum_cons,
      Int.natCast_add]
    rfl

/-- `_levels` shows the ladder. -/
theorem Levels.Shows.view_eq (h : d.Shows B s) (ho : B.Ordered) (hp : B.All Plain) :
    d.view s = (B.ladder s).map LevelView.ofLevel := by
  rw [Levels.view, h.sortedKeys_eq ho, List.filterMap_map]
  refine (List.filterMap_congr fun n hn => ?_).trans (congrFun List.filterMap_eq_map _)
  have hlookup : d.lookup n.1 = _ := h.lookup_of_mem ho (show (n.1, n.2) ∈ _ from hn)
  have hpos : 0 < n.2.shown := by
    obtain ⟨e, he⟩ := List.exists_mem_of_ne_nil _ (ho.nonempty s n hn)
    have hle := Level.remaining_le_shown he
    have hlt := Word.toNat_pos.mpr (hp s n hn e he).shows
    omega
  have hne : ¬ ((n.2.shown : Nat) : Int) = 0 := by omega
  simp only [Function.comp_apply, hlookup, sum_qty]
  rw [← Level.shown, if_neg hne, List.length_map]
  rfl

/-- The snapshot shows the same, down to its depth. -/
theorem levels_eq {b : OrderBook} (h : b.WellFormed) (hx : b.queues.Exact) (depth : Nat) :
    levels b s depth = ((b.queues.ladder s).map LevelView.ofLevel).take depth := by
  rw [levels, OrderBook.queues_ladder, Ladder.mapValues, List.map_map, ← List.map_take]
  refine List.map_congr_left fun n hn => ?_
  have hmem := List.mem_of_mem_take hn
  have hcnt := ((h.shelved s).holds n hmem).cnt
  have hagg : (n.2.view b.mem).Exact := by
    refine hx s (n.1, n.2.view b.mem) ?_
    rw [OrderBook.queues_ladder, Ladder.mem_mapValues]
    exact ⟨n.2, hmem, rfl⟩
  have hlen : (n.2.view b.mem).queue.length = n.2.cnt := by
    rw [hcnt, PriceLevel.view, List.length_map]
  rw [Function.comp_apply, LevelView.ofLevel, Prod.map_snd, hlen, ← hagg]
  rfl

theorem listed_getD (os : List ToyOrder) : (listed os).getD [] = os := by
  unfold listed
  split
  · next h => exact h.symm
  · rfl

/-- A limit order. -/
theorem Levels.Shows.append (h : d.Shows B s) (ho : B.Ordered) {qty : Qty}
    (ho' : (B.add s px qty).Ordered) :
    (d.append px ⟨B.nextId, qty.toNat⟩).Shows (B.add s px qty) s := by
  intro k
  rw [ho.queue_add ho', Levels.append]
  by_cases hk : k = px
  · subst hk
    rw [AList.lookup_insert, h k, listed_getD, if_pos ⟨rfl, rfl⟩, List.map_append, listed, if_neg]
    · rfl
    · simp
  · rw [AList.lookup_insert_ne hk, h k, if_neg fun hc => hk hc.2]

/-- A limit order leaves the other side alone. -/
theorem Levels.Shows.append_other (h : d.Shows B t) (ho : B.Ordered) {qty : Qty}
    (ho' : (B.add s px qty).Ordered) (hts : t ≠ s) : d.Shows (B.add s px qty) t := by
  intro k
  rw [ho.queue_add ho', if_neg fun hc => hts hc.1]
  exact h k

/-- What is left of a level without the cancelled order. -/
theorem lookup_cancelLevel (cid : Nat) (r : Bool × Levels)
    (n : Sigma fun _ : Int => List ToyOrder) :
    (Levels.cancelLevel cid r n).2.lookup px =
      if px = n.1 then listed (n.2.filter fun o => o.id ≠ cid) else r.2.lookup px := by
  unfold Levels.cancelLevel listed
  dsimp only
  by_cases hq : (n.2.filter fun o => o.id ≠ cid) = []
  · rw [if_pos hq, if_pos hq]
    by_cases hk : px = n.1
    · rw [hk, AList.lookup_erase, if_pos rfl]
    · rw [AList.lookup_erase_ne hk, AList.lookup_insert_ne hk, if_neg hk]
  · rw [if_neg hq, if_neg hq]
    by_cases hk : px = n.1
    · rw [hk, AList.lookup_insert, if_pos rfl]
    · rw [AList.lookup_insert_ne hk, if_neg hk]

theorem lookup_cancel (d : Levels) (cid : Nat) (px : Int) : (d.cancel cid).2.lookup px =
    (d.lookup px).bind fun os => listed (os.filter fun o => o.id ≠ cid) := by
  suffices hfold : ∀ (ns : List (Sigma fun _ : Int => List ToyOrder)) (r : Bool × Levels),
      ns.NodupKeys → (ns.foldl (Levels.cancelLevel cid) r).2.lookup px =
        match ns.dlookup px with
        | some os => listed (os.filter fun o => o.id ≠ cid)
        | none => r.2.lookup px by
    rw [Levels.cancel, hfold _ _ d.nodupKeys]
    change (match d.lookup px with
      | some os => listed (os.filter fun o => o.id ≠ cid)
      | none => d.lookup px) = _
    cases d.lookup px with
    | none => rfl
    | some os => rfl
  intro ns
  induction ns with
  | nil => exact fun r _ => rfl
  | cons n ns ih =>
    intro r hnodup
    obtain ⟨hn, hns⟩ := List.nodupKeys_cons.mp hnodup
    rw [List.foldl_cons, ih _ hns]
    by_cases hk : px = n.1
    · subst hk
      rw [List.dlookup_eq_none.mpr hn, List.dlookup_cons_eq]
      dsimp only
      rw [lookup_cancelLevel, if_pos rfl]
    · rw [List.dlookup_cons_ne _ _ hk]
      cases ns.dlookup px with
      | some os => rfl
      | none =>
        dsimp only
        rw [lookup_cancelLevel, if_neg hk]

/-- A cancellation finds the order iff the dictionary holds it. -/
theorem cancel_fst (d : Levels) (cid : Nat) :
    (d.cancel cid).1 = true ↔ ∃ px os, d.lookup px = some os ∧ ∃ o ∈ os, o.id = cid := by
  have hfold (ns : List (Sigma fun _ : Int => List ToyOrder)) (r : Bool × Levels) :
      (ns.foldl (Levels.cancelLevel cid) r).1 = true ↔
        r.1 = true ∨ ∃ n ∈ ns, ∃ o ∈ n.2, o.id = cid := by
    induction ns generalizing r with
    | nil => simp
    | cons n ns ih =>
      have hlevel : (Levels.cancelLevel cid r n).1 = true ↔
          r.1 = true ∨ ∃ o ∈ n.2, o.id = cid := by
        unfold Levels.cancelLevel
        rw [Bool.or_eq_true, decide_eq_true_eq]
        refine or_congr_right ?_
        have hle := List.length_filter_le (fun o : ToyOrder => o.id ≠ cid) n.2
        have hlt := List.length_filter_lt_length_iff_exists (l := n.2)
          (p := fun o : ToyOrder => o.id ≠ cid)
        simp only [ne_eq, decide_not, Bool.not_eq_eq_eq_not, Bool.not_true,
          decide_eq_false_iff_not, not_not] at hlt hle ⊢
        rw [← hlt]
        omega
      rw [List.foldl_cons, ih, hlevel, List.exists_mem_cons_iff, or_assoc]
  rw [Levels.cancel, hfold]
  simp only [Bool.false_eq_true, false_or]
  constructor
  · rintro ⟨n, hn, o, ho, rfl⟩
    exact ⟨n.1, n.2, AList.mem_lookup_iff.mpr hn, o, ho, rfl⟩
  · rintro ⟨px, os, hl, o, ho, rfl⟩
    exact ⟨⟨px, os⟩, AList.mem_lookup_iff.mp hl, o, ho, rfl⟩

/-- A cancellation takes the order out of the queues. -/
theorem Levels.Shows.cancel (h : d.Shows B s) (ho : B.Ordered) {id : Nat}
    (ho' : (B.cancel id).Ordered) : (d.cancel id).2.Shows (B.cancel id) s := by
  intro k
  rw [lookup_cancel, h k, ho.queue_cancel ho']
  unfold listed
  split
  · next hnil =>
    rw [List.map_eq_nil_iff.mp hnil]
    rfl
  · rw [Option.bind_some, List.filter_map]
    rfl

/-- It finds the order iff the order rests on this side. -/
theorem Levels.Shows.cancel_fst (h : d.Shows B s) (ho : B.Ordered) (id : Nat) :
    (d.cancel id).1 = true ↔ ∃ px e, B.Rests s px e ∧ e.id = id := by
  rw [Demo.cancel_fst]
  constructor
  · rintro ⟨px, os, hl, o, hmem, rfl⟩
    have hos := listed_getD ((B.levelAt s px).queue.map ToyOrder.ofEntry)
    rw [← h px, hl, Option.getD_some] at hos
    rw [hos, List.mem_map] at hmem
    obtain ⟨e, he, rfl⟩ := hmem
    exact ⟨px, e, ho.mem_levelAt.mp he, rfl⟩
  · rintro ⟨px, e, ⟨L, hL, he⟩, rfl⟩
    exact ⟨px, _, h.lookup_of_mem ho hL, _, List.mem_map_of_mem he, rfl⟩

/-- The state of the toy book's loop and of `market_order`'s loop after as many iterations. -/
structure Tracks (s : Side) (B : Book) (w : Take) (v : OrderBook.Sweep) : Prop where
  wf : v.book.WellFormed
  shows : w.opp.Shows v.book.queues s
  other : ∀ t, t ≠ s → v.book.queues.ladder t = B.ladder t
  next : v.book.queues.nextId = B.nextId
  plain : v.book.queues.All Plain
  exact : v.book.queues.Exact
  less : ∀ t k, (v.book.queues.levelAt t k).shown ≤ (B.levelAt t k).shown
  left : w.left = v.toFill.toNat
  fills : w.fills = v.fills.map FillView.ofFill

variable {w : Take} {v : OrderBook.Sweep} {e : Entry} {es : List Entry} {amt : Qty}

/-- What the toy book makes of the list of a level. -/
theorem map_fill (hle : amt ≤ e.remaining) (es : List Entry) :
    (if (e.remaining - amt) = 0 then es else e.take amt :: es).map ToyOrder.ofEntry =
      if (e.remaining.toNat : Int) - amt.toNat = 0 then es.map ToyOrder.ofEntry
      else ⟨e.id, e.remaining.toNat - amt.toNat⟩ :: es.map ToyOrder.ofEntry := by
  have hsub := Word.toNat_sub hle
  have hnat := UInt64.le_iff_toNat_le.mp hle
  by_cases hz : e.remaining - amt = 0
  · have heq := Word.sub_eq_zero.mp hz
    rw [if_pos hz, if_pos (by rw [heq]; omega)]
  · have hne : ¬ (e.remaining.toNat : Int) - amt.toNat = 0 := by
      intro hzero
      exact hz (Word.sub_eq_zero.mpr (UInt64.toNat_inj.mp (by omega)))
    rw [if_neg hz, if_neg hne, List.map_cons]
    have hrem : ((e.take amt).remaining.toNat : Int) = e.remaining.toNat - amt.toNat := by
      rw [show (e.take amt).remaining = e.remaining - amt from rfl, hsub]
      omega
    rw [← hrem]
    rfl

theorem Tracks.active_eq (h : Tracks s B w v) : w.active = v.active s := by
  have hkeys := (h.shows.keys_perm h.wf.ordered).length_eq
  rw [List.length_map, OrderBook.queues_ladder, Ladder.mapValues, List.length_map] at hkeys
  have hempty : w.opp.keys.isEmpty = (v.book.ladder s).isEmpty := by
    rw [Bool.eq_iff_iff, List.isEmpty_iff_length_eq_zero, List.isEmpty_iff_length_eq_zero, hkeys]
  have hpos : (0 < w.left) ↔ 0 < v.toFill := by
    rw [h.left, UInt64.lt_iff_toNat_lt]
    exact Int.natCast_pos
  rw [Take.active, OrderBook.Sweep.active, hempty]
  simp only [hpos]

/-- The first order of the best level, in both books. -/
theorem Tracks.head (h : Tracks s B w v) (ha : w.active = true) : ∃ px L e es rest,
    v.book.queues.ladder s = (px, L) :: rest ∧ L.queue = e :: es ∧ Plain e ∧ L.Distinct ∧
      w.opp.best s = some px ∧ w.opp.lookup px = some (.ofEntry e :: es.map .ofEntry) := by
  have hord := h.wf.ordered
  rw [h.active_eq, OrderBook.Sweep.active, Bool.and_eq_true] at ha
  have hbest := h.shows.best_eq hord
  have hladder := OrderBook.queues_ladder v.book s
  cases hv : v.book.queues.ladder s with
  | nil =>
    rw [hv] at hladder
    rw [List.map_eq_nil_iff.mp hladder.symm] at ha
    exact absurd ha.2 (by decide)
  | cons n rest =>
    obtain ⟨px, L⟩ := n
    have hn : (px, L) ∈ v.book.queues.ladder s := by rw [hv]; exact List.mem_cons_self
    obtain ⟨e, es, hq⟩ := List.exists_cons_of_ne_nil (hord.nonempty s _ hn)
    have hlookup := h.shows.lookup_of_mem hord hn
    rw [hq, List.map_cons] at hlookup
    rw [hv] at hbest
    have he : e ∈ L.queue := by rw [hq]; exact List.mem_cons_self
    exact ⟨px, L, e, es, rest, rfl, hq, h.plain s _ hn e he, hord.level s _ hn, hbest, hlookup⟩

/-- A fill shows no more than before. -/
theorem shown_fill_le (hd : L.Distinct) (hq : L.queue = e :: es) (hp : Plain e)
    (hle : amt ≤ e.remaining) : (L.fill e amt agg).shown ≤ L.shown := by
  have hsub := Word.toNat_sub hle
  rw [Level.shown, Level.shown, hd.queue_fill hq hp.display, hq]
  split
  · rw [List.map_cons, List.sum_cons]
    exact Nat.le_add_left _ _
  · rw [List.map_cons, List.map_cons, List.sum_cons, List.sum_cons,
      show (e.take amt).remaining = e.remaining - amt from rfl]
    omega

theorem plain_fill (hd : L.Distinct) (hq : L.queue = e :: es) (hp : ∀ x ∈ L.queue, Plain x) :
    ∀ x ∈ (L.fill e amt agg).queue, Plain x := by
  have he : Plain e := hp e (by rw [hq]; exact List.mem_cons_self)
  have hes (x : Entry) (hx : x ∈ es) : Plain x := hp x (by rw [hq]; exact List.mem_cons_of_mem e hx)
  intro x hx
  rw [hd.queue_fill hq he.display] at hx
  split at hx
  · exact hes x hx
  · next hz =>
    rcases List.mem_cons.mp hx with rfl | hx
    · exact ⟨he.display, hz⟩
    · exact hes x hx

/-- The dictionary after the fill of the best level. -/
theorem Levels.Shows.fill (h : d.Shows B s) (ho : B.Ordered) {L' : Level} {os : List ToyOrder}
    (hi : (B.ladder s)[0]? = some (px, L)) (ho' : (B.put s 0 px L').Ordered)
    (hos : L'.queue.map .ofEntry = os) :
    Levels.Shows (if os = [] then d.erase px else d.insert px os) (B.put s 0 px L') s := by
  intro k
  rw [ho.queue_put hi ho']
  by_cases hk : k = px
  · subst hk
    have hqueue : (if s = s ∧ k = k then L'.queue else (B.levelAt s k).queue) = L'.queue :=
      if_pos ⟨rfl, rfl⟩
    rw [hqueue, hos, listed]
    split
    · exact AList.lookup_erase ..
    · exact AList.lookup_insert ..
  · have hqueue : (if s = s ∧ k = px then L'.queue else (B.levelAt s k).queue) =
        (B.levelAt s k).queue := if_neg fun hc => hk hc.2
    rw [hqueue, ← h k]
    split
    · exact AList.lookup_erase_ne hk
    · exact AList.lookup_insert_ne hk

/-- Both loops take the same fill. -/
theorem Tracks.step (h : Tracks s B w v) (ha : w.active = true) :
    Tracks s B (w.step s) (OrderBook.sweepStep s v) := by
  obtain ⟨href, hview⟩ := h.wf.sweepStep (s := s)
  have hord := h.wf.ordered
  obtain ⟨px, L, e, es, rest, hv, hq, hplain, hd, hbest, hlookup⟩ := h.head ha
  rw [Queue.sweepStep_cons (w := v.view) hv hq] at hview
  have htoFill : v.view.toFill = v.toFill := rfl
  rw [htoFill] at hview
  have hamt := Word.min_le_left v.toFill e.remaining
  have hle := Word.min_le_right v.toFill e.remaining
  have hmin : min w.left (ToyOrder.ofEntry e).qty = (min v.toFill e.remaining).toNat := by
    rw [h.left, Word.toNat_min]
    change min (v.toFill.toNat : Int) e.remaining.toNat = _
    omega
  generalize min v.toFill e.remaining = amt at hview hamt hle hmin
  have hbook : (OrderBook.sweepStep s v).book.queues =
      v.book.queues.put s 0 px (L.fill e amt (decreased L.agg amt)) :=
    congrArg Queue.Sweep.book hview
  have hfill : (OrderBook.sweepStep s v).toFill = v.toFill - amt :=
    congrArg Queue.Sweep.toFill hview
  have hfills : (OrderBook.sweepStep s v).fills = v.fills ++ [⟨e.id, px, amt⟩] :=
    congrArg Queue.Sweep.fills hview
  have hord' := href.wf.ordered
  rw [hbook] at hord'
  have hi : (v.book.queues.ladder s)[0]? = some (px, L) := by rw [hv]; rfl
  have hL := hord.levelAt_of_mem (List.mem_of_getElem? hi)
  have hos := map_fill hle es
  rw [← hd.queue_fill hq hplain.display amt (decreased L.agg amt)] at hos
  have hstep : w.step s =
      { opp := if (L.fill e amt (decreased L.agg amt)).queue.map ToyOrder.ofEntry = [] then
          w.opp.erase px
          else w.opp.insert px ((L.fill e amt (decreased L.agg amt)).queue.map ToyOrder.ofEntry)
        left := w.left - amt.toNat
        fills := w.fills ++ [⟨e.id, px, amt.toNat⟩] } := by
    rw [hos]
    simp only [Take.step, hbest, hlookup, hmin]
    rfl
  have hless (t : Side) (k : Int) :
      ((OrderBook.sweepStep s v).book.queues.levelAt t k).shown ≤
        (v.book.queues.levelAt t k).shown := by
    rw [hbook, hord.shown_put hi hord']
    split
    · next hk =>
      rw [hk.1, hk.2, hL]
      exact shown_fill_le hd hq hplain hle
    · exact Nat.le_refl _
  rw [hstep]
  constructor
  · exact href.wf
  · rw [hbook]
    exact h.shows.fill hord hi hord' rfl
  · intro t ht
    rw [hbook, Book.ladder_put_of_ne ht]
    exact h.other t ht
  · rw [hbook, Book.nextId_put]
    exact h.next
  · rw [hbook]
    exact h.plain.put (plain_fill hd hq (h.plain s _ (List.mem_of_getElem? hi)))
  · refine OrderBook.sweepStep_exact h.wf h.exact fun k => Nat.lt_of_le_of_lt (hless s k) ?_
    rcases hord.levelAt_cases s k with hm | ⟨_, he⟩
    · exact (Book.exact_iff.mp h.exact).2 s _ hm
    · rw [he]
      decide
  · exact fun t k => Nat.le_trans (hless t k) (h.less t k)
  · dsimp only
    have hsub := Word.toNat_sub hamt
    have hnat := UInt64.le_iff_toNat_le.mp hamt
    rw [hfill, h.left, hsub]
    omega
  · rw [hfills, List.map_append, h.fills]
    rfl

/-- The toy book's loop ends. -/
theorem Tracks.done (h : Tracks s B w v) {n : Nat} (hn : w.left.toNat ≤ n) :
    (Loop.run Take.active (Take.step s) n w).active = false := by
  refine Loop.run_done (I := fun w => ∃ v, Tracks s B w v) (fun w => w.left.toNat) ?_
    ⟨v, h⟩ hn
  rintro w ⟨v, h⟩ ha
  obtain ⟨px, L, e, es, rest, -, -, hplain, -, hbest, hlookup⟩ := h.head ha
  have hpos := Word.toNat_pos.mpr hplain.shows
  have hleft := ha
  rw [Take.active, Bool.and_eq_true, decide_eq_true_eq] at hleft
  refine ⟨⟨_, h.step ha⟩, ?_⟩
  simp only [Take.step, hbest, hlookup, ToyOrder.ofEntry]
  omega

/-- The two market branches end in the same place. -/
theorem Levels.Shows.market {b : OrderBook} {side : Side} (qty : Qty)
    (h : b.WellFormed) (hd : d.Shows b.queues side.opposite) (hp : b.queues.All Plain)
    (hx : b.queues.Exact) :
    Tracks side.opposite b.queues
      (Loop.run Take.active (Take.step side.opposite) (qty.toNat + d.count + 1) ⟨d, qty.toNat, []⟩)
      (OrderBook.sweep side.opposite (b.sweepBound side.opposite qty) ⟨b, qty, []⟩) := by
  have hinit : Tracks side.opposite b.queues ⟨d, qty.toNat, []⟩ ⟨b, qty, []⟩ :=
    ⟨h, hd, fun _ _ => rfl, rfl, hp, hx, fun _ _ => Nat.le_refl _, rfl, rfl⟩
  have hdone := h.marketOrder_done side qty
  rw [OrderBook.sweep_eq_run] at hdone ⊢
  refine Loop.run_related_of_done (fun w v hw => hw.active_eq) (fun w v hw ha => hw.step ha) hinit
    (hinit.done ?_) hdone
  dsimp only
  omega

end Lob.Demo
