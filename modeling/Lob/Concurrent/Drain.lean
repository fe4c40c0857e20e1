import Mathlib.Data.Finset.Card
import Mathlib.Data.Fintype.Defs
import Lob.Concurrent.Retries

/-!
# Draining the many-producer ring

The producers push the values they were given, retrying while the ring is full,
and each counts itself out of `remaining` after its last one. The consumer pops
while `remaining` is positive or `empty` is false, and then until a pop fails.
`empty` looks at one sequence number only, so a producer between its claim and
its store hides its item from it; the count says when no such producer is left.
-/

namespace Lob

open Ring (Outcome)

namespace MpscRing

/-- Where the consuming thread is. -/
inductive Drainer where
  /-- `remaining` is loaded next. -/
  | head
  /-- `remaining` was zero; `empty` loads `dequeue_pos_` next. -/
  | probing
  /-- `empty` loads `slot.seq` next. -/
  | peeking (pos : Nat)
  /-- In a `try_pop` of the loop on `remaining` and `empty`. -/
  | popping
  /-- In a `try_pop` of the loop after it. -/
  | sweeping
  | joined
  deriving DecidableEq, Repr

/-- The ring with the threads that fill and drain it. -/
structure Drain (ι T : Type) where
  ring : MpscRing ι T
  /-- What each producer has to push, the value it is at first. -/
  todo : ι → List T
  /-- The producer has counted itself out. -/
  retired : ι → Bool
  remaining : Nat
  drainer : Drainer
  seen : List T

namespace Drain

variable {ι T : Type}

def start [Inhabited T] [Fintype ι] (works : ι → List T) : Drain ι T :=
  { ring := new, todo := works, retired := fun _ => false, remaining := Fintype.card ι
    drainer := .head, seen := [] }

/-- The next step of the consuming thread. -/
def drainStep (k : Nat) (s : Drain ι T) : Drain ι T :=
  match s.drainer with
  | .head => { s with drainer := if 0 < s.remaining then .popping else .probing }
  | .probing => { s with drainer := .peeking s.ring.dequeuePos }
  | .peeking pos =>
    { s with drainer := if s.ring.seq (slot k pos) < pos + 1 then .sweeping else .popping }
  | .popping =>
    match s.ring.popStep k with
    | (.running, ring) => { s with ring }
    | (.refused, ring) => { s with ring, drainer := .head }
    | (.done v, ring) => { s with ring, drainer := .head, seen := s.seen ++ [v] }
  | .sweeping =>
    match s.ring.popStep k with
    | (.running, ring) => { s with ring }
    | (.refused, ring) => { s with ring, drainer := .joined }
    | (.done v, ring) => { s with ring, seen := s.seen ++ [v] }
  | .joined => s

variable [DecidableEq ι]

/-- The next step of producer `i`: of the push it is at, or, when it has pushed everything, its
`remaining.fetch_sub`. -/
def feedStep (k : Nat) (s : Drain ι T) (i : ι) (weak : Bool) : Drain ι T :=
  match s.todo i with
  | v :: vs =>
    match s.ring.pushStep k i v weak with
    | (.done _, ring) => { s with ring, todo := Function.update s.todo i vs }
    | (_, ring) => { s with ring }
  | [] =>
    if s.retired i then s
    else { s with
      retired := Function.update s.retired i true
      remaining := s.remaining - 1 }

/-- One of the threads takes a step. -/
inductive Action (ι : Type) where
  | feed (i : ι) (weak : Bool)
  | drain
  deriving DecidableEq, Repr

def step (k : Nat) (s : Drain ι T) : Action ι → Drain ι T
  | .feed i weak => s.feedStep k i weak
  | .drain => s.drainStep k

/-- The states of any interleaving. -/
def Reachable [Inhabited T] [Fintype ι] (k : Nat) (works : ι → List T) : Drain ι T → Prop :=
  Run.Reach (step k) (fun _ _ => True) (start works)

/-- What a producer has claimed and what it still has to push make up its work. -/
def Owed (works : ι → List T) (s : Drain ι T) (i : ι) : Prop :=
  match s.ring.producers i with
  | .idle => works i = s.ring.sent i ++ s.todo i
  | .reloading v | .checking v _ | .claiming v _ =>
    ∃ vs, s.todo i = v :: vs ∧ works i = s.ring.sent i ++ v :: vs
  | .writing v _ | .publishing v _ => ∃ vs, s.todo i = v :: vs ∧ works i = s.ring.sent i ++ vs

/-- What the consuming thread knows. -/
def Knows (s : Drain ι T) : Prop :=
  match s.drainer with
  | .head => s.ring.consumer = .idle
  | .probing | .peeking _ => s.ring.consumer = .idle ∧ s.remaining = 0
  | .popping => True
  | .sweeping => s.remaining = 0
  | .joined => s.remaining = 0 ∧ s.ring.popped.length = s.ring.claims.length

/-- The invariant of the threads. -/
structure Valid [Fintype ι] (k : Nat) (works : ι → List T) (s : Drain ι T) : Prop where
  ring : s.ring.Valid k
  owed : ∀ i, s.Owed works i
  retired : ∀ i, s.retired i = true → s.todo i = []
  remaining : s.remaining = (Finset.univ.filter fun i => s.retired i = false).card
  seen : s.seen = s.ring.popped
  knows : s.Knows

variable {k : Nat} {works : ι → List T} {s : Drain ι T} {i : ι}

omit [DecidableEq ι] in
/-- A producer with nothing left to push is idle and has claimed its whole work. -/
theorem Owed.finished (h : s.Owed works i) (ht : s.todo i = []) :
    s.ring.producers i = .idle ∧ works i = s.ring.sent i := by
  unfold Owed at h
  cases hp : s.ring.producers i with
  | idle =>
    simp only [hp, ht, List.append_nil] at h
    exact ⟨rfl, h⟩
  | reloading | checking | claiming | writing | publishing =>
    simp only [hp, ht] at h
    obtain ⟨_, hv, _⟩ := h
    contradiction

/-- When the count is down every producer is done. -/
theorem Valid.finished [Fintype ι] (h : s.Valid k works) (hr : s.remaining = 0) (i : ι) :
    s.ring.producers i = .idle ∧ works i = s.ring.sent i := by
  refine (h.owed i).finished (h.retired i ?_)
  have hcount := h.remaining
  rw [hr, eq_comm, Finset.card_eq_zero, Finset.filter_eq_empty_iff] at hcount
  simpa using hcount (Finset.mem_univ i)

/-- What a step of a producer leaves alone. -/
theorem pushStep_frame (r : MpscRing ι T) (v : T) (weak : Bool) :
    (r.pushStep k i v weak).2.consumer = r.consumer ∧
      (r.pushStep k i v weak).2.popped = r.popped ∧
      ∀ j ≠ i, (r.pushStep k i v weak).2.sent j = r.sent j := by
  unfold pushStep
  cases r.producers i with
  | idle | reloading | writing | publishing => exact ⟨rfl, rfl, fun _ _ => rfl⟩
  | checking w pos =>
    dsimp only
    split
    · exact ⟨rfl, rfl, fun _ _ => rfl⟩
    · split <;> exact ⟨rfl, rfl, fun _ _ => rfl⟩
  | claiming w pos =>
    dsimp only
    split
    · exact ⟨rfl, rfl, fun j hj => Function.update_of_ne hj ..⟩
    · exact ⟨rfl, rfl, fun _ _ => rfl⟩

/-- A step of the push at hand keeps the account of its producer. -/
theorem Owed.push_self (h : s.Owed works i) {v : T} {vs : List T} (ht : s.todo i = v :: vs)
    (weak : Bool) : (s.feedStep k i weak).Owed works i := by
  unfold Owed at h
  unfold feedStep pushStep
  rw [ht]
  cases hp : s.ring.producers i with
  | idle =>
    simp only [hp, ht] at h
    simp only [Owed, setProducer, Function.update_self, ht]
    exact ⟨vs, rfl, h⟩
  | reloading w =>
    simp only [hp] at h
    simp only [Owed, setProducer, Function.update_self]
    exact h
  | checking w pos =>
    simp only [hp] at h
    by_cases hseq : s.ring.seq (slot k pos) = pos
    · simp only [if_pos hseq, Owed, setProducer, Function.update_self]
      exact h
    · by_cases hlt : s.ring.seq (slot k pos) < pos
      · obtain ⟨ws, hw, hworks⟩ := h
        simp only [if_neg hseq, if_pos hlt, Owed, setProducer, Function.update_self]
        rw [hw]
        exact hworks
      · simp only [if_neg hseq, if_neg hlt, Owed, setProducer, Function.update_self]
        exact h
  | claiming w pos =>
    simp only [hp] at h
    by_cases hwin : s.ring.enqueuePos = pos ∧ weak = false
    · obtain ⟨ws, hw, hworks⟩ := h
      simp only [if_pos hwin, Owed, setProducer, Function.update_self]
      exact ⟨ws, hw, by rw [hworks, List.append_assoc]; rfl⟩
    · simp only [if_neg hwin, Owed, setProducer, Function.update_self]
      exact h
  | writing w pos =>
    simp only [hp] at h
    simp only [Owed, setProducer, Function.update_self]
    exact h
  | publishing w pos =>
    simp only [hp] at h
    obtain ⟨ws, hw, hworks⟩ := h
    obtain ⟨rfl, rfl⟩ := List.cons.inj (hw.symm.trans ht)
    simp only [Owed, setProducer, Function.update_self]
    exact hworks

/-- A step of a push, by what it returns. -/
theorem feedStep_cons {v : T} {vs : List T} (ht : s.todo i = v :: vs) (weak : Bool) :
    (s.feedStep k i weak).ring = (s.ring.pushStep k i v weak).2 ∧
      (∀ j ≠ i, (s.feedStep k i weak).todo j = s.todo j) ∧
      (s.feedStep k i weak).retired = s.retired ∧
      (s.feedStep k i weak).remaining = s.remaining ∧
      (s.feedStep k i weak).seen = s.seen ∧ (s.feedStep k i weak).drainer = s.drainer := by
  unfold feedStep
  rw [ht]
  dsimp only
  split
  · next hr =>
    rw [hr]
    exact ⟨rfl, fun j hj => Function.update_of_ne hj .., rfl, rfl, rfl, rfl⟩
  · next hr =>
    rw [hr]
    exact ⟨rfl, fun _ _ => rfl, rfl, rfl, rfl, rfl⟩

variable [Fintype ι]

/-- A step of a push keeps the invariant. -/
theorem Valid.push (h : s.Valid k works) (hk : 0 < k) {v : T} {vs : List T}
    (ht : s.todo i = v :: vs) (weak : Bool) : (s.feedStep k i weak).Valid k works := by
  obtain ⟨hring, htodo, hretired, hremaining, hseen, hdrainer⟩ := feedStep_cons (k := k) ht weak
  obtain ⟨hconsumer, hpopped, hsent⟩ := pushStep_frame (k := k) (i := i) s.ring v weak
  have halive : s.retired i = false := by
    cases hr : s.retired i with
    | false => rfl
    | true =>
      rw [h.retired i hr] at ht
      contradiction
  have hcount : 0 < s.remaining := by
    rw [h.remaining, Finset.card_pos]
    exact ⟨i, Finset.mem_filter.mpr ⟨Finset.mem_univ i, halive⟩⟩
  constructor
  · rw [hring]
    exact h.ring.push hk i v weak
  · intro j
    by_cases hj : j = i
    · subst hj
      exact (h.owed j).push_self ht weak
    · have hold := h.owed j
      unfold Owed at hold ⊢
      rw [hring, producers_pushStep s.ring v weak hj, hsent j hj, htodo j hj]
      exact hold
  · intro j hj
    rw [hretired] at hj
    by_cases hji : j = i
    · subst hji
      rw [halive] at hj
      contradiction
    · rw [htodo j hji]
      exact h.retired j hj
  · rw [hremaining, hretired]
    exact h.remaining
  · rw [hseen, hring, hpopped]
    exact h.seen
  · have hknows := h.knows
    unfold Knows at hknows ⊢
    rw [hdrainer, hring, hconsumer, hpopped, hremaining]
    cases hd : s.drainer with
    | head => simpa only [hd] using hknows
    | popping => trivial
    | probing | peeking | sweeping | joined =>
      simp only [hd] at hknows
      omega

/-- A producer that counts itself out keeps the invariant. -/
theorem Valid.retire (h : s.Valid k works) (ht : s.todo i = []) (weak : Bool) :
    (s.feedStep k i weak).Valid k works := by
  unfold feedStep
  rw [ht]
  dsimp only
  split
  · exact h
  · next halive =>
    have hmem : i ∈ Finset.univ.filter fun j => s.retired j = false :=
      Finset.mem_filter.mpr ⟨Finset.mem_univ i, by simpa using halive⟩
    have hcount : 0 < s.remaining := by
      rw [h.remaining]
      exact Finset.card_pos.mpr ⟨i, hmem⟩
    refine { h with retired := fun j hj => ?_, remaining := ?_, knows := ?_ }
    · by_cases hji : j = i
      · subst hji
        exact ht
      · dsimp only at hj
        rw [Function.update_of_ne hji] at hj
        exact h.retired j hj
    · have hfilter : (Finset.univ.filter fun j => Function.update s.retired i true j = false) =
          (Finset.univ.filter fun j => s.retired j = false).erase i := by
        ext j
        by_cases hji : j = i
        · subst hji
          simp
        · simp [hji]
      dsimp only
      rw [hfilter, Finset.card_erase_of_mem hmem, h.remaining]
    · have hknows := h.knows
      unfold Knows at hknows ⊢
      cases hd : s.drainer with
      | head => simpa only [hd] using hknows
      | popping => trivial
      | probing | peeking | sweeping | joined =>
        simp only [hd] at hknows
        omega

omit [DecidableEq ι] [Fintype ι] in
/-- A step of the consumer, by what it returns. -/
theorem popStep_returns (r : MpscRing ι T) :
    match (r.popStep k).1 with
    | .running => (r.popStep k).2.popped = r.popped
    | .refused => (r.popStep k).2.popped = r.popped ∧ (r.popStep k).2.consumer = .idle
    | .done v => (r.popStep k).2.popped = r.popped ++ [v] ∧ (r.popStep k).2.consumer = .idle := by
  unfold popStep
  cases r.consumer with
  | idle | reading | releasing => rfl
  | checking pos =>
    by_cases hseq : r.seq (slot k pos) < pos + 1
    · simp only [if_pos hseq, and_self]
    · simp only [if_neg hseq]
  | advancing pos out => exact ⟨rfl, rfl⟩

omit [DecidableEq ι] [Fintype ι] in
theorem sent_popStep (r : MpscRing ι T) : (r.popStep k).2.sent = r.sent := by
  unfold popStep
  cases r.consumer with
  | idle | reading | releasing | advancing => rfl
  | checking pos =>
    dsimp only
    split <;> rfl

omit [Fintype ι] in
/-- With no producer at work, a pop that is refused finds everything popped. -/
theorem drained {r : MpscRing ι T} (h : r.Valid k) (hidle : ∀ i, r.producers i = .idle)
    (hr : (r.popStep k).1 = .refused) : r.popped.length = r.claims.length := by
  have hpop := h.popping
  have hrel := h.released
  have hdeq := h.dequeued
  unfold popStep at hr
  unfold Popping at hpop
  cases hc : r.consumer with
  | idle | reading | releasing | advancing =>
    simp only [hc] at hr
    contradiction
  | checking pos =>
    simp only [hc] at hr hpop
    have hpos : r.released = pos := by simp only [MpscRing.released, hc, hpop]
    have hseq : r.seq (slot k pos) < pos + 1 := by
      by_contra hge
      simp only [if_neg hge] at hr
      contradiction
    have hlast : r.claims.length ≤ pos := by
      by_contra hlt
      have hund : r.Undelivered pos := by
        refine ⟨Nat.le_of_eq hpos, by omega, fun i hi => ?_⟩
        rw [hidle i] at hi
        contradiction
      have hpub := (h.published pos hund).1
      omega
    omega

/-- A `try_pop` keeps everything but what the consuming thread is at. -/
theorem Valid.pop (h : s.Valid k works) {d : Drainer} {seen : List T}
    (hseen : seen = (s.ring.popStep k).2.popped)
    (hknows : ({ s with ring := (s.ring.popStep k).2, drainer := d, seen } : Drain ι T).Knows) :
    ({ s with ring := (s.ring.popStep k).2, drainer := d, seen } : Drain ι T).Valid k works := by
  refine { h with ring := h.ring.pop, owed := fun i => ?_, seen := hseen, knows := hknows }
  have hold := h.owed i
  unfold Owed at hold ⊢
  dsimp only
  rw [(producers_popStep s.ring).1, sent_popStep]
  exact hold

/-- The consuming thread moves on without a pop. -/
theorem Valid.turn (h : s.Valid k works) {d : Drainer}
    (hknows : ({ s with drainer := d } : Drain ι T).Knows) :
    ({ s with drainer := d } : Drain ι T).Valid k works :=
  { h with knows := hknows }

/-- Every step of the consuming thread keeps the invariant. -/
theorem Valid.drain (h : s.Valid k works) : (s.drainStep k).Valid k works := by
  have hknows := h.knows
  have hreturns := popStep_returns (k := k) s.ring
  unfold Knows at hknows
  unfold drainStep
  cases hd : s.drainer with
  | head =>
    simp only [hd] at hknows
    by_cases hr : 0 < s.remaining
    · simp only [if_pos hr]
      exact h.turn trivial
    · simp only [if_neg hr]
      exact h.turn ⟨hknows, by dsimp only; omega⟩
  | probing =>
    simp only [hd] at hknows
    exact h.turn hknows
  | peeking pos =>
    simp only [hd] at hknows
    by_cases hseq : s.ring.seq (slot k pos) < pos + 1
    · simp only [if_pos hseq]
      exact h.turn hknows.2
    · simp only [if_neg hseq]
      exact h.turn trivial
  | popping =>
    cases ho : s.ring.popStep k with
    | mk o ring =>
      obtain rfl : (s.ring.popStep k).2 = ring := congrArg Prod.snd ho
      rw [congrArg Prod.fst ho] at hreturns
      cases o with
      | running =>
        refine h.pop (h.seen.trans hreturns.symm) ?_
        simp only [Knows]
      | refused => exact h.pop (h.seen.trans hreturns.1.symm) hreturns.2
      | done v => exact h.pop (by rw [hreturns.1, h.seen]) hreturns.2
  | sweeping =>
    simp only [hd] at hknows
    cases ho : s.ring.popStep k with
    | mk o ring =>
      obtain rfl : (s.ring.popStep k).2 = ring := congrArg Prod.snd ho
      rw [congrArg Prod.fst ho] at hreturns
      cases o with
      | running =>
        refine h.pop (h.seen.trans hreturns.symm) ?_
        simp only [Knows]
        exact hknows
      | refused =>
        refine h.pop (h.seen.trans hreturns.1.symm) ⟨hknows, ?_⟩
        dsimp only
        rw [hreturns.1, (producers_popStep s.ring).2]
        exact drained h.ring (fun i => (h.finished hknows i).1) (congrArg Prod.fst ho)
      | done v =>
        refine h.pop (by rw [hreturns.1, h.seen]) ?_
        simp only [Knows]
        exact hknows
  | joined => exact h

theorem valid_start [Inhabited T] : (start works : Drain ι T).Valid k works where
  ring := valid_new
  owed _ := rfl
  retired _ hi := by
    simp only [start] at hi
    contradiction
  remaining := by simp [start]
  seen := rfl
  knows := rfl

theorem Reachable.valid [Inhabited T] (h : Reachable k works s) (hk : 0 < k) :
    s.Valid k works :=
  Run.Reach.invariant (I := Valid k works) h valid_start fun s a hs _ => by
    cases a with
    | feed i weak =>
      cases ht : s.todo i with
      | nil => exact hs.retire ht weak
      | cons v vs => exact hs.push hk ht weak
    | drain => exact hs.drain

/-- In every interleaving, what the consuming thread has when it stops is every value of every
producer once, those of one producer in the order it pushed them. -/
theorem reachable_joined [Inhabited T] (hk : 0 < k) (h : Reachable k works s)
    (hj : s.drainer = .joined) :
    ∃ tagged : List (ι × T), s.seen = tagged.map Prod.snd ∧
      ∀ i, (tagged.filter fun c => c.1 = i).map Prod.snd = works i := by
  have hv := h.valid hk
  have hknows := hv.knows
  simp only [Knows, hj] at hknows
  obtain ⟨hr, hlen⟩ := hknows
  refine ⟨s.ring.claims, ?_, fun i => ?_⟩
  · rw [hv.seen]
    exact hv.ring.inOrder.eq_of_length (by rw [List.length_map, hlen])
  · rw [hv.ring.sent i]
    exact (hv.finished hr i).2.symm

/-- Two producers and the consumer, which finds the ring empty while an item is on its way. -/
def hurried : List (Action Bool) :=
  List.replicate 4 (.feed false false) ++ List.replicate 3 .drain ++
    List.replicate 2 (.feed false false) ++ List.replicate 6 (.feed true false) ++
    List.replicate 24 .drain

theorem reachable_joined_hurried :
    ∃ tagged : List (Bool × Nat),
      (hurried.foldl (step 1) (start fun b => if b then [7] else [5])).seen =
        tagged.map Prod.snd ∧
      ∀ i, (tagged.filter fun c => c.1 = i).map Prod.snd = if i then [7] else [5] :=
  reachable_joined (by decide) (Run.Reach.foldl Run.Reach.init (by decide)) (by decide)

end Drain

end MpscRing

end Lob
