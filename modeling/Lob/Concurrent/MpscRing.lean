import Mathlib.Logic.Function.Basic
import Lob.Core.Ring
import Lob.Core.Run

/-!
# The many-producer ring

`MpscRing` with any number of producers and its consumer, one atomic access at
a time. Positions do not wrap. The claimed and the popped values are history:
no step reads them.
-/

namespace Lob

namespace MpscRing

/-- Where a producer is in `try_push`. -/
inductive Producer (T : Type) where
  | idle
  /-- The slot was ahead of the position; `enqueue_pos_` is loaded again. -/
  | reloading (v : T)
  /-- `enqueue_pos_` was `pos`, and `slot.seq` is loaded next. -/
  | checking (v : T) (pos : Nat)
  /-- The compare-and-swap of `enqueue_pos_` is next. -/
  | claiming (v : T) (pos : Nat)
  /-- `slot.data` is about to be written. -/
  | writing (v : T) (pos : Nat)
  /-- `slot.seq` is about to be stored. -/
  | publishing (v : T) (pos : Nat)
  deriving DecidableEq, Repr

/-- Where the consumer is in `try_pop`. -/
inductive Consumer (T : Type) where
  | idle
  /-- `dequeue_pos_` has been loaded, and `slot.seq` is loaded next. -/
  | checking (pos : Nat)
  /-- `slot.data` is about to be read. -/
  | reading (pos : Nat)
  /-- `slot.seq` is about to be stored. -/
  | releasing (pos : Nat) (out : T)
  /-- `dequeue_pos_` is about to be stored. -/
  | advancing (pos : Nat) (out : T)
  deriving DecidableEq, Repr

/-- The position a producer has claimed and not yet published. -/
def Producer.claimed {T : Type} : Producer T → Option Nat
  | .writing _ pos | .publishing _ pos => some pos
  | _ => none

/-- The argument of the `try_push` that is under way. -/
def Producer.value {T : Type} : Producer T → Option T
  | .idle => none
  | .reloading v | .checking v _ | .claiming v _ | .writing v _ | .publishing v _ => some v

end MpscRing

open Ring (Outcome)

/-- `class MpscRing`, with the state of its threads and what they have done. -/
structure MpscRing (ι T : Type) where
  seq : Nat → Nat
  data : Nat → T
  enqueuePos : Nat
  dequeuePos : Nat
  producers : ι → MpscRing.Producer T
  consumer : MpscRing.Consumer T
  /-- Producers and values of the successful compare-and-swaps, by claimed position. -/
  claims : List (ι × T)
  /-- The values each producer has claimed a position for, in program order. -/
  sent : ι → List T
  /-- The values of the completed pops, in order. -/
  popped : List T

namespace MpscRing

variable {ι T : Type}

/-- `pos & kMask`. -/
def slot (k pos : Nat) : Nat := pos &&& (2 ^ k - 1)

/-- The constructor numbers the slots. -/
def new [Inhabited T] : MpscRing ι T :=
  { seq := id, data := fun _ => default, enqueuePos := 0, dequeuePos := 0
    producers := fun _ => .idle, consumer := .idle, claims := [], sent := fun _ => []
    popped := [] }

variable [DecidableEq ι]

def setProducer (s : MpscRing ι T) (i : ι) (p : Producer T) : MpscRing ι T :=
  { s with producers := Function.update s.producers i p }

/-- The next atomic step of producer `i`; an idle one calls `try_push` with `v`. With `weak` a
compare-and-swap that could succeed fails. -/
def pushStep (k : Nat) (s : MpscRing ι T) (i : ι) (v : T) (weak : Bool) :
    Outcome T × MpscRing ι T :=
  match s.producers i with
  | .idle => (.running, s.setProducer i (.checking v s.enqueuePos))
  | .reloading v => (.running, s.setProducer i (.checking v s.enqueuePos))
  | .checking v pos =>
    if s.seq (slot k pos) = pos then (.running, s.setProducer i (.claiming v pos))
    else if s.seq (slot k pos) < pos then (.refused, s.setProducer i .idle)
    else (.running, s.setProducer i (.reloading v))
  | .claiming v pos =>
    if s.enqueuePos = pos ∧ weak = false then
      (.running, { s.setProducer i (.writing v pos) with
        enqueuePos := pos + 1
        claims := s.claims ++ [(i, v)]
        sent := Function.update s.sent i (s.sent i ++ [v]) })
    else (.running, s.setProducer i (.checking v s.enqueuePos))
  | .writing v pos =>
    (.running, { s.setProducer i (.publishing v pos) with
      data := Function.update s.data (slot k pos) v })
  | .publishing v pos =>
    (.done v, { s.setProducer i .idle with seq := Function.update s.seq (slot k pos) (pos + 1) })

omit [DecidableEq ι] in
/-- The next atomic step of the consumer; an idle one calls `try_pop`. -/
def popStep (k : Nat) (s : MpscRing ι T) : Outcome T × MpscRing ι T :=
  match s.consumer with
  | .idle => (.running, { s with consumer := .checking s.dequeuePos })
  | .checking pos =>
    if s.seq (slot k pos) < pos + 1 then (.refused, { s with consumer := .idle })
    else (.running, { s with consumer := .reading pos })
  | .reading pos => (.running, { s with consumer := .releasing pos (s.data (slot k pos)) })
  | .releasing pos out =>
    (.running, { s with
      seq := Function.update s.seq (slot k pos) (pos + 2 ^ k)
      consumer := .advancing pos out })
  | .advancing pos out =>
    (.done out, { s with
      dequeuePos := pos + 1, consumer := .idle, popped := s.popped ++ [out] })

/-- One of the threads takes a step. -/
inductive Action (ι T : Type) where
  | push (i : ι) (v : T) (weak : Bool)
  | pop
  deriving DecidableEq, Repr

/-- The ring after a step. -/
def step (k : Nat) (s : MpscRing ι T) : Action ι T → MpscRing ι T
  | .push i v weak => (s.pushStep k i v weak).2
  | .pop => (s.popStep k).2

/-- The states of any interleaving of the producers and the consumer. -/
def Reachable [Inhabited T] (k : Nat) : MpscRing ι T → Prop :=
  Run.Reach (step k) (fun _ _ => True) new

/-- The number of positions the consumer has released. -/
def released (s : MpscRing ι T) : Nat :=
  match s.consumer with
  | .advancing pos _ => pos + 1
  | _ => s.dequeuePos

/-- The slot of position `q` holds a published item that has not been released. -/
def Undelivered (s : MpscRing ι T) (q : Nat) : Prop :=
  s.released ≤ q ∧ q < s.claims.length ∧ ∀ i, (s.producers i).claimed ≠ some q

/-- What the ring promises in one state of a run. -/
structure Delivers (k : Nat) (s : MpscRing ι T) : Prop where
  /-- The popped values are those of the first claims. -/
  inOrder : s.popped <+: s.claims.map Prod.snd
  /-- The claims of a producer are the values it sent, and its items come out in that order. -/
  sent : ∀ i, (s.claims.filter fun c => c.1 = i).map Prod.snd = s.sent i ∧
    ((s.claims.take s.popped.length).filter fun c => c.1 = i).map Prod.snd <+: s.sent i
  /-- The slot being written holds no undelivered item. -/
  unwritten : ∀ i v pos, s.producers i = .writing v pos → ∀ q, s.Undelivered q →
    slot k q ≠ slot k pos
  /-- The slot being written is not being read. -/
  apart : ∀ i v pos, s.producers i = .writing v pos → ∀ q, s.consumer = .reading q →
    slot k q ≠ slot k pos
  /-- No two producers write the same slot. -/
  alone : ∀ i v pos, s.producers i = .writing v pos → ∀ j w q, s.producers j = .writing w q →
    slot k q = slot k pos → j = i
  /-- A push is refused only at its load of `slot.seq`, and only when every slot is claimed and not
  released. -/
  full : ∀ i v weak, (s.pushStep k i v weak).1 = .refused → s.claims.length - s.released = 2 ^ k
  /-- A push that is under way keeps the argument of its call. -/
  keeps : ∀ i v weak, (s.pushStep k i v weak).1 = .running →
    ((s.pushStep k i v weak).2.producers i).value = some ((s.producers i).value.getD v)
  /-- A push returns true when it has published its argument at a position it has claimed. -/
  accepts : ∀ i v weak w, (s.pushStep k i v weak).1 = .done w → (s.producers i).value = some w ∧
    ∃ pos, s.claims[pos]? = some (i, w) ∧ (s.pushStep k i v weak).2.Undelivered pos
  /-- The popped values are those that pops return true with, and no others. -/
  returns : (s.popStep k).2.popped = s.popped ++ (s.popStep k).1.values

/-- What a producer knows of the position it works on. -/
def Pushing (k : Nat) (s : MpscRing ι T) (i : ι) : Prop :=
  match s.producers i with
  | .idle | .reloading _ => True
  | .checking _ pos => pos ≤ s.claims.length
  | .claiming _ pos => pos ≤ s.claims.length ∧ pos < s.released + 2 ^ k
  | .writing v pos =>
    s.released ≤ pos ∧ s.claims[pos]? = some (i, v) ∧ s.seq (slot k pos) = pos
  | .publishing v pos =>
    s.released ≤ pos ∧ s.claims[pos]? = some (i, v) ∧ s.seq (slot k pos) = pos ∧
      s.data (slot k pos) = v

/-- What the consumer knows of the position it works on. -/
def Popping (s : MpscRing ι T) : Prop :=
  match s.consumer with
  | .idle => True
  | .checking pos => pos = s.dequeuePos
  | .reading pos => pos = s.dequeuePos ∧ s.Undelivered pos
  | .releasing pos out =>
    pos = s.dequeuePos ∧ s.Undelivered pos ∧ s.claims[pos]?.map Prod.snd = some out
  | .advancing pos out => pos = s.dequeuePos ∧ s.claims[pos]?.map Prod.snd = some out

/-- The invariant of the ring: the sequence number of a slot tells the phase of the position it
stands for. -/
structure Valid (k : Nat) (s : MpscRing ι T) : Prop where
  enqueued : s.enqueuePos = s.claims.length
  dequeued : s.dequeuePos = s.popped.length
  inOrder : s.popped <+: s.claims.map Prod.snd
  sent : ∀ i, (s.claims.filter fun c => c.1 = i).map Prod.snd = s.sent i
  released : s.released ≤ s.claims.length
  room : s.claims.length ≤ s.released + 2 ^ k
  /-- A published position that has not been released. -/
  published : ∀ q, s.Undelivered q →
    s.seq (slot k q) = q + 1 ∧ s.claims[q]?.map Prod.snd = some (s.data (slot k q))
  /-- A position that has not been claimed. -/
  unclaimed : ∀ q, s.claims.length ≤ q → q < s.released + 2 ^ k → s.seq (slot k q) = q
  pushing : ∀ i, s.Pushing k i
  popping : s.Popping

variable {k : Nat} {s s' : MpscRing ι T} {i : ι}

theorem slot_eq (k pos : Nat) : slot k pos = pos % 2 ^ k := Nat.and_two_pow_sub_one_eq_mod pos k

theorem slot_inj {p q : Nat} (h : slot k p = slot k q) (hp : p < q + 2 ^ k)
    (hq : q < p + 2 ^ k) : p = q := by
  rw [slot_eq, slot_eq] at h
  exact Ring.pos_unique h hp hq

/-- A step of a push is under way and keeps its argument, is refused behind a load of `slot.seq`,
or returns true after the store of `slot.seq`. -/
theorem pushStep_cases (s : MpscRing ι T) (i : ι) (v : T) (weak : Bool) :
    ((s.pushStep k i v weak).1 = .running ∧
      ((s.pushStep k i v weak).2.producers i).value = some ((s.producers i).value.getD v)) ∨
    ((s.pushStep k i v weak).1 = .refused ∧
      ∃ w pos, s.producers i = .checking w pos ∧ s.seq (slot k pos) < pos) ∨
    (∃ w pos, s.producers i = .publishing w pos ∧ s.pushStep k i v weak = (.done w,
      { s.setProducer i .idle with seq := Function.update s.seq (slot k pos) (pos + 1) })) := by
  have hself (p : Producer T) : (s.setProducer i p).producers i = p := Function.update_self ..
  unfold pushStep
  cases hp : s.producers i with
  | idle | reloading w => exact Or.inl ⟨rfl, congrArg Producer.value (hself _)⟩
  | checking w pos =>
    dsimp only
    split
    · exact Or.inl ⟨rfl, congrArg Producer.value (hself _)⟩
    · split
      · next hlt => exact Or.inr (Or.inl ⟨rfl, w, pos, rfl, hlt⟩)
      · exact Or.inl ⟨rfl, congrArg Producer.value (hself _)⟩
  | claiming w pos =>
    dsimp only
    split
    · exact Or.inl ⟨rfl, congrArg Producer.value (hself _)⟩
    · exact Or.inl ⟨rfl, congrArg Producer.value (hself _)⟩
  | writing w pos => exact Or.inl ⟨rfl, congrArg Producer.value (hself _)⟩
  | publishing w pos => exact Or.inr (Or.inr ⟨w, pos, rfl, rfl⟩)

omit [DecidableEq ι] in
/-- The popped values grow by what a pop returns. -/
theorem popped_popStep (s : MpscRing ι T) :
    (s.popStep k).2.popped = s.popped ++ (s.popStep k).1.values := by
  have hnil : s.popped = s.popped ++ [] := (List.append_nil _).symm
  unfold popStep
  cases s.consumer with
  | idle | reading pos | releasing pos out => exact hnil
  | checking pos =>
    dsimp only
    split
    · exact hnil
    · exact hnil
  | advancing pos out => rfl

omit [DecidableEq ι] in
/-- A producer past its claim works on a claimed position that is not released. -/
theorem Pushing.claimed {q : Nat} (h : s.Pushing k i) (hq : (s.producers i).claimed = some q) :
    s.released ≤ q ∧ q < s.claims.length ∧ s.claims[q]?.map Prod.fst = some i ∧
      s.seq (slot k q) = q := by
  unfold Pushing at h
  cases hp : s.producers i with
  | idle | reloading | checking | claiming =>
    rw [hp] at hq
    contradiction
  | writing v pos =>
    rw [hp] at hq
    obtain rfl := Option.some.inj hq
    simp only [hp] at h
    obtain ⟨hlo, hc, hseq⟩ := h
    exact ⟨hlo, (List.getElem?_eq_some_iff.mp hc).1, by rw [hc]; rfl, hseq⟩
  | publishing v pos =>
    rw [hp] at hq
    obtain rfl := Option.some.inj hq
    simp only [hp] at h
    obtain ⟨hlo, hc, hseq, _⟩ := h
    exact ⟨hlo, (List.getElem?_eq_some_iff.mp hc).1, by rw [hc]; rfl, hseq⟩

omit [DecidableEq ι] in
/-- What a producer knows survives steps of the others that keep the slot it has claimed. -/
theorem Pushing.frame (h : s.Pushing k i) (hp : s'.producers i = s.producers i)
    (hclaims : s.claims <+: s'.claims) (hle : s.released ≤ s'.released)
    (hcells : ∀ q, (s.producers i).claimed = some q → s'.released ≤ q ∧
      s'.seq (slot k q) = s.seq (slot k q) ∧ s'.data (slot k q) = s.data (slot k q)) :
    s'.Pushing k i := by
  obtain ⟨cs, hcs⟩ := hclaims
  have hlen : s.claims.length ≤ s'.claims.length := by
    rw [← hcs, List.length_append]
    omega
  have hget {q : Nat} {c : ι × T} (hc : s.claims[q]? = some c) : s'.claims[q]? = some c := by
    rw [← hcs, List.getElem?_append_left (List.getElem?_eq_some_iff.mp hc).1, hc]
  unfold Pushing at h ⊢
  rw [hp]
  cases hs : s.producers i with
  | idle | reloading => trivial
  | checking v pos =>
    simp only [hs] at h ⊢
    exact Nat.le_trans h hlen
  | claiming v pos =>
    simp only [hs] at h ⊢
    omega
  | writing v pos =>
    simp only [hs] at h ⊢
    obtain ⟨hlo, hseq, _⟩ := hcells pos (by rw [hs]; rfl)
    exact ⟨hlo, hget h.2.1, hseq.trans h.2.2⟩
  | publishing v pos =>
    simp only [hs] at h ⊢
    obtain ⟨hlo, hseq, hdata⟩ := hcells pos (by rw [hs]; rfl)
    exact ⟨hlo, hget h.2.1, hseq.trans h.2.2.1, hdata.trans h.2.2.2⟩

/-- The sequence number of an unreleased position tells whether it is published. -/
theorem Valid.seq_cases (h : s.Valid k) {q : Nat} (hlo : s.released ≤ q)
    (hhi : q < s.released + 2 ^ k) :
    s.seq (slot k q) = q ∨ s.seq (slot k q) = q + 1 ∧ s.Undelivered q := by
  rcases Nat.lt_or_ge q s.claims.length with hq | hq
  · by_cases hclaimed : ∃ i, (s.producers i).claimed = some q
    · obtain ⟨i, hi⟩ := hclaimed
      exact Or.inl ((h.pushing i).claimed hi).2.2.2
    · have hund : s.Undelivered q := ⟨hlo, hq, fun i hi => hclaimed ⟨i, hi⟩⟩
      exact Or.inr ⟨(h.published q hund).1, hund⟩
  · exact Or.inl (h.unclaimed q hq hhi)

/-- Two producers never work on the same position. -/
theorem Valid.claimed_unique (h : s.Valid k) {j : ι} {q : Nat}
    (hi : (s.producers i).claimed = some q) (hj : (s.producers j).claimed = some q) : i = j := by
  have hci := ((h.pushing i).claimed hi).2.2.1
  rw [((h.pushing j).claimed hj).2.2.1] at hci
  exact (Option.some.inj hci).symm

/-- Unreleased positions have slots of their own. -/
theorem Valid.slot_ne (h : s.Valid k) {p q : Nat} (hp : s.released ≤ p)
    (hp' : p < s.claims.length) (hq : s.released ≤ q) (hq' : q < s.claims.length) (hne : p ≠ q) :
    slot k p ≠ slot k q := by
  have hroom := h.room
  exact fun he => hne (slot_inj he (by omega) (by omega))

/-- Two producers never work on the same slot. -/
theorem Valid.slot_claimed_ne (h : s.Valid k) {j : ι} {p q : Nat} (hji : j ≠ i)
    (hq : (s.producers j).claimed = some q) (hp : (s.producers i).claimed = some p) :
    slot k q ≠ slot k p := by
  obtain ⟨hlo, hhi, _⟩ := (h.pushing i).claimed hp
  obtain ⟨hlo', hhi', _⟩ := (h.pushing j).claimed hq
  have hne : q ≠ p := by
    rintro rfl
    exact hji (h.claimed_unique hq hp)
  exact h.slot_ne hlo' hhi' hlo hhi hne

/-- A load of `seq` that equals the position finds its slot free in this lap. -/
theorem Valid.free_of_seq (h : s.Valid k) (hk : 0 < k) {pos : Nat}
    (hseq : s.seq (slot k pos) = pos) :
    pos < s.released + 2 ^ k := by
  have htwo : 2 ≤ 2 ^ k := Nat.le_self_pow (by omega) 2
  obtain ⟨q, hlo, hhi, hq⟩ := Ring.exists_pos (Nat.two_pow_pos k) s.released pos
  have hslot : slot k q = slot k pos := by rw [slot_eq, slot_eq, hq]
  rcases h.seq_cases hlo hhi with hs | ⟨hs, _⟩
  · rw [hslot, hseq] at hs
    omega
  · rw [hslot, hseq] at hs
    have he := slot_inj hslot (by omega) (by omega)
    omega

/-- A load of `seq` behind the position finds every slot claimed and not released. -/
theorem Valid.full_of_seq (h : s.Valid k) {pos : Nat} (hpos : pos ≤ s.claims.length)
    (hseq : s.seq (slot k pos) < pos) : s.claims.length - s.released = 2 ^ k := by
  have hroom := h.room
  obtain ⟨q, hlo, hhi, hq⟩ := Ring.exists_pos (Nat.two_pow_pos k) s.released pos
  have hslot : slot k q = slot k pos := by rw [slot_eq, slot_eq, hq]
  have hlt : q < pos := by
    rcases h.seq_cases hlo hhi with hs | ⟨hs, _⟩ <;> rw [hslot] at hs <;> omega
  have hlap : q + 2 ^ k ≤ pos := by
    by_contra hnear
    have he := slot_inj hslot (by omega) (by omega)
    omega
  omega

/-- The invariant gives what the ring promises. -/
theorem Valid.delivers (h : s.Valid k) : s.Delivers k where
  inOrder := h.inOrder
  sent i := by
    have hs := h.sent i
    refine ⟨hs, ?_⟩
    rw [← hs]
    exact ((List.take_prefix _ s.claims).filter fun c => c.1 = i).map Prod.snd
  unwritten i v pos hp q hq := by
    have hi : (s.producers i).claimed = some pos := by rw [hp]; rfl
    obtain ⟨hlo, hhi, _⟩ := (h.pushing i).claimed hi
    refine h.slot_ne hq.1 hq.2.1 hlo hhi ?_
    rintro rfl
    exact hq.2.2 i hi
  apart i v pos hp q hc := by
    have hi : (s.producers i).claimed = some pos := by rw [hp]; rfl
    obtain ⟨hlo, hhi, _⟩ := (h.pushing i).claimed hi
    have hpop := h.popping
    simp only [Popping, hc] at hpop
    refine h.slot_ne hpop.2.1 hpop.2.2.1 hlo hhi ?_
    rintro rfl
    exact hpop.2.2.2 i hi
  alone i v pos hp j w q hq hslot := by
    have hi : (s.producers i).claimed = some pos := by rw [hp]; rfl
    have hj : (s.producers j).claimed = some q := by rw [hq]; rfl
    obtain ⟨hlo, hhi, _⟩ := (h.pushing i).claimed hi
    obtain ⟨hlo', hhi', _⟩ := (h.pushing j).claimed hj
    by_contra hne
    refine h.slot_ne hlo' hhi' hlo hhi ?_ hslot
    rintro rfl
    exact hne (h.claimed_unique hj hi)
  full i v weak hr := by
    rcases pushStep_cases (k := k) s i v weak with
      ⟨hrun, _⟩ | ⟨_, w, pos, hp, hseq⟩ | ⟨w, pos, _, he⟩
    · rw [hrun] at hr
      contradiction
    · have hpush := h.pushing i
      simp only [Pushing, hp] at hpush
      exact h.full_of_seq hpush hseq
    · rw [he] at hr
      contradiction
  keeps i v weak hr := by
    rcases pushStep_cases (k := k) s i v weak with ⟨_, hvalue⟩ | ⟨href, _⟩ | ⟨w, pos, _, he⟩
    · exact hvalue
    · rw [href] at hr
      contradiction
    · rw [he] at hr
      contradiction
  accepts i v weak w hr := by
    rcases pushStep_cases (k := k) s i v weak with ⟨hrun, _⟩ | ⟨href, _⟩ | ⟨w', pos, hp, he⟩
    · rw [hrun] at hr
      contradiction
    · rw [href] at hr
      contradiction
    · rw [he] at hr ⊢
      obtain rfl := Outcome.done.inj hr
      have hi : (s.producers i).claimed = some pos := by rw [hp]; rfl
      have hpush := h.pushing i
      simp only [Pushing, hp] at hpush
      obtain ⟨hlo, hclaim, _⟩ := hpush
      refine ⟨by rw [hp]; rfl, pos, hclaim, hlo, (List.getElem?_eq_some_iff.mp hclaim).1, ?_⟩
      intro j hj
      by_cases hji : j = i
      · subst hji
        simp [setProducer, Producer.claimed] at hj
      · simp only [setProducer, Function.update_of_ne hji] at hj
        exact hji (h.claimed_unique hj hi)
  returns := popped_popStep s

omit [DecidableEq ι] in
/-- What the consumer knows survives steps that publish nothing back and keep what is claimed. -/
theorem Popping.frame (h : s.Popping) (hc : s'.consumer = s.consumer)
    (hd : s'.dequeuePos = s.dequeuePos) (hclaims : s.claims <+: s'.claims)
    (hp : ∀ i q, (s'.producers i).claimed = some q →
      (s.producers i).claimed = some q ∨ s.claims.length ≤ q) : s'.Popping := by
  obtain ⟨cs, hcs⟩ := hclaims
  have hrel : s'.released = s.released := by
    unfold released
    rw [hc, hd]
  have hund {q : Nat} (hq : s.Undelivered q) : s'.Undelivered q := by
    obtain ⟨hlo, hhi, hnone⟩ := hq
    refine ⟨hrel ▸ hlo, by rw [← hcs, List.length_append]; omega, fun i hi => ?_⟩
    rcases hp i q hi with hq | hq
    · exact hnone i hq
    · omega
  have hget {q : Nat} {v : T} (hv : s.claims[q]?.map Prod.snd = some v) :
      s'.claims[q]?.map Prod.snd = some v := by
    obtain ⟨c, hc, _⟩ := Option.map_eq_some_iff.mp hv
    rw [← hcs, List.getElem?_append_left (List.getElem?_eq_some_iff.mp hc).1, hv]
  unfold Popping at h ⊢
  rw [hc, hd]
  cases hs : s.consumer with
  | idle => trivial
  | checking pos => simpa only [hs] using h
  | reading pos =>
    simp only [hs] at h ⊢
    exact ⟨h.1, hund h.2⟩
  | releasing pos out =>
    simp only [hs] at h ⊢
    exact ⟨h.1, hund h.2.1, hget h.2.2⟩
  | advancing pos out =>
    simp only [hs] at h ⊢
    exact ⟨h.1, hget h.2⟩

/-- A producer that claims nothing turns to another step. -/
theorem Valid.retarget (h : s.Valid k) {p : Producer T} (hold : (s.producers i).claimed = none)
    (hnew : p.claimed = none) (hp : (s.setProducer i p).Pushing k i) :
    (s.setProducer i p).Valid k := by
  have hclaimed (j : ι) : ((s.setProducer i p).producers j).claimed =
      (s.producers j).claimed := by
    by_cases hj : j = i
    · subst hj
      simp only [setProducer, Function.update_self, hold, hnew]
    · simp only [setProducer, Function.update_of_ne hj]
  have hund {q : Nat} (hq : (s.setProducer i p).Undelivered q) : s.Undelivered q :=
    ⟨hq.1, hq.2.1, fun j hj => hq.2.2 j ((hclaimed j).trans hj)⟩
  refine { h with published := fun q hq => h.published q (hund hq), pushing := fun j => ?_
                  popping := h.popping.frame rfl rfl List.prefix_rfl fun j q hq => ?_ }
  · by_cases hj : j = i
    · subst hj
      exact hp
    · refine (h.pushing j).frame (Function.update_of_ne hj ..) List.prefix_rfl (Nat.le_refl _) ?_
      exact fun q hq => ⟨((h.pushing j).claimed hq).1, rfl, rfl⟩
  · exact Or.inl ((hclaimed j).symm.trans hq)

/-- The compare-and-swap that succeeds. -/
theorem Valid.claim (h : s.Valid k) {v : T} {pos : Nat} (hs : s.producers i = .claiming v pos)
    (hpos : s.enqueuePos = pos) :
    ({ s.setProducer i (.writing v pos) with
        enqueuePos := pos + 1
        claims := s.claims ++ [(i, v)]
        sent := Function.update s.sent i (s.sent i ++ [v]) } : MpscRing ι T).Valid k := by
  have hpush := h.pushing i
  simp only [Pushing, hs] at hpush
  obtain ⟨_, hfree⟩ := hpush
  have hlast : pos = s.claims.length := hpos.symm.trans h.enqueued
  have hold : (s.producers i).claimed = none := by rw [hs]; rfl
  have hlen : (s.claims ++ [(i, v)]).length = s.claims.length + 1 := by simp
  constructor
  · dsimp only
    omega
  · exact h.dequeued
  · dsimp only
    rw [List.map_append]
    exact h.inOrder.trans (List.prefix_append _ _)
  · intro j
    have hj := h.sent j
    dsimp only
    rw [List.filter_append, List.map_append, hj]
    by_cases hji : j = i
    · subst hji
      simp
    · simp [Function.update_of_ne hji, Ne.symm hji]
  · exact Nat.le_trans h.released (by rw [hlen]; omega)
  · change (s.claims ++ [(i, v)]).length ≤ s.released + 2 ^ k
    omega
  · intro q hq
    obtain ⟨hlo, hhi, hnone⟩ := hq
    have hne : q ≠ pos := by
      rintro rfl
      refine hnone i ?_
      simp only [setProducer, Function.update_self]
      rfl
    have hq' : q < s.claims.length := by
      have hlt : q < (s.claims ++ [(i, v)]).length := hhi
      omega
    have hund : s.Undelivered q := by
      refine ⟨hlo, hq', fun j hj => hnone j ?_⟩
      have hji : j ≠ i := by
        rintro rfl
        rw [hold] at hj
        contradiction
      simp only [setProducer, Function.update_of_ne hji]
      exact hj
    dsimp only
    rw [List.getElem?_append_left hq']
    exact h.published q hund
  · intro q hlo hhi
    have hge : (s.claims ++ [(i, v)]).length ≤ q := hlo
    exact h.unclaimed q (by omega) hhi
  · intro j
    by_cases hj : j = i
    · subst hj
      simp only [Pushing, setProducer, Function.update_self]
      refine ⟨?_, by rw [hlast, List.getElem?_concat_length], ?_⟩
      · exact Nat.le_trans h.released (Nat.le_of_eq hlast.symm)
      · exact h.unclaimed pos (Nat.le_of_eq hlast.symm) hfree
    · refine (h.pushing j).frame (Function.update_of_ne hj ..) (List.prefix_append _ _)
        (Nat.le_refl _) ?_
      exact fun q hq => ⟨((h.pushing j).claimed hq).1, rfl, rfl⟩
  · refine h.popping.frame rfl rfl (List.prefix_append _ _) fun j q hq => ?_
    by_cases hj : j = i
    · subst hj
      simp only [setProducer, Function.update_self, Producer.claimed, Option.some.injEq] at hq
      exact Or.inr (by omega)
    · simp only [setProducer, Function.update_of_ne hj] at hq
      exact Or.inl hq

/-- The write of a claimed slot. -/
theorem Valid.write (h : s.Valid k) {v : T} {pos : Nat} (hs : s.producers i = .writing v pos) :
    ({ s.setProducer i (.publishing v pos) with
        data := Function.update s.data (slot k pos) v } : MpscRing ι T).Valid k := by
  have hi : (s.producers i).claimed = some pos := by rw [hs]; rfl
  obtain ⟨hlo, hhi, _⟩ := (h.pushing i).claimed hi
  have hpush := h.pushing i
  simp only [Pushing, hs] at hpush
  have hclaimed (j : ι) : ((s.setProducer i (.publishing v pos)).producers j).claimed =
      (s.producers j).claimed := by
    by_cases hj : j = i
    · subst hj
      simp only [setProducer, Function.update_self, hi]
      rfl
    · simp only [setProducer, Function.update_of_ne hj]
  refine { h with published := fun q hq => ?_, pushing := fun j => ?_
                  popping := h.popping.frame rfl rfl List.prefix_rfl fun j q hq => ?_ }
  · have hund : s.Undelivered q := ⟨hq.1, hq.2.1, fun j hj => hq.2.2 j ((hclaimed j).trans hj)⟩
    have hne : q ≠ pos := by
      rintro rfl
      exact hund.2.2 i hi
    dsimp only
    rw [Function.update_of_ne (h.slot_ne hund.1 hund.2.1 hlo hhi hne)]
    exact h.published q hund
  · by_cases hj : j = i
    · subst hj
      simp only [Pushing, setProducer, Function.update_self]
      exact ⟨hpush.1, hpush.2.1, hpush.2.2, trivial⟩
    · refine (h.pushing j).frame (Function.update_of_ne hj ..) List.prefix_rfl (Nat.le_refl _) ?_
      intro q hq
      obtain ⟨hlo', _⟩ := (h.pushing j).claimed hq
      exact ⟨hlo', rfl, Function.update_of_ne (h.slot_claimed_ne hj hq hi) ..⟩
  · exact Or.inl ((hclaimed j).symm.trans hq)

/-- The store of `seq` that publishes a claimed slot. -/
theorem Valid.publish (h : s.Valid k) {v : T} {pos : Nat}
    (hs : s.producers i = .publishing v pos) :
    ({ s.setProducer i .idle with
        seq := Function.update s.seq (slot k pos) (pos + 1) } : MpscRing ι T).Valid k := by
  have hi : (s.producers i).claimed = some pos := by rw [hs]; rfl
  obtain ⟨hlo, hhi, _⟩ := (h.pushing i).claimed hi
  have hpush := h.pushing i
  simp only [Pushing, hs] at hpush
  have hother {j : ι} (hj : j ≠ i) : (s.setProducer i .idle).producers j = s.producers j :=
    Function.update_of_ne hj ..
  have hroom := h.room
  refine { h with published := fun q hq => ?_, unclaimed := fun q hq hq' => ?_
                  pushing := fun j => ?_
                  popping := h.popping.frame rfl rfl List.prefix_rfl fun j q hq => ?_ }
  · by_cases hqp : q = pos
    · subst hqp
      dsimp only
      refine ⟨Function.update_self .., ?_⟩
      change s.claims[q]?.map Prod.snd = some (s.data (slot k q))
      rw [hpush.2.1, hpush.2.2.2]
      rfl
    · have hund : s.Undelivered q := by
        refine ⟨hq.1, hq.2.1, fun j hj => ?_⟩
        by_cases hji : j = i
        · subst hji
          rw [hi] at hj
          exact hqp (Option.some.inj hj).symm
        · exact hq.2.2 j ((congrArg Producer.claimed (hother hji)).trans hj)
      dsimp only
      rw [Function.update_of_ne (h.slot_ne hund.1 hund.2.1 hlo hhi hqp)]
      exact h.published q hund
  · have hge : s.claims.length ≤ q := hq
    have hlt : q < s.released + 2 ^ k := hq'
    have hne : slot k q ≠ slot k pos := by
      intro he
      have hqp := slot_inj he (by omega) (by omega)
      omega
    dsimp only
    rw [Function.update_of_ne hne]
    exact h.unclaimed q hge hlt
  · by_cases hj : j = i
    · subst hj
      simp only [Pushing, setProducer, Function.update_self]
    · refine (h.pushing j).frame (hother hj) List.prefix_rfl (Nat.le_refl _) ?_
      intro q hq
      obtain ⟨hlo', _⟩ := (h.pushing j).claimed hq
      exact ⟨hlo', Function.update_of_ne (h.slot_claimed_ne hj hq hi) .., rfl⟩
  · by_cases hj : j = i
    · subst hj
      simp only [setProducer, Function.update_self] at hq
      contradiction
    · exact Or.inl ((congrArg Producer.claimed (hother hj)).symm.trans hq)

/-- Every step of a producer keeps the invariant. -/
theorem Valid.push (h : s.Valid k) (hk : 0 < k) (i : ι) (v : T) (weak : Bool) :
    (s.pushStep k i v weak).2.Valid k := by
  have hpush := h.pushing i
  have hload (w : T) (hold : (s.producers i).claimed = none) :
      (s.setProducer i (.checking w s.enqueuePos)).Valid k := by
    refine h.retarget hold rfl ?_
    simp only [Pushing, setProducer, Function.update_self]
    exact Nat.le_of_eq h.enqueued
  unfold pushStep
  unfold Pushing at hpush
  cases hs : s.producers i with
  | idle => exact hload v (by rw [hs]; rfl)
  | reloading w => exact hload w (by rw [hs]; rfl)
  | checking w pos =>
    simp only [hs] at hpush ⊢
    have hold : (s.producers i).claimed = none := by rw [hs]; rfl
    split
    · next hseq =>
      refine h.retarget hold rfl ?_
      simp only [Pushing, setProducer, Function.update_self]
      exact ⟨hpush, h.free_of_seq hk hseq⟩
    · split
      · refine h.retarget hold rfl ?_
        simp only [Pushing, setProducer, Function.update_self]
      · refine h.retarget hold rfl ?_
        simp only [Pushing, setProducer, Function.update_self]
  | claiming w pos =>
    simp only
    split
    · next hwin => exact h.claim hs hwin.1
    · exact hload w (by rw [hs]; rfl)
  | writing w pos => exact h.write hs
  | publishing w pos => exact h.publish hs

/-- The store of `seq` that hands a slot to the next lap. -/
theorem Valid.release (h : s.Valid k) {pos : Nat} {out : T}
    (hs : s.consumer = .releasing pos out) :
    ({ s with
        seq := Function.update s.seq (slot k pos) (pos + 2 ^ k)
        consumer := .advancing pos out } : MpscRing ι T).Valid k := by
  have hpop := h.popping
  simp only [Popping, hs] at hpop
  obtain ⟨hpos, ⟨hlo, hhi, hnone⟩, hout⟩ := hpop
  have hrel : s.released = pos := by
    simp only [MpscRing.released, hs, hpos]
  have hroom := h.room
  have hnext : MpscRing.released ({ s with
      seq := Function.update s.seq (slot k pos) (pos + 2 ^ k)
      consumer := .advancing pos out } : MpscRing ι T) = pos + 1 := rfl
  refine { h with
    released := ?_, room := ?_, published := fun q hq => ?_, unclaimed := fun q hq hq' => ?_
    pushing := fun j => ?_, popping := ⟨hpos, hout⟩ }
  · rw [hnext]
    exact hhi
  · rw [hnext]
    dsimp only
    omega
  · obtain ⟨hlo', hhi', hnone'⟩ := hq
    rw [hnext] at hlo'
    have hund : s.Undelivered q := ⟨by omega, hhi', hnone'⟩
    dsimp only
    rw [Function.update_of_ne (h.slot_ne hund.1 hhi' hlo hhi (by omega))]
    exact h.published q hund
  · rw [hnext] at hq'
    have hge : s.claims.length ≤ q := hq
    dsimp only
    by_cases hlap : q = pos + 2 ^ k
    · have hslot : slot k q = slot k pos := by
        rw [slot_eq, slot_eq, hlap, Nat.add_mod_right]
      rw [hslot, Function.update_self, hlap]
    · have hne : slot k q ≠ slot k pos := by
        intro he
        have hqp := slot_inj he (by omega) (by omega)
        omega
      rw [Function.update_of_ne hne]
      exact h.unclaimed q hge (by omega)
  · refine (h.pushing j).frame rfl List.prefix_rfl (by rw [hnext]; omega) fun q hq => ?_
    obtain ⟨hlo', hhi', _⟩ := (h.pushing j).claimed hq
    have hne : q ≠ pos := by
      rintro rfl
      exact hnone j hq
    rw [hnext]
    exact ⟨by omega, Function.update_of_ne (h.slot_ne hlo' hhi' hlo hhi hne) .., rfl⟩

/-- A step of the consumer that changes nothing but where it is. -/
theorem Valid.turn (h : s.Valid k) {c : Consumer T}
    (hrel : ({ s with consumer := c } : MpscRing ι T).released = s.released)
    (hpop : ({ s with consumer := c } : MpscRing ι T).Popping) :
    ({ s with consumer := c } : MpscRing ι T).Valid k := by
  refine { h with
    released := by rw [hrel]; exact h.released
    room := by rw [hrel]; exact h.room
    published := fun q hq => ?_, unclaimed := fun q hq hq' => ?_
    pushing := fun j => ?_, popping := hpop }
  · obtain ⟨hlo, hhi, hnone⟩ := hq
    rw [hrel] at hlo
    exact h.published q ⟨hlo, hhi, hnone⟩
  · rw [hrel] at hq'
    exact h.unclaimed q hq hq'
  · refine (h.pushing j).frame rfl List.prefix_rfl (Nat.le_of_eq hrel.symm) fun q hq => ?_
    rw [hrel]
    exact ⟨((h.pushing j).claimed hq).1, rfl, rfl⟩

/-- Every step of the consumer keeps the invariant. -/
theorem Valid.pop (h : s.Valid k) : (s.popStep k).2.Valid k := by
  have hpop := h.popping
  have hpos : 0 < 2 ^ k := Nat.two_pow_pos k
  unfold popStep
  unfold Popping at hpop
  cases hs : s.consumer with
  | idle => exact h.turn (by simp only [MpscRing.released, hs]) rfl
  | checking pos =>
    simp only [hs] at hpop ⊢
    have hrel : s.released = pos := by simp only [MpscRing.released, hs, hpop]
    split
    · exact h.turn (by simp only [MpscRing.released, hs]) trivial
    · next hseq =>
      refine h.turn (by simp only [MpscRing.released, hs]) ⟨hpop, ?_⟩
      rcases h.seq_cases (Nat.le_of_eq hrel) (by omega) with he | ⟨_, hund⟩
      · omega
      · refine ⟨?_, hund.2.1, hund.2.2⟩
        rw [← hrel]
        simp only [MpscRing.released, hs]
        exact Nat.le_refl _
  | reading pos =>
    simp only [hs] at hpop ⊢
    have hrel : s.released = pos := by simp only [MpscRing.released, hs, hpop.1]
    refine h.turn (by simp only [MpscRing.released, hs]) ⟨hpop.1, ⟨?_, hpop.2.2⟩, ?_⟩
    · simp only [MpscRing.released]
      exact Nat.le_of_eq hpop.1.symm
    · exact (h.published pos hpop.2).2
  | releasing pos out => exact h.release hs
  | advancing pos out =>
    simp only [hs] at hpop ⊢
    obtain ⟨hdeq, hout⟩ := hpop
    have hrel : s.released = pos + 1 := by simp only [MpscRing.released, hs]
    have hlen : (s.popped ++ [out]).length = s.popped.length + 1 := by simp
    have hnext : MpscRing.released ({ s with
        dequeuePos := pos + 1, consumer := .idle, popped := s.popped ++ [out] } :
        MpscRing ι T) = s.released := hrel.symm
    have hlast : pos = s.popped.length := hdeq.trans h.dequeued
    constructor
    · exact h.enqueued
    · dsimp only
      omega
    · obtain ⟨vs, hvs⟩ := h.inOrder
      have hget : (s.claims.map Prod.snd)[pos]? = some out := by rw [List.getElem?_map, hout]
      rw [← hvs, hlast, List.getElem?_append_right (Nat.le_refl _), Nat.sub_self] at hget
      cases vs with
      | nil => contradiction
      | cons w ws =>
        obtain rfl := Option.some.inj hget
        exact ⟨ws, by rw [← hvs, List.append_assoc]; rfl⟩
    · exact h.sent
    · rw [hnext]
      exact h.released
    · rw [hnext]
      exact h.room
    · intro q hq
      obtain ⟨hlo, hhi, hnone⟩ := hq
      rw [hnext] at hlo
      exact h.published q ⟨hlo, hhi, hnone⟩
    · intro q hq hq'
      rw [hnext] at hq'
      exact h.unclaimed q hq hq'
    · intro j
      refine (h.pushing j).frame rfl List.prefix_rfl (Nat.le_of_eq hnext.symm) fun q hq => ?_
      rw [hnext]
      exact ⟨((h.pushing j).claimed hq).1, rfl, rfl⟩
    · trivial

theorem valid_new [Inhabited T] : (new : MpscRing ι T).Valid k where
  enqueued := rfl
  dequeued := rfl
  inOrder := List.prefix_rfl
  sent _ := rfl
  released := Nat.le_refl _
  room := Nat.zero_le _
  published q hq := absurd hq.2.1 (Nat.not_lt_zero q)
  unclaimed q _ hq := by
    have hlt : q < 0 + 2 ^ k := hq
    rw [slot_eq, Nat.mod_eq_of_lt (by omega)]
    rfl
  pushing _ := trivial
  popping := trivial

theorem Reachable.valid [Inhabited T] (h : Reachable k s) (hk : 0 < k) : s.Valid k :=
  Run.Reach.invariant (I := Valid k) h valid_new fun s a hs _ => by
    cases a with
    | push i v weak => exact hs.push hk i v weak
    | pop => exact hs.pop

/-- In every interleaving the ring delivers every claimed item once, in claim order. -/
theorem reachable_delivers [Inhabited T] (hk : 0 < k) (h : Reachable k s) : s.Delivers k :=
  (h.valid hk).delivers

/-- A producer that claims a slot and stalls while another laps it. -/
def stalledRing : MpscRing (Fin 2) Nat :=
  ([.push 0 5 false, .push 1 6 false, .push 0 5 false, .push 0 5 false, .push 1 6 false,
    .push 1 6 true, .push 1 6 false, .push 1 6 false, .push 1 6 false, .push 1 6 false,
    .pop, .pop, .push 0 5 false, .push 0 5 false, .pop, .pop, .pop] :
    List (Action (Fin 2) Nat)).foldl (step 1) new

theorem reachable_delivers_stalled : stalledRing.Delivers 1 :=
  reachable_delivers (by decide) (Run.Reach.foldl Run.Reach.init (by decide))

end MpscRing

end Lob
