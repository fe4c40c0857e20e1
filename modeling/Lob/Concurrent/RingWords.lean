import Lob.Concurrent.MpscRing
import Lob.Core.Simulation

/-!
# The many-producer ring on machine words

`MpscRing` as the source computes it: positions and sequence numbers are words
that wrap at `2 ^ 64`, and a slot is judged by the signed difference of its
sequence number and the position. While no producer sits on a position that
the others leave nearly half a turn behind, the wrapped ring shows what the
ring with unbounded positions shows.
-/

namespace Lob

open Ring (Outcome)

namespace MpscRing

/-- Where a producer is in `try_push`, its position a word. -/
inductive WordProducer (T : Type) where
  | idle
  | reloading (v : T)
  | checking (v : T) (pos : UInt64)
  | claiming (v : T) (pos : UInt64)
  | writing (v : T) (pos : UInt64)
  | publishing (v : T) (pos : UInt64)
  deriving DecidableEq, Repr

/-- Where the consumer is in `try_pop`, its position a word. -/
inductive WordConsumer (T : Type) where
  | idle
  | checking (pos : UInt64)
  | reading (pos : UInt64)
  | releasing (pos : UInt64) (out : T)
  | advancing (pos : UInt64) (out : T)
  deriving DecidableEq, Repr

/-- `class MpscRing` with its `std::size_t` atomics, and the history of `MpscRing`. -/
structure WordRing (ι T : Type) where
  seq : Nat → UInt64
  data : Nat → T
  enqueuePos : UInt64
  dequeuePos : UInt64
  producers : ι → WordProducer T
  consumer : WordConsumer T
  claims : List (ι × T)
  sent : ι → List T
  popped : List T

variable {ι T : Type}

namespace WordRing

/-- The template argument `Capacity`. -/
def capacity (k : Nat) : UInt64 := UInt64.ofNat (2 ^ k)

/-- `pos & kMask`. -/
def slot (k : Nat) (pos : UInt64) : Nat := (pos &&& (capacity k - 1)).toNat

/-- The constructor numbers the slots. -/
def new [Inhabited T] : WordRing ι T :=
  { seq := UInt64.ofNat, data := fun _ => default, enqueuePos := 0, dequeuePos := 0
    producers := fun _ => .idle, consumer := .idle, claims := [], sent := fun _ => []
    popped := [] }

variable [DecidableEq ι]

def setProducer (s : WordRing ι T) (i : ι) (p : WordProducer T) : WordRing ι T :=
  { s with producers := Function.update s.producers i p }

/-- The next atomic step of producer `i`. The signed difference wraps like the words it is
taken of. -/
def pushStep (k : Nat) (s : WordRing ι T) (i : ι) (v : T) (weak : Bool) :
    Outcome T × WordRing ι T :=
  match s.producers i with
  | .idle => (.running, s.setProducer i (.checking v s.enqueuePos))
  | .reloading v => (.running, s.setProducer i (.checking v s.enqueuePos))
  | .checking v pos =>
    let dif := (s.seq (slot k pos)).toInt64 - pos.toInt64
    if dif = 0 then (.running, s.setProducer i (.claiming v pos))
    else if dif < 0 then (.refused, s.setProducer i .idle)
    else (.running, s.setProducer i (.reloading v))
  | .claiming v pos =>
    if s.enqueuePos = pos ∧ weak = false then
      (.running, { s.setProducer i (.writing v pos) with
        enqueuePos := pos + 1
        claims := s.claims ++ [(i, v)]
        sent := Function.update s.sent i (s.sent i ++ [v]) })
    else (.running, s.setProducer i (.checking v s.enqueuePos))
  | .writing v pos =>
    (.running, { s.setProducer i (.publishing v pos) with
      data := Function.update s.data (slot k pos) v })
  | .publishing v pos =>
    (.done v, { s.setProducer i .idle with seq := Function.update s.seq (slot k pos) (pos + 1) })

omit [DecidableEq ι] in
/-- The next atomic step of the consumer. -/
def popStep (k : Nat) (s : WordRing ι T) : Outcome T × WordRing ι T :=
  match s.consumer with
  | .idle => (.running, { s with consumer := .checking s.dequeuePos })
  | .checking pos =>
    let dif := (s.seq (slot k pos)).toInt64 - (pos + 1).toInt64
    if dif < 0 then (.refused, { s with consumer := .idle })
    else (.running, { s with consumer := .reading pos })
  | .reading pos => (.running, { s with consumer := .releasing pos (s.data (slot k pos)) })
  | .releasing pos out =>
    (.running, { s with
      seq := Function.update s.seq (slot k pos) (pos + capacity k)
      consumer := .advancing pos out })
  | .advancing pos out =>
    (.done out, { s with
      dequeuePos := pos + 1, consumer := .idle, popped := s.popped ++ [out] })

/-- The ring after a step. -/
def step (k : Nat) (s : WordRing ι T) : Action ι T → WordRing ι T
  | .push i v weak => (s.pushStep k i v weak).2
  | .pop => (s.popStep k).2

/-- What a step returns to its caller. -/
def outcome (k : Nat) (s : WordRing ι T) : Action ι T → Outcome T
  | .push i v weak => (s.pushStep k i v weak).1
  | .pop => (s.popStep k).1

end WordRing

/-- The words of a producer's position. -/
def Producer.words : Producer T → WordProducer T
  | .idle => .idle
  | .reloading v => .reloading v
  | .checking v pos => .checking v (.ofNat pos)
  | .claiming v pos => .claiming v (.ofNat pos)
  | .writing v pos => .writing v (.ofNat pos)
  | .publishing v pos => .publishing v (.ofNat pos)

/-- The words of the consumer's position. -/
def Consumer.words : Consumer T → WordConsumer T
  | .idle => .idle
  | .checking pos => .checking (.ofNat pos)
  | .reading pos => .reading (.ofNat pos)
  | .releasing pos out => .releasing (.ofNat pos) out
  | .advancing pos out => .advancing (.ofNat pos) out

/-- The wrapped ring of a ring with unbounded positions. -/
def words (s : MpscRing ι T) : WordRing ι T :=
  { seq := fun j => .ofNat (s.seq j)
    data := s.data
    enqueuePos := .ofNat s.enqueuePos
    dequeuePos := .ofNat s.dequeuePos
    producers := fun i => (s.producers i).words
    consumer := s.consumer.words
    claims := s.claims
    sent := s.sent
    popped := s.popped }

/-- The position a producer has loaded and not yet claimed. -/
def Producer.loaded : Producer T → Option Nat
  | .checking _ pos | .claiming _ pos => some pos
  | _ => none

/-- The producer that steps has not been left behind: fewer than half a turn less one lap of
positions have been claimed since it loaded the one it works on. -/
def Timely (k : Nat) (s : MpscRing ι T) : Action ι T → Prop
  | .push i _ _ => ∀ pos ∈ (s.producers i).loaded, s.enqueuePos + 2 ^ k < pos + 2 ^ 63
  | .pop => True

instance (k : Nat) (s : MpscRing ι T) : (a : Action ι T) → Decidable (s.Timely k a)
  | .push i _ _ =>
    inferInstanceAs (Decidable (∀ pos ∈ (s.producers i).loaded, _ + 2 ^ k < pos + 2 ^ 63))
  | .pop => isTrue trivial

variable {k : Nat} {s : MpscRing ι T} {i : ι}

theorem word_slot (hk : k < 64) (pos : Nat) : WordRing.slot k (.ofNat pos) = slot k pos := by
  rw [slot_eq]
  exact Ring.toNat_mask hk pos

/-- The words of the sequence numbers after one of them is stored. -/
theorem ofNat_update (seq : Nat → Nat) (j n : Nat) :
    (fun q => UInt64.ofNat (Function.update seq j n q)) =
      Function.update (fun q => UInt64.ofNat (seq q)) j (.ofNat n) := by
  ext q
  by_cases hq : q = j
  · subst hq
    simp only [Function.update_self]
  · simp only [Function.update_of_ne hq]

theorem words_producers (s : MpscRing ι T) (i : ι) :
    s.words.producers i = (s.producers i).words := rfl

section

variable [DecidableEq ι]

/-- What a step returns to its caller. -/
def outcome (k : Nat) (s : MpscRing ι T) : Action ι T → Outcome T
  | .push i v weak => (s.pushStep k i v weak).1
  | .pop => (s.popStep k).1

/-- The words of the producers after one of them turns to another step. -/
theorem words_update (ps : ι → Producer T) (p : Producer T) :
    (fun j => (Function.update ps i p j).words) =
      Function.update (fun j => (ps j).words) i p.words := by
  ext j
  by_cases hj : j = i
  · subst hj
    simp only [Function.update_self]
  · simp only [Function.update_of_ne hj]

theorem words_setProducer (s : MpscRing ι T) (p : Producer T) :
    (s.setProducer i p).words = s.words.setProducer i p.words := by
  simp only [words, setProducer, WordRing.setProducer, words_update]

/-- The wrapped ring after a compare-and-swap that succeeds. -/
theorem words_claim (s : MpscRing ι T) (v : T) (pos : Nat) :
    ({ s.setProducer i (.writing v pos) with
        enqueuePos := pos + 1
        claims := s.claims ++ [(i, v)]
        sent := Function.update s.sent i (s.sent i ++ [v]) } : MpscRing ι T).words =
      { s.words.setProducer i (.writing v (.ofNat pos)) with
        enqueuePos := .ofNat pos + 1
        claims := s.claims ++ [(i, v)]
        sent := Function.update s.sent i (s.sent i ++ [v]) } := by
  simp only [words, setProducer, WordRing.setProducer, WordRing.mk.injEq, words_update,
    UInt64.ofNat_add, true_and, and_true]
  exact ⟨rfl, rfl⟩

/-- The wrapped ring after a claimed slot is published. -/
theorem words_publish (s : MpscRing ι T) (j pos : Nat) :
    ({ s.setProducer i .idle with seq := Function.update s.seq j (pos + 1) } :
        MpscRing ι T).words =
      { s.words.setProducer i .idle with
        seq := Function.update s.words.seq j (.ofNat pos + 1) } := by
  simp only [words, setProducer, WordRing.setProducer, WordRing.mk.injEq, words_update,
    ofNat_update, UInt64.ofNat_add, true_and, and_true]
  exact ⟨rfl, rfl⟩

/-- The sequence number of any slot is at most a lap past the released positions. -/
theorem Valid.seq_bounds (h : s.Valid k) (pos : Nat) :
    s.released ≤ s.seq (slot k pos) ∧ s.seq (slot k pos) ≤ s.released + 2 ^ k := by
  obtain ⟨q, hlo, hhi, hq⟩ := Ring.exists_pos (Nat.two_pow_pos k) s.released pos
  have hslot : slot k q = slot k pos := by rw [slot_eq, slot_eq, hq]
  rw [← hslot]
  rcases h.seq_cases hlo hhi with hs | ⟨hs, _⟩ <;> omega

/-- A timely step of a producer is the step of the wrapped ring. -/
theorem Valid.words_pushStep (h : s.Valid k) (hk : k < 63) (v : T) (weak : Bool)
    (ht : s.Timely k (.push i v weak)) :
    s.words.pushStep k i v weak =
      ((s.pushStep k i v weak).1, (s.pushStep k i v weak).2.words) := by
  have hpush := h.pushing i
  have hlap : 2 ^ k < 2 ^ 63 := Nat.pow_lt_pow_right (by decide) hk
  have hslot := word_slot (k := k) (by omega)
  have hroom := h.room
  have hrel := h.released
  have henq := h.enqueued
  unfold WordRing.pushStep pushStep
  simp only [Timely] at ht
  unfold Pushing at hpush
  cases hp : s.producers i with
  | idle =>
    have hw : (s.producers i).words = .idle := congrArg Producer.words hp
    simp only [words_producers, hw, words_setProducer]
    rfl
  | reloading w =>
    have hw : (s.producers i).words = .reloading w := congrArg Producer.words hp
    simp only [words_producers, hw, words_setProducer]
    rfl
  | checking w pos =>
    have hw : (s.producers i).words = .checking w (.ofNat pos) := congrArg Producer.words hp
    simp only [hp] at hpush
    have hnear := ht pos (by rw [hp]; rfl)
    obtain ⟨hlo, hhi⟩ := h.seq_bounds pos
    have hseq : s.words.seq (slot k pos) = .ofNat (s.seq (slot k pos)) := rfl
    simp only [words_producers, hw, hslot, hseq,
      Ring.distance_eq_zero (p := s.seq (slot k pos)) (q := pos) (by omega) (by omega),
      Ring.distance_neg (p := s.seq (slot k pos)) (q := pos) (by omega) (by omega)]
    split
    · rw [words_setProducer]
      rfl
    · split <;> rw [words_setProducer] <;> rfl
  | claiming w pos =>
    have hw : (s.producers i).words = .claiming w (.ofNat pos) := congrArg Producer.words hp
    simp only [hp] at hpush
    have hnear := ht pos (by rw [hp]; rfl)
    have heq : s.words.enqueuePos = .ofNat pos ↔ s.enqueuePos = pos :=
      Ring.ofNat_eq_iff (by omega) (by omega)
    simp only [words_producers, hw, heq]
    split
    · rw [words_claim]
      rfl
    · rw [words_setProducer]
      rfl
  | writing w pos =>
    have hw : (s.producers i).words = .writing w (.ofNat pos) := congrArg Producer.words hp
    simp only [words_producers, hw, hslot]
    simp only [words, setProducer, WordRing.setProducer, words_update]
    rfl
  | publishing w pos =>
    have hw : (s.producers i).words = .publishing w (.ofNat pos) := congrArg Producer.words hp
    simp only [words_producers, hw, hslot]
    rw [words_publish]

/-- A step of the consumer is the step of the wrapped ring. -/
theorem Valid.words_popStep (h : s.Valid k) (hk : k < 63) :
    s.words.popStep k = ((s.popStep k).1, (s.popStep k).2.words) := by
  have hpop := h.popping
  have hlap : 2 ^ k < 2 ^ 63 := Nat.pow_lt_pow_right (by decide) hk
  have hslot := word_slot (k := k) (by omega)
  unfold WordRing.popStep popStep
  unfold Popping at hpop
  have hword : s.words.consumer = s.consumer.words := rfl
  rw [hword]
  cases hc : s.consumer with
  | idle => rfl
  | checking pos =>
    simp only [hc] at hpop
    have hrel : s.released = pos := by simp only [MpscRing.released, hc, hpop]
    obtain ⟨hlo, hhi⟩ := h.seq_bounds pos
    have hseq : s.words.seq (slot k pos) = .ofNat (s.seq (slot k pos)) := rfl
    have hone : UInt64.ofNat pos + 1 = .ofNat (pos + 1) := by
      rw [UInt64.ofNat_add]
      rfl
    simp only [Consumer.words, hslot, hseq, hone,
      Ring.distance_neg (p := s.seq (slot k pos)) (q := pos + 1) (by omega) (by omega)]
    split <;> rfl
  | reading pos =>
    simp only [Consumer.words, hslot]
    rfl
  | releasing pos out =>
    simp only [Consumer.words, words, hslot, ofNat_update, UInt64.ofNat_add]
    rfl
  | advancing pos out =>
    simp only [Consumer.words, words, UInt64.ofNat_add]
    rfl

omit [DecidableEq ι] in
theorem words_new [Inhabited T] : (new : MpscRing ι T).words = WordRing.new := rfl

/-- The invariant of the ring survives every step. -/
theorem Valid.step (h : s.Valid k) (hk : 0 < k) (a : Action ι T) : (s.step k a).Valid k := by
  cases a with
  | push i v weak => exact h.push hk i v weak
  | pop => exact h.pop

/-- The wrapped ring follows the unbounded one as long as the producers are timely. -/
theorem simulates_words (hk : 0 < k) (hk' : k < 63) :
    Run.Simulates (fun (s : MpscRing ι T) w => s.Valid k ∧ w = s.words) (Timely k) (step k)
      (outcome k) (WordRing.step k) (WordRing.outcome k) where
  step s w a hs ht := by
    obtain ⟨hv, rfl⟩ := hs
    refine ⟨hv.step hk a, ?_⟩
    cases a with
    | push i v weak => exact congrArg Prod.snd (hv.words_pushStep hk' v weak ht)
    | pop => exact congrArg Prod.snd (hv.words_popStep hk')
  out s w a hs ht := by
    obtain ⟨hv, rfl⟩ := hs
    cases a with
    | push i v weak => exact (congrArg Prod.fst (hv.words_pushStep hk' v weak ht)).symm
    | pop => exact (congrArg Prod.fst (hv.words_popStep hk')).symm

/-- In every run of timely producers the ring on machine words returns what the ring with
unbounded positions returns, through any number of wraps, and delivers as that one does. -/
theorem words_run [Inhabited T] (hk : 0 < k) (hk' : k < 63) {as : List (Action ι T)}
    (h : Run.Allowed (step k) (Timely k) new as) :
    Run.outputs (WordRing.outcome k) (WordRing.step k) WordRing.new as =
        Run.outputs (outcome k) (step k) new as ∧
      ∃ s, s = as.foldl (step k) new ∧ as.foldl (WordRing.step k) WordRing.new = s.words ∧
        s.Delivers k := by
  have hsim := @simulates_words ι T k _ hk hk'
  have hinit : (new : MpscRing ι T).Valid k ∧ (WordRing.new : WordRing ι T) = new.words :=
    ⟨valid_new, words_new.symm⟩
  obtain ⟨hv, hw⟩ := hsim.foldl hinit h
  exact ⟨(hsim.outputs hinit h).symm, _, rfl, hw, hv.delivers⟩

/-- Two producers and the consumer on a ring of two slots. -/
def lapping : List (Action Bool Nat) :=
  .push false 5 false :: List.replicate 5 (.push true 6 false) ++
    List.replicate 4 (.push false 5 false) ++ List.replicate 5 .pop

theorem words_run_lapping :
    Run.outputs (WordRing.outcome 1) (WordRing.step 1) WordRing.new lapping =
        Run.outputs (outcome 1) (step 1) new lapping ∧
      ∃ s, s = lapping.foldl (step 1) new ∧
        lapping.foldl (WordRing.step 1) WordRing.new = s.words ∧ s.Delivers 1 :=
  words_run (by decide) (by decide) (by decide)

end

end MpscRing

end Lob
