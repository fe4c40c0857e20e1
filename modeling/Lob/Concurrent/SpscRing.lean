import Lob.Core.Ring
import Lob.Core.Run

/-!
# The single-producer ring

`SpscRing` with its two threads, one atomic load, store or buffer access at a
time. `head_` and `tail_` are words that wrap. The pushed and popped values are
history: no step reads them.
-/

namespace Lob

namespace SpscRing

/-- Where the producer is in `try_push`. -/
inductive Producer (T : Type) where
  | idle
  /-- `head_` has been loaded, `tail_` is next. -/
  | checking (v : T) (h : UInt64)
  /-- The slot is about to be written. -/
  | writing (v : T) (h : UInt64)
  /-- `head_` is about to be stored. -/
  | publishing (v : T) (h : UInt64)
  deriving DecidableEq, Repr

/-- Where the consumer is in `try_pop`. -/
inductive Consumer (T : Type) where
  | idle
  /-- `tail_` has been loaded, `head_` is next. -/
  | checking (t : UInt64)
  /-- The slot is about to be read. -/
  | reading (t : UInt64)
  /-- `tail_` is about to be stored. -/
  | releasing (t : UInt64) (out : T)
  deriving DecidableEq, Repr

end SpscRing

open Ring (Outcome)

/-- `class SpscRing`, with the state of its two threads and what they have done. -/
structure SpscRing (T : Type) where
  buf : Nat → T
  head : UInt64
  tail : UInt64
  producer : SpscRing.Producer T
  consumer : SpscRing.Consumer T
  /-- Values whose `try_push` has stored `head_`, in order. -/
  pushed : List T
  /-- Values whose `try_pop` has stored `tail_`, in order. -/
  popped : List T

namespace SpscRing

variable {T : Type}

/-- The argument of the `try_push` that is under way. -/
def Producer.value : Producer T → Option T
  | .idle => none
  | .checking v _ | .writing v _ | .publishing v _ => some v

/-- The template argument `Capacity`. -/
def capacity (k : Nat) : UInt64 := UInt64.ofNat (2 ^ k)

/-- `i & kMask`. -/
def slot (k : Nat) (i : UInt64) : Nat := (i &&& (capacity k - 1)).toNat

def new [Inhabited T] : SpscRing T :=
  { buf := fun _ => default, head := 0, tail := 0, producer := .idle, consumer := .idle
    pushed := [], popped := [] }

/-- `n - tail_ > Capacity`. -/
def Full (k : Nat) (s : SpscRing T) (h : UInt64) : Prop := capacity k < h + 1 - s.tail

instance (k : Nat) (s : SpscRing T) (h : UInt64) : Decidable (s.Full k h) :=
  inferInstanceAs (Decidable (_ < _))

/-- The next atomic step of the producer; an idle one calls `try_push` with `v`. -/
def pushStep (k : Nat) (s : SpscRing T) (v : T) : Outcome T × SpscRing T :=
  match s.producer with
  | .idle => (.running, { s with producer := .checking v s.head })
  | .checking v h =>
    if s.Full k h then (.refused, { s with producer := .idle })
    else (.running, { s with producer := .writing v h })
  | .writing v h =>
    (.running, { s with
      buf := Function.update s.buf (slot k h) v
      producer := .publishing v h })
  | .publishing v h =>
    (.done v, { s with head := h + 1, producer := .idle, pushed := s.pushed ++ [v] })

/-- The next atomic step of the consumer; an idle one calls `try_pop`. -/
def popStep (k : Nat) (s : SpscRing T) : Outcome T × SpscRing T :=
  match s.consumer with
  | .idle => (.running, { s with consumer := .checking s.tail })
  | .checking t =>
    if t = s.head then (.refused, { s with consumer := .idle })
    else (.running, { s with consumer := .reading t })
  | .reading t => (.running, { s with consumer := .releasing t (s.buf (slot k t)) })
  | .releasing t out =>
    (.done out, { s with tail := t + 1, consumer := .idle, popped := s.popped ++ [out] })

/-- One of the two threads takes a step. -/
inductive Action (T : Type) where
  | push (v : T)
  | pop
  deriving DecidableEq, Repr

/-- The ring after a step. -/
def step (k : Nat) (s : SpscRing T) : Action T → SpscRing T
  | .push v => (s.pushStep k v).2
  | .pop => (s.popStep k).2

/-- The states of any interleaving of the two threads. -/
def Reachable [Inhabited T] (k : Nat) : SpscRing T → Prop :=
  Run.Reach (step k) (fun _ _ => True) new

/-- Values pushed and not yet popped. -/
def unread (s : SpscRing T) : Nat := s.pushed.length - s.popped.length

/-- The values in the slots from `tail_` up to `head_`. -/
def content (k : Nat) (s : SpscRing T) : List T :=
  (List.range (s.head - s.tail).toNat).map fun i => s.buf (slot k (s.tail + UInt64.ofNat i))

/-- What a bounded queue promises in one state of a run. -/
structure Fifo (k : Nat) (s : SpscRing T) : Prop where
  /-- The popped values are the first pushed ones. -/
  inOrder : s.popped <+: s.pushed
  /-- The slots of the unread values hold them. -/
  held : ∀ i v, s.popped.length ≤ i → s.pushed[i]? = some v → s.buf (slot k (UInt64.ofNat i)) = v
  /-- The slot being written holds no unread value. -/
  unwritten : ∀ v h, s.producer = .writing v h → ∀ i, s.popped.length ≤ i →
    i < s.pushed.length → slot k (UInt64.ofNat i) ≠ slot k h
  /-- The slot being written is not being read. -/
  apart : ∀ v h, s.producer = .writing v h → ∀ t, s.consumer = .reading t → slot k t ≠ slot k h
  /-- A push is refused only at its load of `tail_`, and only when the ring is full. -/
  full : ∀ v, (s.pushStep k v).1 = .refused → s.unread = 2 ^ k
  /-- A pop is refused only at its load of `head_`, and only when the ring is empty. -/
  empty : (s.popStep k).1 = .refused → s.unread = 0
  /-- The pushed values are those that pushes return true with, and no others. -/
  accepts : ∀ v, (s.pushStep k v).2.pushed = s.pushed ++ (s.pushStep k v).1.values
  /-- A push that is under way keeps the argument of its call. -/
  keeps : ∀ v, (s.pushStep k v).1 = .running →
    (s.pushStep k v).2.producer.value = some (s.producer.value.getD v)
  /-- A push returns true with the argument of its call. -/
  argument : ∀ v w, (s.pushStep k v).1 = .done w → s.producer.value = some w
  /-- The popped values are those that pops return true with, and no others. -/
  returns : (s.popStep k).2.popped = s.popped ++ (s.popStep k).1.values

/-- The producer's loaded index is `head_`, and past its check there is room. -/
def Pushing (k : Nat) (s : SpscRing T) : Prop :=
  match s.producer with
  | .idle => True
  | .checking _ h => h = s.head
  | .writing _ h => h = s.head ∧ s.pushed.length < s.popped.length + 2 ^ k
  | .publishing v h =>
    h = s.head ∧ s.pushed.length < s.popped.length + 2 ^ k ∧ s.buf (slot k h) = v

/-- The consumer's loaded index is `tail_`, and past its check there is a value. -/
def Popping (s : SpscRing T) : Prop :=
  match s.consumer with
  | .idle => True
  | .checking t => t = s.tail
  | .reading t => t = s.tail ∧ s.popped.length < s.pushed.length
  | .releasing t out => t = s.tail ∧ s.pushed[s.popped.length]? = some out

/-- The invariant of the ring: the counters are the lengths of the two histories. -/
structure Valid (k : Nat) (s : SpscRing T) : Prop where
  head : s.head = UInt64.ofNat s.pushed.length
  tail : s.tail = UInt64.ofNat s.popped.length
  inOrder : s.popped <+: s.pushed
  room : s.pushed.length ≤ s.popped.length + 2 ^ k
  held : ∀ i v, s.popped.length ≤ i → s.pushed[i]? = some v → s.buf (i % 2 ^ k) = v
  pushing : s.Pushing k
  popping : s.Popping

variable {k : Nat} {s : SpscRing T}

theorem slot_ofNat (hk : k < 64) (i : Nat) : slot k (UInt64.ofNat i) = i % 2 ^ k :=
  Ring.toNat_mask hk i

theorem valid_new [Inhabited T] : (new : SpscRing T).Valid k where
  head := rfl
  tail := rfl
  inOrder := List.prefix_rfl
  room := Nat.zero_le _
  held i v _ hv := by simp [new] at hv
  pushing := trivial
  popping := trivial

/-- The refused push compares the counters, which is to compare the lengths. -/
theorem Valid.full_iff (h : s.Valid k) (hk : k < 64) :
    s.Full k s.head ↔ s.pushed.length = s.popped.length + 2 ^ k := by
  have hpow : 2 ^ k ≤ 2 ^ 63 := Nat.pow_le_pow_right (by decide) (by omega)
  have hle := h.inOrder.length_le
  have hroom := h.room
  have hsize : (capacity k).toNat = 2 ^ k :=
    UInt64.toNat_ofNat_of_lt' (show 2 ^ k < 2 ^ 64 by omega)
  have hsucc : s.head + 1 = UInt64.ofNat (s.pushed.length + 1) := by
    rw [h.head, UInt64.ofNat_add]
    rfl
  have hdist : (s.head + 1 - s.tail).toNat = s.pushed.length + 1 - s.popped.length := by
    rw [hsucc, h.tail]
    exact Ring.toNat_distance (by omega) (by omega)
  unfold Full
  rw [UInt64.lt_iff_toNat_lt, hsize, hdist]
  omega

theorem Valid.empty_iff (h : s.Valid k) (hk : k < 64) :
    s.tail = s.head ↔ s.pushed.length = s.popped.length := by
  have hpow : 2 ^ k ≤ 2 ^ 63 := Nat.pow_le_pow_right (by decide) (by omega)
  have hroom := h.room
  rw [h.head, h.tail, eq_comm, Ring.ofNat_eq_iff h.inOrder.length_le (by omega)]

/-- The slots hold the values pushed and not yet popped. -/
theorem Valid.content_eq (h : s.Valid k) (hk : k < 64) :
    s.content k = s.pushed.drop s.popped.length := by
  have hpow : 2 ^ k ≤ 2 ^ 63 := Nat.pow_le_pow_right (by decide) (by omega)
  have hroom := h.room
  have hdist : (s.head - s.tail).toNat = s.pushed.length - s.popped.length := by
    rw [h.head, h.tail]
    exact Ring.toNat_distance h.inOrder.length_le (by omega)
  unfold content
  rw [hdist]
  apply List.ext_getElem?
  intro i
  rw [List.getElem?_map, List.getElem?_drop]
  by_cases hi : i < s.pushed.length - s.popped.length
  · have hv := List.getElem?_eq_getElem (show s.popped.length + i < s.pushed.length by omega)
    have hbuf := h.held _ _ (Nat.le_add_right _ i) hv
    rw [List.getElem?_range hi, Option.map_some, h.tail, ← UInt64.ofNat_add, slot_ofNat hk, hbuf,
      hv]
  · have hn : (List.range (s.pushed.length - s.popped.length))[i]? = none := by
      rw [List.getElem?_eq_none_iff, List.length_range]
      omega
    rw [hn, List.getElem?_eq_none (by omega)]
    rfl

/-- What is popped and what the ring holds is what was pushed. -/
theorem Valid.popped_content (h : s.Valid k) (hk : k < 64) :
    s.popped ++ s.content k = s.pushed := by
  rw [h.content_eq hk]
  exact List.prefix_iff_eq_append.mp h.inOrder

/-- What a step of the producer leaves to the consumer. -/
theorem pushStep_consumer (s : SpscRing T) (v : T) :
    (s.pushStep k v).2.consumer = s.consumer ∧ (s.pushStep k v).2.popped = s.popped := by
  unfold pushStep
  cases s.producer with
  | idle => exact ⟨rfl, rfl⟩
  | checking v h =>
    dsimp only
    split
    · exact ⟨rfl, rfl⟩
    · exact ⟨rfl, rfl⟩
  | writing v h => exact ⟨rfl, rfl⟩
  | publishing v h => exact ⟨rfl, rfl⟩

/-- What a push returns tells whether its value has been stored. It is the value the producer had
begun with, or the one it begins with. -/
theorem value_pushStep (s : SpscRing T) (v : T) :
    match (s.pushStep k v).1 with
    | .running => (s.pushStep k v).2.pushed = s.pushed ∧
        (s.pushStep k v).2.producer.value = some (s.producer.value.getD v)
    | .refused => (s.pushStep k v).2.pushed = s.pushed ∧ (s.pushStep k v).2.producer.value = none
    | .done w => (s.pushStep k v).2.pushed = s.pushed ++ [w] ∧ s.producer.value = some w ∧
        (s.pushStep k v).2.producer.value = none := by
  unfold pushStep
  cases s.producer with
  | idle | writing v h => exact ⟨rfl, rfl⟩
  | checking v h =>
    by_cases hf : s.Full k h
    · simp only [if_pos hf]
      exact ⟨trivial, rfl⟩
    · simp only [if_neg hf]
      exact ⟨trivial, rfl⟩
  | publishing v h => exact ⟨rfl, rfl, rfl⟩

/-- A push that is refused has just loaded `tail_`. -/
theorem refused_pushStep {v : T} (h : (s.pushStep k v).1 = .refused) :
    ∃ w i, s.producer = .checking w i ∧ s.Full k i := by
  unfold pushStep at h
  cases hp : s.producer with
  | idle | writing w i | publishing w i => simp [hp] at h
  | checking w i =>
    by_cases hf : s.Full k i
    · exact ⟨w, i, rfl, hf⟩
    · simp [hp, hf] at h

/-- What a step of the consumer leaves to the producer. -/
theorem popStep_producer (s : SpscRing T) :
    (s.popStep k).2.producer = s.producer ∧ (s.popStep k).2.pushed = s.pushed := by
  unfold popStep
  cases s.consumer with
  | idle => exact ⟨rfl, rfl⟩
  | checking t =>
    dsimp only
    split
    · exact ⟨rfl, rfl⟩
    · exact ⟨rfl, rfl⟩
  | reading t => exact ⟨rfl, rfl⟩
  | releasing t out => exact ⟨rfl, rfl⟩

/-- A step of the consumer is under way, is refused at an empty ring, or has popped a value. -/
theorem popStep_cases (s : SpscRing T) :
    ((s.popStep k).1 = .running ∧ (s.popStep k).2.popped = s.popped) ∨
    ((s.popStep k).1 = .refused ∧ (s.popStep k).2.popped = s.popped ∧
      (s.popStep k).2.consumer = .idle ∧ s.consumer = .checking s.head) ∨
    (∃ v, (s.popStep k).1 = .done v ∧ (s.popStep k).2.popped = s.popped ++ [v] ∧
      (s.popStep k).2.consumer = .idle) := by
  unfold popStep
  cases s.consumer with
  | idle => exact Or.inl ⟨rfl, rfl⟩
  | checking t =>
    dsimp only
    split
    · next ht => exact Or.inr (Or.inl ⟨rfl, rfl, rfl, by rw [ht]⟩)
    · exact Or.inl ⟨rfl, rfl⟩
  | reading t => exact Or.inl ⟨rfl, rfl⟩
  | releasing t out => exact Or.inr (Or.inr ⟨out, rfl, rfl, rfl⟩)

/-- The slot past the last pushed value holds no unread one. -/
theorem free_slot {i : Nat} (hlo : s.popped.length ≤ i) (hhi : i < s.pushed.length)
    (hroom : s.pushed.length < s.popped.length + 2 ^ k) :
    i % 2 ^ k ≠ s.pushed.length % 2 ^ k := by
  intro he
  have hi := Ring.pos_unique he (by omega) (by omega)
  omega

/-- Every step of the producer keeps the invariant. -/
theorem Valid.push (h : s.Valid k) (hk : k < 64) (v : T) : (s.pushStep k v).2.Valid k := by
  have hpush := h.pushing
  have hpop := h.popping
  unfold pushStep
  unfold Pushing at hpush
  cases hp : s.producer with
  | idle => exact { h with pushing := rfl, popping := hpop }
  | checking v h₀ =>
    simp only [hp] at hpush ⊢
    subst hpush
    split
    · exact { h with pushing := trivial, popping := hpop }
    · next hfull =>
      rw [h.full_iff hk] at hfull
      have hroom := h.room
      exact { h with pushing := ⟨rfl, by dsimp only; omega⟩, popping := hpop }
  | writing v h₀ =>
    simp only [hp] at hpush ⊢
    obtain ⟨rfl, hroom⟩ := hpush
    refine { h with held := ?_, pushing := ⟨rfl, hroom, Function.update_self ..⟩, popping := hpop }
    intro i w hlo hw
    have hhi := (List.getElem?_eq_some_iff.mp hw).1
    have hne := free_slot (k := k) hlo hhi hroom
    dsimp only
    rw [h.head, slot_ofNat hk, Function.update_of_ne hne]
    exact h.held i w hlo hw
  | publishing v h₀ =>
    simp only [hp] at hpush ⊢
    obtain ⟨rfl, hroom, hbuf⟩ := hpush
    rw [h.head, slot_ofNat hk] at hbuf
    constructor
    · dsimp only
      rw [h.head, List.length_append, UInt64.ofNat_add]
      rfl
    · exact h.tail
    · exact h.inOrder.trans (List.prefix_append _ _)
    · simp only [List.length_append, List.length_singleton]
      omega
    · intro i w hlo hw
      rcases Nat.lt_trichotomy i s.pushed.length with hi | hi | hi
      · rw [List.getElem?_append_left hi] at hw
        exact h.held i w hlo hw
      · subst hi
        rw [List.getElem?_concat_length, Option.some.injEq] at hw
        exact hbuf.trans hw
      · rw [List.getElem?_eq_none (by simp; omega)] at hw
        contradiction
    · trivial
    · unfold Popping at hpop ⊢
      dsimp only
      cases hc : s.consumer with
      | idle => trivial
      | checking t => simpa only [hc] using hpop
      | reading t =>
        simp only [hc, List.length_append] at hpop ⊢
        exact ⟨hpop.1, by omega⟩
      | releasing t out =>
        simp only [hc] at hpop ⊢
        have hlt := (List.getElem?_eq_some_iff.mp hpop.2).1
        rw [List.getElem?_append_left hlt]
        exact hpop

/-- Every step of the consumer keeps the invariant. -/
theorem Valid.pop (h : s.Valid k) (hk : k < 64) : (s.popStep k).2.Valid k := by
  have hpush := h.pushing
  have hpop := h.popping
  have hle := h.inOrder.length_le
  unfold popStep
  unfold Popping at hpop
  cases hc : s.consumer with
  | idle => exact { h with pushing := hpush, popping := rfl }
  | checking t =>
    simp only [hc] at hpop ⊢
    subst hpop
    split
    · exact { h with pushing := hpush, popping := trivial }
    · next hne =>
      rw [h.empty_iff hk] at hne
      exact { h with pushing := hpush, popping := ⟨rfl, by dsimp only; omega⟩ }
  | reading t =>
    simp only [hc] at hpop ⊢
    obtain ⟨rfl, hlt⟩ := hpop
    refine { h with pushing := hpush, popping := ⟨rfl, ?_⟩ }
    have hv := List.getElem?_eq_getElem hlt
    have hbuf := h.held _ _ (Nat.le_refl _) hv
    dsimp only
    rw [h.tail, slot_ofNat hk, hbuf, hv]
  | releasing t out =>
    simp only [hc] at hpop ⊢
    obtain ⟨rfl, hout⟩ := hpop
    have hlt := (List.getElem?_eq_some_iff.mp hout).1
    constructor
    · exact h.head
    · dsimp only
      rw [h.tail, List.length_append, UInt64.ofNat_add]
      rfl
    · obtain ⟨rest, hrest⟩ := h.inOrder
      rw [← hrest, List.getElem?_append_right (Nat.le_refl _), Nat.sub_self] at hout
      cases rest with
      | nil => contradiction
      | cons w ws =>
        obtain rfl := Option.some.inj hout
        exact ⟨ws, by rw [← hrest, List.append_assoc]; rfl⟩
    · have hroom := h.room
      simp only [List.length_append]
      omega
    · intro i v hlo hv
      rw [List.length_append] at hlo
      exact h.held i v (by omega) hv
    · unfold Pushing at hpush ⊢
      dsimp only
      cases hp : s.producer with
      | idle => trivial
      | checking v h₀ => simpa only [hp] using hpush
      | writing v h₀ =>
        simp only [hp, List.length_append] at hpush ⊢
        exact ⟨hpush.1, by omega⟩
      | publishing v h₀ =>
        simp only [hp, List.length_append] at hpush ⊢
        exact ⟨hpush.1, by omega, hpush.2.2⟩
    · trivial

/-- The invariant makes the ring a bounded queue. -/
theorem Valid.fifo (h : s.Valid k) (hk : k < 64) : s.Fifo k := by
  have hpush := h.pushing
  have hpop := h.popping
  unfold Pushing at hpush
  unfold Popping at hpop
  constructor
  · exact h.inOrder
  · intro i v hlo hv
    rw [slot_ofNat hk]
    exact h.held i v hlo hv
  · intro v h₀ hp i hlo hhi
    simp only [hp] at hpush
    rw [hpush.1, h.head, slot_ofNat hk, slot_ofNat hk]
    exact free_slot hlo hhi hpush.2
  · intro v h₀ hp t hc
    simp only [hp] at hpush
    simp only [hc] at hpop
    rw [hpush.1, hpop.1, h.head, h.tail, slot_ofNat hk, slot_ofNat hk]
    exact free_slot (Nat.le_refl _) hpop.2 hpush.2
  · intro v hv
    obtain ⟨w, i, hp, hfull⟩ := refused_pushStep hv
    simp only [hp] at hpush
    rw [hpush, h.full_iff hk] at hfull
    rw [unread, hfull, Nat.add_sub_cancel_left]
  · intro hr
    rcases popStep_cases (k := k) s with ⟨hrun, _⟩ | ⟨_, _, _, hc⟩ | ⟨v, hdone, _⟩
    · rw [hrun] at hr
      contradiction
    · simp only [hc] at hpop
      have hlen := (h.empty_iff hk).mp hpop.symm
      unfold unread
      omega
    · rw [hdone] at hr
      contradiction
  · intro v
    have hvalue := value_pushStep (k := k) s v
    cases hout : (s.pushStep k v).1 with
    | running | refused =>
      rw [hout] at hvalue
      rw [hvalue.1]
      exact (List.append_nil _).symm
    | done w =>
      rw [hout] at hvalue
      exact hvalue.1
  · intro v hout
    have hvalue := value_pushStep (k := k) s v
    rw [hout] at hvalue
    exact hvalue.2
  · intro v w hout
    have hvalue := value_pushStep (k := k) s v
    rw [hout] at hvalue
    exact hvalue.2.1
  · rcases popStep_cases (k := k) s with
      ⟨hout, hpopped⟩ | ⟨hout, hpopped, _⟩ | ⟨v, hout, hpopped, _⟩
    · rw [hout, hpopped]
      exact (List.append_nil _).symm
    · rw [hout, hpopped]
      exact (List.append_nil _).symm
    · rw [hout, hpopped]
      rfl

theorem Valid.step (h : s.Valid k) (hk : k < 64) (a : Action T) : (s.step k a).Valid k := by
  cases a with
  | push v => exact h.push hk v
  | pop => exact h.pop hk

theorem Reachable.valid [Inhabited T] (h : Reachable k s) (hk : k < 64) : s.Valid k :=
  Run.Reach.invariant (I := Valid k) h valid_new fun _ a hs _ => hs.step hk a

/-- In every interleaving the ring is a bounded queue, however often its counters have wrapped. -/
theorem reachable_fifo [Inhabited T] (hk : 0 < k ∧ k < 64) (h : Reachable k s) : s.Fifo k :=
  (h.valid hk.2).fifo hk.2

/-- Two pushes that fill a ring of two slots, a third that is refused, and a pop in between. -/
def filledRing : SpscRing Nat :=
  [.push 5, .push 5, .push 5, .push 5, .pop, .push 6, .pop, .push 6, .push 6, .push 6, .push 7,
    .pop].foldl (step 1) new

theorem reachable_fifo_filled : filledRing.Fifo 1 :=
  reachable_fifo (by decide) (Run.Reach.foldl Run.Reach.init (by decide))

end SpscRing

end Lob
