import Lob.Concurrent.Seqlock
import Lob.Core.Ring
import Lob.Core.Simulation

/-!
# The seqlock on machine words

`SeqlockQuote` as the source computes it, with a `seq_` that wraps at `2 ^ 64`.
A reader that compares `seq_` with a value a full turn old would take a torn
quote for a clean one; while no attempt takes that long, every read returns
what it returns with an unbounded `seq_`.
-/

namespace Lob

/-- Where a reader is in `read`, its first load of `seq_` a word. -/
inductive WordReader where
  | idle
  | retrying (first : Nat) (q : Quote)
  | loading (first : Nat) (s₁ : UInt64) (i : Nat) (q : Quote)
  deriving DecidableEq, Repr

/-- The words of a reader's first load. -/
def Reader.words : Reader → WordReader
  | .idle => .idle
  | .retrying first q => .retrying first q
  | .loading first s₁ i q => .loading first (.ofNat s₁) i q

/-- The `seq_` that an attempt compares with. -/
def Reader.loaded : Reader → Option Nat
  | .loading _ s₁ _ _ => some s₁
  | _ => none

namespace SeqlockQuote

/-- `class SeqlockQuote` with its `std::uint64_t` atomic, and the history of `SeqlockQuote`. -/
structure WordSeqlock (ρ : Type) where
  seq : UInt64
  cells : Quote
  writer : Writer
  readers : ρ → WordReader
  published : List Quote
  readings : ρ → List Reading

variable {ρ : Type}

namespace WordSeqlock

def new : WordSeqlock ρ :=
  { seq := 0, cells := {}, writer := .idle, readers := fun _ => .idle, published := []
    readings := fun _ => [] }

/-- The next atomic step of the writer. -/
def publishStep (s : WordSeqlock ρ) (q : Quote) : WordSeqlock ρ :=
  match s.writer with
  | .idle => { s with seq := s.seq + 1, writer := .storing q 0 }
  | .storing q i =>
    if i < 6 then { s with cells := q.copy i s.cells, writer := .storing q (i + 1) }
    else { s with seq := s.seq + 1, writer := .idle, published := s.published ++ [q] }

variable [DecidableEq ρ]

/-- A reader at the head of the loop, loading `seq_`. -/
def loadSeq (s : WordSeqlock ρ) (r : ρ) (first : Nat) (q : Quote) : WordSeqlock ρ :=
  if s.seq &&& 1 ≠ 0 then
    { s with readers := Function.update s.readers r (.retrying first q) }
  else { s with readers := Function.update s.readers r (.loading first s.seq 0 q) }

/-- The next atomic step of a reader; an idle one calls `read`. -/
def readStep (s : WordSeqlock ρ) (r : ρ) : WordSeqlock ρ :=
  match s.readers r with
  | .idle => s.loadSeq r s.published.length {}
  | .retrying first q => s.loadSeq r first q
  | .loading first s₁ i q =>
    if i < 6 then
      { s with
        readers := Function.update s.readers r (.loading first s₁ (i + 1) (s.cells.copy i q)) }
    else if s₁ = s.seq then
      { s with
        readers := Function.update s.readers r .idle
        readings := Function.update s.readings r
          (s.readings r ++ [⟨q, first, s.published.length⟩]) }
    else { s with readers := Function.update s.readers r (.retrying first q) }

def step (s : WordSeqlock ρ) : Action ρ → WordSeqlock ρ
  | .publish q => s.publishStep q
  | .read r => s.readStep r

end WordSeqlock

/-- The wrapped seqlock of one with an unbounded `seq_`. -/
def words (s : SeqlockQuote ρ) : WordSeqlock ρ :=
  { seq := .ofNat s.seq
    cells := s.cells
    writer := s.writer
    readers := fun r => (s.readers r).words
    published := s.published
    readings := s.readings }

/-- The attempt of the reader that steps has not gone on for a full turn of `seq_`. -/
def Timely (s : SeqlockQuote ρ) : Action ρ → Prop
  | .read r => ∀ s₁ ∈ (s.readers r).loaded, s.seq < s₁ + 2 ^ 64
  | .publish _ => True

instance (s : SeqlockQuote ρ) : (a : Action ρ) → Decidable (s.Timely a)
  | .read r => inferInstanceAs (Decidable (∀ s₁ ∈ (s.readers r).loaded, _ < s₁ + 2 ^ 64))
  | .publish _ => isTrue trivial

variable {s : SeqlockQuote ρ} {r : ρ}

/-- The low bit of a wrapped counter is that of the counter. -/
theorem ofNat_land_one (n : Nat) : UInt64.ofNat n &&& 1 ≠ 0 ↔ n % 2 = 1 := by
  have hmask := Ring.toNat_mask (k := 1) (by decide) n
  have hbit : (UInt64.ofNat n &&& 1).toNat = n % 2 := hmask
  rw [ne_eq, ← UInt64.toNat_inj, hbit]
  change ¬ n % 2 = 0 ↔ n % 2 = 1
  omega

/-- A step of the writer is the step of the wrapped seqlock. -/
theorem words_publishStep (s : SeqlockQuote ρ) (q : Quote) :
    s.words.publishStep q = (s.publishStep q).words := by
  unfold WordSeqlock.publishStep publishStep
  have hword : s.words.writer = s.writer := rfl
  rw [hword]
  cases s.writer with
  | idle =>
    simp only [words, UInt64.ofNat_add]
    rfl
  | storing q i =>
    dsimp only
    split
    · rfl
    · simp only [words, UInt64.ofNat_add]
      rfl

variable [DecidableEq ρ]

theorem words_update (rs : ρ → Reader) (x : Reader) :
    (fun t => (Function.update rs r x t).words) =
      Function.update (fun t => (rs t).words) r x.words := by
  ext t : 1
  by_cases ht : t = r
  · subst ht
    simp only [Function.update_self]
  · simp only [Function.update_of_ne ht]

theorem words_loadSeq (s : SeqlockQuote ρ) (first : Nat) (q : Quote) :
    s.words.loadSeq r first q = (s.loadSeq r first q).words := by
  unfold WordSeqlock.loadSeq loadSeq
  have hodd : s.words.seq &&& 1 ≠ 0 ↔ s.seq % 2 = 1 := ofNat_land_one s.seq
  simp only [hodd]
  split
  · simp only [words, words_update]
    rfl
  · simp only [words, words_update]
    rfl

/-- A timely step of a reader is the step of the wrapped seqlock. -/
theorem Valid.words_readStep (h : s.Valid) (ht : s.Timely (.read r)) :
    s.words.readStep r = (s.readStep r).words := by
  have hl := h.loading r
  unfold WordSeqlock.readStep readStep
  have hword : s.words.readers r = (s.readers r).words := rfl
  rw [hword]
  simp only [Timely] at ht
  cases hs : s.readers r with
  | idle => exact words_loadSeq s _ _
  | retrying first q => exact words_loadSeq s _ _
  | loading first s₁ i q =>
    rw [hs] at hl ht
    have hnear := ht s₁ rfl
    obtain ⟨_, hle, _⟩ := hl
    have hsame : UInt64.ofNat s₁ = s.words.seq ↔ s₁ = s.seq := by
      rw [eq_comm, eq_comm (a := s₁)]
      exact Ring.ofNat_eq_iff hle (by omega)
    simp only [Reader.words, hsame]
    split
    · simp only [words, words_update]
      rfl
    · split <;>
      · simp only [words, words_update]
        rfl

omit [DecidableEq ρ] in
theorem words_new : (new : SeqlockQuote ρ).words = WordSeqlock.new := rfl

/-- The wrapped seqlock follows the unbounded one as long as the attempts are timely. -/
theorem simulates_words :
    Run.Simulates (fun (s : SeqlockQuote ρ) w => s.Valid ∧ w = s.words) Timely step
      (fun s _ => s.readings) WordSeqlock.step (fun w _ => w.readings) where
  step s w a hs ht := by
    obtain ⟨hv, rfl⟩ := hs
    cases a with
    | publish q => exact ⟨hv.publish q, words_publishStep s q⟩
    | read r => exact ⟨hv.read r, hv.words_readStep ht⟩
  out s w a hs _ := by
    obtain ⟨_, rfl⟩ := hs
    rfl

/-- In every run whose attempts are timely no read is torn or goes back, through any number of
wraps of `seq_`. -/
theorem readings_words {as : List (Action ρ)} (h : Run.Allowed step Timely new as) (r : ρ) :
    (as.foldl WordSeqlock.step WordSeqlock.new).published = (as.foldl step new).published ∧
      (as.foldl WordSeqlock.step WordSeqlock.new).readings = (as.foldl step new).readings ∧
      (as.foldl step new).Untorn r := by
  have hinit : (new : SeqlockQuote ρ).Valid ∧ (WordSeqlock.new : WordSeqlock ρ) = new.words :=
    ⟨valid_new, words_new.symm⟩
  obtain ⟨hv, hw⟩ := simulates_words.foldl hinit h
  rw [hw]
  exact ⟨rfl, rfl, hv.untorn r⟩

/-- A read that meets a publish halfway and retries. -/
def interrupted : List (Action Bool) :=
  [.read true, .read true, .publish ⟨10, 11, 3, 4, true, true⟩] ++
    List.replicate 7 (.read true) ++ List.replicate 7 (.publish {}) ++
    List.replicate 8 (.read true)

theorem readings_words_interrupted :
    (interrupted.foldl WordSeqlock.step WordSeqlock.new).published =
        (interrupted.foldl step new).published ∧
      (interrupted.foldl WordSeqlock.step WordSeqlock.new).readings =
        (interrupted.foldl step new).readings ∧
      (interrupted.foldl step new).Untorn true :=
  readings_words (by decide) true

end SeqlockQuote

end Lob
