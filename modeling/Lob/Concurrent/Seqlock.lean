import Mathlib.Data.List.Forall2
import Mathlib.Logic.Function.Basic
import Lob.Core.Run
import Lob.Model.Order

/-!
# The seqlock quote

`SeqlockQuote` with one writer and any number of readers, one atomic load or
store at a time. The completed publishes and the results of the reads are
history: no step reads them.
-/

namespace Lob

/-- `struct Quote`. -/
structure Quote where
  bid : Int := 0
  ask : Int := 0
  bidQty : Qty := 0
  askQty : Qty := 0
  hasBid : Bool := false
  hasAsk : Bool := false
  deriving DecidableEq, Repr, Inhabited

namespace Quote

/-- Copy the `i`-th field of `q`, in the order of the source, into `r`. -/
def copy (i : Nat) (q r : Quote) : Quote :=
  match i with
  | 0 => { r with bid := q.bid }
  | 1 => { r with ask := q.ask }
  | 2 => { r with bidQty := q.bidQty }
  | 3 => { r with askQty := q.askQty }
  | 4 => { r with hasBid := q.hasBid }
  | 5 => { r with hasAsk := q.hasAsk }
  | _ => r

/-- The first `i` fields are the same. -/
def Agree (q r : Quote) : Nat → Prop
  | 0 => True
  | i + 1 => q.Agree r i ∧ q.copy i r = r

theorem agree_copy (q r : Quote) {i : Nat} (hi : i < 6) (h : q.Agree r i) :
    q.Agree (q.copy i r) (i + 1) := by
  obtain ⟨b, a, bq, aq, hb, ha⟩ := q
  obtain ⟨b', a', bq', aq', hb', ha'⟩ := r
  match i with
  | 0 | 1 | 2 | 3 | 4 | 5 => simp_all [Agree, copy]

theorem eq_of_agree {q r : Quote} (h : q.Agree r 6) : q = r := by
  obtain ⟨b, a, bq, aq, hb, ha⟩ := q
  obtain ⟨b', a', bq', aq', hb', ha'⟩ := r
  simpa [Agree, copy, and_assoc] using h

end Quote

/-- Where the writer is in `publish`. -/
inductive Writer where
  | idle
  /-- `seq_` is odd and field `i` is stored next; after the last one `seq_` is made even. -/
  | storing (q : Quote) (i : Nat)
  deriving DecidableEq, Repr

/-- Where a reader is in `read`. `first` counts the publishes completed at its first step. -/
inductive Reader where
  | idle
  /-- `seq_` was odd or has changed. -/
  | retrying (first : Nat) (q : Quote)
  /-- `seq_` was `s₁` and field `i` is loaded next; after the last one `seq_` is loaded again. -/
  | loading (first s₁ : Nat) (i : Nat) (q : Quote)
  deriving DecidableEq, Repr

/-- The publishes completed when the reader began its read. -/
def Reader.began : Reader → Option Nat
  | .idle => none
  | .retrying first _ | .loading first _ _ _ => some first

/-- A completed `read`, with the number of publishes completed at its first and last step. -/
structure Reading where
  quote : Quote
  first : Nat
  last : Nat
  deriving DecidableEq, Repr

/-- `class SeqlockQuote`, with the state of its threads and what they have done. -/
structure SeqlockQuote (ρ : Type) where
  seq : Nat
  /-- The six payload atomics. -/
  cells : Quote
  writer : Writer
  readers : ρ → Reader
  /-- The quotes of completed publishes, in order. -/
  published : List Quote
  readings : ρ → List Reading

namespace SeqlockQuote

variable {ρ : Type}

def new : SeqlockQuote ρ :=
  { seq := 0, cells := {}, writer := .idle, readers := fun _ => .idle, published := []
    readings := fun _ => [] }

/-- The next atomic step of the writer; an idle one calls `publish` with `q`. -/
def publishStep (s : SeqlockQuote ρ) (q : Quote) : SeqlockQuote ρ :=
  match s.writer with
  | .idle => { s with seq := s.seq + 1, writer := .storing q 0 }
  | .storing q i =>
    if i < 6 then { s with cells := q.copy i s.cells, writer := .storing q (i + 1) }
    else { s with seq := s.seq + 1, writer := .idle, published := s.published ++ [q] }

variable [DecidableEq ρ]

/-- A reader at the head of the loop, loading `seq_`. -/
def loadSeq (s : SeqlockQuote ρ) (r : ρ) (first : Nat) (q : Quote) : SeqlockQuote ρ :=
  if s.seq % 2 = 1 then { s with readers := Function.update s.readers r (.retrying first q) }
  else { s with readers := Function.update s.readers r (.loading first s.seq 0 q) }

/-- The next atomic step of a reader; an idle one calls `read`. -/
def readStep (s : SeqlockQuote ρ) (r : ρ) : SeqlockQuote ρ :=
  match s.readers r with
  | .idle => s.loadSeq r s.published.length {}
  | .retrying first q => s.loadSeq r first q
  | .loading first s₁ i q =>
    if i < 6 then
      { s with
        readers := Function.update s.readers r (.loading first s₁ (i + 1) (s.cells.copy i q)) }
    else if s₁ = s.seq then
      { s with
        readers := Function.update s.readers r .idle
        readings := Function.update s.readings r
          (s.readings r ++ [⟨q, first, s.published.length⟩]) }
    else { s with readers := Function.update s.readers r (.retrying first q) }

/-- One of the threads takes a step. -/
inductive Action (ρ : Type) where
  | publish (q : Quote)
  | read (r : ρ)
  deriving DecidableEq, Repr

def step (s : SeqlockQuote ρ) : Action ρ → SeqlockQuote ρ
  | .publish q => s.publishStep q
  | .read r => s.readStep r

/-- The states of any interleaving of the writer and the readers. -/
def Reachable : SeqlockQuote ρ → Prop := Run.Reach step (fun _ _ => True) new

/-- The quote of the `k`-th completed publish, and the initial one for `0`. -/
def version (s : SeqlockQuote ρ) (k : Nat) : Option Quote := (({} : Quote) :: s.published)[k]?

/-- The reads of one reader return completed publishes, each current at some instant of its
read, and never go back. -/
def Untorn (s : SeqlockQuote ρ) (r : ρ) : Prop :=
  ∃ ks : List Nat, ks.Pairwise (· ≤ ·) ∧ List.Forall₂ (fun k x => x.first ≤ k ∧ k ≤ x.last ∧
    x.last ≤ s.published.length ∧ s.version k = some x.quote) ks (s.readings r)

/-- The parity of `seq_` and the stored fields follow the writer. -/
def Writing (s : SeqlockQuote ρ) : Prop :=
  match s.writer with
  | .idle => s.seq = 2 * s.published.length ∧ s.version s.published.length = some s.cells
  | .storing q i => s.seq = 2 * s.published.length + 1 ∧ i ≤ 6 ∧ q.Agree s.cells i

/-- What a reader has loaded is still there unless `seq_` has moved on. -/
def Loading (s : SeqlockQuote ρ) : Reader → Prop
  | .idle => True
  | .retrying first _ => first ≤ s.published.length
  | .loading first s₁ i q => i ≤ 6 ∧ s₁ ≤ s.seq ∧ (∃ k, s₁ = 2 * k ∧ first ≤ k) ∧
      first ≤ s.published.length ∧ (s.seq = s₁ → s.cells.Agree q i)

/-- The invariant of the seqlock. -/
structure Valid (s : SeqlockQuote ρ) : Prop where
  writing : s.Writing
  loading : ∀ r, s.Loading (s.readers r)
  readings : ∀ r, ∀ x ∈ s.readings r, x.last ≤ s.published.length ∧
    ∃ k, x.first ≤ k ∧ k ≤ x.last ∧ s.version k = some x.quote
  successive : ∀ r, (s.readings r).Pairwise fun x y => x.last ≤ y.first
  pending : ∀ r, ∀ first ∈ (s.readers r).began, ∀ x ∈ s.readings r, x.last ≤ first

variable {s s' : SeqlockQuote ρ} {r : ρ} {q : Quote}

omit [DecidableEq ρ] in
/-- An even `seq_` is that of an idle writer. -/
theorem Valid.idle (h : s.Valid) (heven : s.seq % 2 ≠ 1) :
    s.seq = 2 * s.published.length ∧ s.version s.published.length = some s.cells := by
  have hw := h.writing
  unfold Writing at hw
  cases hs : s.writer with
  | idle => simpa only [hs] using hw
  | storing q i =>
    simp only [hs] at hw
    omega

omit [DecidableEq ρ] in
theorem version_append {k : Nat} (hk : k ≤ s.published.length)
    (hp : s'.published = s.published ++ [q]) : s'.version k = s.version k := by
  unfold version
  rw [hp, ← List.cons_append]
  exact List.getElem?_append_left (Nat.lt_succ_of_le hk)

omit [DecidableEq ρ] in
/-- A step of the writer that leaves the count of publishes and moves `seq_` or keeps it odd. -/
theorem Valid.write (h : s.Valid) (hw : s'.Writing) (hp : s'.published = s.published)
    (hr : s'.readers = s.readers) (hg : s'.readings = s.readings) (hseq : s.seq ≤ s'.seq)
    (hodd : s'.seq % 2 = 1) : s'.Valid where
  writing := hw
  loading r := by
    have hl := h.loading r
    rw [hr]
    cases hs : s.readers r with
    | idle => trivial
    | retrying first q => simpa only [Loading, hs, hp] using hl
    | loading first s₁ i q =>
      simp only [Loading, hs, hp] at hl ⊢
      obtain ⟨hi, hle, ⟨k, hk, hfirst⟩, hn, _⟩ := hl
      refine ⟨hi, by omega, ⟨k, hk, hfirst⟩, hn, fun he => ?_⟩
      omega
  readings r x hx := by
    rw [hg] at hx
    unfold version
    rw [hp]
    exact h.readings r x hx
  successive r := by
    rw [hg]
    exact h.successive r
  pending r := by
    rw [hr, hg]
    exact h.pending r

omit [DecidableEq ρ] in
/-- Every step of the writer keeps the invariant. -/
theorem Valid.publish (h : s.Valid) (q : Quote) : (s.publishStep q).Valid := by
  have hw := h.writing
  unfold publishStep
  unfold Writing at hw
  cases hs : s.writer with
  | idle =>
    simp only [hs] at hw ⊢
    obtain ⟨hseq, _⟩ := hw
    exact h.write ⟨by dsimp only; omega, Nat.zero_le _, trivial⟩ rfl rfl rfl (Nat.le_succ _)
      (by dsimp only; omega)
  | storing q i =>
    simp only [hs] at hw ⊢
    obtain ⟨hseq, hi, hagree⟩ := hw
    split
    · next hlt =>
      exact h.write ⟨hseq, hlt, Quote.agree_copy q s.cells hlt hagree⟩ rfl rfl rfl
        (Nat.le_refl _) (by dsimp only; omega)
    · next hge =>
      obtain rfl : i = 6 := by omega
      have hcells := Quote.eq_of_agree hagree
      have hlen : (s.published ++ [q]).length = s.published.length + 1 := by simp
      constructor
      · refine ⟨by dsimp only; omega, ?_⟩
        unfold version
        dsimp only
        rw [hlen, List.getElem?_cons_succ, List.getElem?_concat_length, hcells]
      · intro r
        have hl := h.loading r
        dsimp only
        cases hr : s.readers r with
        | idle => trivial
        | retrying first q =>
          simp only [Loading, hr, hlen] at hl ⊢
          omega
        | loading first s₁ i q =>
          simp only [Loading, hr, hlen] at hl ⊢
          obtain ⟨hi, hle, hk, hn, _⟩ := hl
          refine ⟨hi, by omega, hk, by omega, fun he => ?_⟩
          omega
      · intro r x hx
        obtain ⟨hlast, k, hfirst, hk, hv⟩ := h.readings r x hx
        refine ⟨by simp only [hlen]; omega, k, hfirst, hk, ?_⟩
        rw [version_append (Nat.le_trans hk hlast) rfl]
        exact hv
      · exact h.successive
      · exact h.pending

/-- A step of a reader that completes no read. -/
theorem Valid.advance (h : s.Valid) {x : Reader} {first : Nat} (hx : s.Loading x)
    (hfirst : x.began = some first) (hr : ∀ y ∈ s.readings r, y.last ≤ first) :
    ({ s with readers := Function.update s.readers r x } : SeqlockQuote ρ).Valid where
  writing := h.writing
  loading t := by
    by_cases ht : t = r
    · subst ht
      simp only [Function.update_self]
      exact hx
    · simp only [Function.update_of_ne ht]
      exact h.loading t
  readings := h.readings
  successive := h.successive
  pending t f hf y hy := by
    by_cases ht : t = r
    · subst ht
      simp only [Function.update_self, hfirst, Option.mem_def, Option.some.injEq] at hf
      exact hf ▸ hr y hy
    · simp only [Function.update_of_ne ht] at hf
      exact h.pending t f hf y hy

theorem Valid.loadSeq (h : s.Valid) {first : Nat} (hfirst : first ≤ s.published.length)
    (hr : ∀ y ∈ s.readings r, y.last ≤ first) (q : Quote) : (s.loadSeq r first q).Valid := by
  unfold SeqlockQuote.loadSeq
  split
  · exact h.advance hfirst rfl hr
  · next heven =>
    have hseq := (h.idle heven).1
    exact h.advance ⟨Nat.zero_le _, Nat.le_refl _, ⟨_, hseq, hfirst⟩, hfirst, fun _ => trivial⟩
      rfl hr

/-- Every step of a reader keeps the invariant. -/
theorem Valid.read (h : s.Valid) (r : ρ) : (s.readStep r).Valid := by
  have hl := h.loading r
  have hp := h.pending r
  unfold readStep
  cases hs : s.readers r with
  | idle => exact h.loadSeq (Nat.le_refl _) (fun y hy => (h.readings r y hy).1) _
  | retrying first q =>
    rw [hs] at hl hp
    exact h.loadSeq hl (hp first rfl) q
  | loading first s₁ i q =>
    rw [hs] at hl hp
    obtain ⟨hi, hle, ⟨k, hk, hfirst⟩, hn, hsame⟩ := hl
    dsimp only
    split
    · next hlt =>
      refine h.advance ⟨hlt, hle, ⟨k, hk, hfirst⟩, hn, fun he => ?_⟩ rfl (hp first rfl)
      exact Quote.agree_copy s.cells q hlt (hsame he)
    · split
      · next hge heq =>
        obtain rfl : i = 6 := by omega
        obtain ⟨hseq, hcells⟩ := h.idle (by omega)
        have hq := Quote.eq_of_agree (hsame heq.symm)
        constructor
        · exact h.writing
        · intro t
          by_cases ht : t = r
          · subst ht
            simp only [Function.update_self]
            trivial
          · simp only [Function.update_of_ne ht]
            exact h.loading t
        · intro t x hx
          by_cases ht : t = r
          · subst ht
            simp only [Function.update_self, List.mem_append, List.mem_singleton] at hx
            rcases hx with hx | rfl
            · exact h.readings t x hx
            · exact ⟨Nat.le_refl _, s.published.length, hn, Nat.le_refl _, hq ▸ hcells⟩
          · simp only [Function.update_of_ne ht] at hx
            exact h.readings t x hx
        · intro t
          by_cases ht : t = r
          · subst ht
            simp only [Function.update_self, List.pairwise_append, List.pairwise_singleton,
              List.mem_singleton, forall_eq, true_and]
            exact ⟨h.successive t, hp first rfl⟩
          · simp only [Function.update_of_ne ht]
            exact h.successive t
        · intro t f hf x hx
          by_cases ht : t = r
          · subst ht
            simp only [Function.update_self] at hf
            contradiction
          · simp only [Function.update_of_ne ht] at hf hx
            exact h.pending t f hf x hx
      · exact h.advance hn rfl (hp first rfl)

omit [DecidableEq ρ] in
theorem valid_new : (new : SeqlockQuote ρ).Valid where
  writing := ⟨rfl, rfl⟩
  loading _ := trivial
  readings r x hx := by simp [new] at hx
  successive _ := List.Pairwise.nil
  pending r f hf := by simp [new, Reader.began] at hf

theorem Reachable.valid (h : Reachable s) : s.Valid :=
  Run.Reach.invariant (I := Valid) h valid_new fun s a hs _ => by
    cases a with
    | publish q => exact hs.publish q
    | read r => exact hs.read r

omit [DecidableEq ρ] in
/-- The readings of the invariant are ordered by the publishes they return. -/
theorem Valid.untorn (h : s.Valid) (r : ρ) : s.Untorn r := by
  have hall := h.readings r
  have hsucc := h.successive r
  unfold Untorn
  generalize s.readings r = xs at hall hsucc
  induction xs with
  | nil => exact ⟨[], List.Pairwise.nil, List.Forall₂.nil⟩
  | cons x xs ih =>
    obtain ⟨hlast, k, hfirst, hk, hq⟩ := hall x List.mem_cons_self
    obtain ⟨hx, hxs⟩ := List.pairwise_cons.mp hsucc
    obtain ⟨ks, hks, hrest⟩ := ih (fun y hy => hall y (List.mem_cons_of_mem x hy)) hxs
    refine ⟨k :: ks, List.pairwise_cons.mpr ⟨fun j hj => ?_, hks⟩,
      List.Forall₂.cons ⟨hfirst, hk, hlast, hq⟩ hrest⟩
    obtain ⟨i, hi, rfl⟩ := List.mem_iff_getElem.mp hj
    have hlen := hrest.length_eq
    have hij := hrest.get hi (by omega)
    have hle := hx _ (List.getElem_mem (l := xs) (n := i) (by omega))
    have hlo : xs[i].first ≤ ks[i] := hij.1
    omega

/-- No read is torn or goes back, in any interleaving. -/
theorem reachable_untorn (h : Reachable s) (r : ρ) : s.Untorn r := h.valid.untorn r

/-- A read that meets a publish halfway, retries, and returns the new quote. -/
def retriedRead : SeqlockQuote (Fin 1) :=
  ([.read 0, .read 0, .publish ⟨10, 11, 3, 4, true, true⟩] ++ List.replicate 7 (.read 0) ++
    List.replicate 7 (.publish {}) ++ List.replicate 8 (.read 0) : List (Action (Fin 1))).foldl
      step new

theorem reachable_untorn_retried : retriedRead.Untorn 0 :=
  reachable_untorn (Run.Reach.foldl Run.Reach.init (by decide)) 0

end SeqlockQuote

end Lob
