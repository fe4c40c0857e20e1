import Mathlib.Data.List.GetD
import Lob.Concurrent.Ingress
import Lob.Concurrent.MpscRing

/-!
# The single-writer pipeline

`SingleWriterPipeline` composes the many-producer ring, the order book and the
seqlock. Producers and readers take the steps of the ring and of the seqlock;
the consumer's `drain` takes those of the pops and of the publish. The book
belongs to the consumer, so applying a command to it is one step.
-/

namespace Lob

namespace SingleWriterPipeline

/-- Where the consumer is in `drain`. -/
inductive Drain where
  | idle
  /-- In the loop, with `n` commands of at most `maxCmds` applied. -/
  | popping (n maxCmds : Nat)
  /-- A command has been popped and is about to be applied. -/
  | applying (cmd : IngressCmd) (n maxCmds : Nat)
  /-- The loop has ended and the quote is being published. -/
  | publishing (q : Quote)
  deriving DecidableEq, Repr

end SingleWriterPipeline

/-- `class SingleWriterPipeline`, with the state of its threads and what they have done. -/
structure SingleWriterPipeline (ι ρ : Type) where
  ring : MpscRing ι IngressCmd
  book : OrderBook
  quotes : SeqlockQuote ρ
  applied : Nat
  drain : SingleWriterPipeline.Drain
  /-- The commands applied, in order. -/
  commands : List IngressCmd
  /-- The numbers of commands applied when the loop of a drain ended. -/
  drained : List Nat

namespace SingleWriterPipeline

variable {ι ρ : Type}

def new (bookOrders : Nat) : SingleWriterPipeline ι ρ :=
  { ring := .new, book := .new bookOrders, quotes := .new, applied := 0, drain := .idle
    commands := [], drained := [] }

/-- After the loop, `drain` publishes the quote if it has applied a command. -/
def finish (s : SingleWriterPipeline ι ρ) (n : Nat) : SingleWriterPipeline ι ρ :=
  { s with
    drained := s.drained ++ [s.commands.length]
    drain := if n = 0 then .idle else .publishing s.book.inside }

/-- The next step of the consumer; an idle one calls `drain` with `maxCmds`. -/
def drainStep (k : Nat) (s : SingleWriterPipeline ι ρ) (maxCmds : Nat) :
    SingleWriterPipeline ι ρ :=
  match s.drain with
  | .idle => { s with drain := .popping 0 maxCmds }
  | .popping n max =>
    if s.ring.consumer = .idle ∧ max ≤ n then s.finish n
    else
      match s.ring.popStep k with
      | (.running, ring) => { s with ring }
      | (.refused, ring) => { s with ring }.finish n
      | (.done cmd, ring) => { s with ring, drain := .applying cmd n max }
  | .applying cmd n max =>
    { s with
      book := (s.book.ingest cmd).2
      applied := s.applied + 1
      commands := s.commands ++ [cmd]
      drain := .popping (n + 1) max }
  | .publishing q =>
    let quotes := s.quotes.publishStep q
    { s with quotes, drain := if quotes.writer = .idle then .idle else .publishing q }

variable [DecidableEq ι]

/-- One of the threads takes a step. -/
inductive Action (ι ρ : Type) where
  | submit (i : ι) (cmd : IngressCmd) (weak : Bool)
  | drain (maxCmds : Nat)
  | read (r : ρ)
  deriving DecidableEq, Repr

/-- The pipeline after a step. -/
def step [DecidableEq ρ] (k : Nat) (s : SingleWriterPipeline ι ρ) :
    Action ι ρ → SingleWriterPipeline ι ρ
  | .submit i cmd weak => { s with ring := (s.ring.pushStep k i cmd weak).2 }
  | .drain maxCmds => s.drainStep k maxCmds
  | .read r => { s with quotes := s.quotes.readStep r }

/-- The states of any interleaving of producers, consumer and readers. -/
def Reachable [DecidableEq ρ] (k bookOrders : Nat) : SingleWriterPipeline ι ρ → Prop :=
  Run.Reach (step k) (fun _ _ => True) (new bookOrders)

/-- The quote is that of the sequential book when a drain ended after `n` commands, or the
initial one. -/
def Current (bookOrders : Nat) (s : SingleWriterPipeline ι ρ) (n : Nat) (q : Quote) : Prop :=
  n = 0 ∧ q = {} ∨
    n ∈ s.drained ∧ n ≤ s.commands.length ∧
      q = ((OrderBook.new bookOrders).sequential (s.commands.take n)).inside

/-- The pipeline does what applying the claimed commands one by one does. -/
structure Sequential (bookOrders : Nat) (s : SingleWriterPipeline ι ρ) : Prop where
  /-- The commands are applied in claim order. -/
  inOrder : s.commands <+: s.ring.claims.map Prod.snd
  applied : s.applied = s.commands.length
  book : s.book = (OrderBook.new bookOrders).sequential s.commands
  /-- Every reader sees quotes of the sequential book, of more and more commands. -/
  reads : ∀ r, ∃ ns : List Nat, ns.Pairwise (· ≤ ·) ∧
    List.Forall₂ (fun n x => s.Current bookOrders n x.quote) ns (s.quotes.readings r)

/-- What the consumer holds while it drains. -/
def Draining (s : SingleWriterPipeline ι ρ) : Prop :=
  match s.drain with
  | .idle | .popping _ _ => s.quotes.writer = .idle ∧ s.ring.popped = s.commands
  | .applying cmd _ _ => s.quotes.writer = .idle ∧ s.ring.popped = s.commands ++ [cmd]
  | .publishing q =>
    (∀ q' i, s.quotes.writer = .storing q' i → q' = q) ∧ s.ring.popped = s.commands ∧
      q = s.book.inside ∧ s.commands.length ∈ s.drained

/-- A quote is that of the sequential book when a drain ended. -/
def Cut (bookOrders : Nat) (s : SingleWriterPipeline ι ρ) (n : Nat) (q : Quote) : Prop :=
  n ∈ s.drained ∧ n ≤ s.commands.length ∧
    q = ((OrderBook.new bookOrders).sequential (s.commands.take n)).inside

/-- The invariant of the pipeline. -/
structure Valid (k bookOrders : Nat) (s : SingleWriterPipeline ι ρ) : Prop where
  ring : s.ring.Valid k
  quotes : s.quotes.Valid
  draining : s.Draining
  applied : s.applied = s.commands.length
  book : s.book = (OrderBook.new bookOrders).sequential s.commands
  drained : ∀ n ∈ s.drained, n ≤ s.commands.length
  /-- The published quotes are of more and more commands. -/
  published : ∃ ns : List Nat, ns.Pairwise (· ≤ ·) ∧
    List.Forall₂ (s.Cut bookOrders) ns s.quotes.published

variable {k bookOrders : Nat} {s s' : SingleWriterPipeline ι ρ}

omit [DecidableEq ι] in
/-- Later commands and drains do not change what a published quote is of. -/
theorem Cut.mono {n : Nat} {q : Quote} (h : s.Cut bookOrders n q)
    (hc : s.commands <+: s'.commands) (hd : s.drained ⊆ s'.drained) : s'.Cut bookOrders n q := by
  obtain ⟨hmem, hle, hq⟩ := h
  obtain ⟨cs, hcs⟩ := hc
  refine ⟨hd hmem, ?_, ?_⟩
  · rw [← hcs, List.length_append]
    omega
  · rw [← hcs, List.take_append_of_le_length hle]
    exact hq

omit [DecidableEq ι] in
/-- What a pop hands out is what it adds to the popped values. -/
theorem popped_popStep (ring : MpscRing ι IngressCmd) :
    (ring.popStep k).2.popped = ring.popped ++
      (match (ring.popStep k).1 with
        | .done cmd => [cmd]
        | _ => []) := by
  unfold MpscRing.popStep
  cases hs : ring.consumer with
  | idle | reading | releasing => simp
  | checking pos =>
    dsimp only
    split
    · simp
    · simp
  | advancing pos out => rfl

/-- A step that leaves the commands, the drains and the published quotes alone. -/
theorem Valid.frame (h : s.Valid k bookOrders) (hring : s'.ring.Valid k) (hq : s'.quotes.Valid)
    (hd : s'.Draining) (ha : s'.applied = s.applied) (hb : s'.book = s.book)
    (hc : s'.commands = s.commands) (hn : s'.drained = s.drained)
    (hp : s'.quotes.published = s.quotes.published) : s'.Valid k bookOrders where
  ring := hring
  quotes := hq
  draining := hd
  applied := by
    rw [ha, hc]
    exact h.applied
  book := by
    rw [hb, hc]
    exact h.book
  drained := by
    rw [hn, hc]
    exact h.drained
  published := by
    obtain ⟨ns, hns, hcut⟩ := h.published
    rw [hp]
    exact ⟨ns, hns, hcut.imp fun n q hnq => hnq.mono (hc ▸ List.prefix_rfl)
      (hn ▸ fun _ => id)⟩

theorem popped_pushStep (ring : MpscRing ι IngressCmd) (i : ι) (cmd : IngressCmd) (weak : Bool) :
    (ring.pushStep k i cmd weak).2.popped = ring.popped := by
  unfold MpscRing.pushStep
  cases hs : ring.producers i with
  | idle | reloading | writing | publishing => rfl
  | checking v pos =>
    dsimp only
    split
    · rfl
    · split
      · rfl
      · rfl
  | claiming v pos =>
    dsimp only
    split
    · rfl
    · rfl

/-- A producer changes only the ring. -/
theorem Valid.submit (h : s.Valid k bookOrders) (hk : 0 < k) (i : ι) (cmd : IngressCmd)
    (weak : Bool) :
    ({ s with ring := (s.ring.pushStep k i cmd weak).2 } :
      SingleWriterPipeline ι ρ).Valid k bookOrders := by
  refine h.frame (h.ring.push hk i cmd weak) h.quotes ?_ rfl rfl rfl rfl rfl
  have hd := h.draining
  unfold Draining at hd ⊢
  dsimp only
  rw [popped_pushStep]
  exact hd

omit [DecidableEq ι] in
theorem readStep_writer [DecidableEq ρ] (quotes : SeqlockQuote ρ) (r : ρ) :
    (quotes.readStep r).writer = quotes.writer ∧
      (quotes.readStep r).published = quotes.published := by
  have hload (first : Nat) (q : Quote) : (quotes.loadSeq r first q).writer = quotes.writer ∧
      (quotes.loadSeq r first q).published = quotes.published := by
    unfold SeqlockQuote.loadSeq
    split
    · exact ⟨rfl, rfl⟩
    · exact ⟨rfl, rfl⟩
  unfold SeqlockQuote.readStep
  cases quotes.readers r with
  | idle => exact hload _ _
  | retrying first q => exact hload first q
  | loading first s₁ i q =>
    dsimp only
    split
    · exact ⟨rfl, rfl⟩
    · split
      · exact ⟨rfl, rfl⟩
      · exact ⟨rfl, rfl⟩

/-- A reader changes only the seqlock, and nothing of what is published. -/
theorem Valid.read [DecidableEq ρ] (h : s.Valid k bookOrders) (r : ρ) :
    ({ s with quotes := s.quotes.readStep r } :
      SingleWriterPipeline ι ρ).Valid k bookOrders := by
  obtain ⟨hw, hp⟩ := readStep_writer s.quotes r
  refine h.frame h.ring (h.quotes.read r) ?_ rfl rfl rfl rfl hp
  have hd := h.draining
  unfold Draining at hd ⊢
  dsimp only
  rw [hw]
  exact hd

/-- The end of the loop marks a cut. -/
theorem Valid.finish (h : s.Valid k bookOrders) {n max : Nat} (hs : s.drain = .popping n max) :
    (s.finish n).Valid k bookOrders := by
  have hd := h.draining
  simp only [Draining, hs] at hd
  refine { h with draining := ?_, drained := fun m hm => ?_, published := ?_ }
  · by_cases hn : n = 0
    · simp only [Draining, SingleWriterPipeline.finish, if_pos hn]
      exact hd
    · simp only [Draining, SingleWriterPipeline.finish, if_neg hn]
      refine ⟨fun q' i hq => ?_, hd.2, trivial, List.mem_append_right _ List.mem_cons_self⟩
      rw [hd.1] at hq
      contradiction
  · rcases List.mem_append.mp hm with hm | hm
    · exact h.drained m hm
    · obtain rfl := List.mem_singleton.mp hm
      exact Nat.le_refl _
  · obtain ⟨ns, hns, hcut⟩ := h.published
    exact ⟨ns, hns, hcut.imp fun n q hnq => hnq.mono List.prefix_rfl (List.subset_append_left _ _)⟩

/-- A popped command is applied to the book. -/
theorem Valid.apply (h : s.Valid k bookOrders) {cmd : IngressCmd} {n max : Nat}
    (hs : s.drain = .applying cmd n max) : ({ s with
      book := (s.book.ingest cmd).2
      applied := s.applied + 1
      commands := s.commands ++ [cmd]
      drain := .popping (n + 1) max } : SingleWriterPipeline ι ρ).Valid k bookOrders := by
  have hd := h.draining
  simp only [Draining, hs] at hd
  have hlen : (s.commands ++ [cmd]).length = s.commands.length + 1 := by simp
  refine { h with
    draining := hd, applied := ?_, book := ?_, drained := fun m hm => ?_, published := ?_ }
  · dsimp only
    rw [hlen, h.applied]
  · simp only [OrderBook.sequential, List.foldl_append, List.foldl_cons, List.foldl_nil, h.book]
  · have hle := h.drained m hm
    dsimp only
    omega
  · obtain ⟨ns, hns, hcut⟩ := h.published
    exact ⟨ns, hns, hcut.imp fun n q hnq => hnq.mono (List.prefix_append _ _) fun _ => id⟩

/-- The publish of a drain stores the quote of its cut. -/
theorem Valid.publish (h : s.Valid k bookOrders) {q : Quote} (hs : s.drain = .publishing q) :
    ({ s with
      quotes := s.quotes.publishStep q
      drain := if (s.quotes.publishStep q).writer = .idle then .idle else .publishing q } :
      SingleWriterPipeline ι ρ).Valid k bookOrders := by
  have hd := h.draining
  simp only [Draining, hs] at hd
  obtain ⟨hw, hpop, hq, hmem⟩ := hd
  have hv := h.quotes.publish q
  cases hwr : s.quotes.writer with
  | idle =>
    have hstep : s.quotes.publishStep q =
        { s.quotes with seq := s.quotes.seq + 1, writer := .storing q 0 } := by
      simp only [SeqlockQuote.publishStep, hwr]
    rw [hstep] at hv ⊢
    refine h.frame h.ring hv ?_ rfl rfl rfl rfl rfl
    simp only [Draining, reduceCtorEq, if_false]
    refine ⟨fun q' i hq' => ?_, hpop, hq, hmem⟩
    cases hq'
    rfl
  | storing q' i =>
    obtain rfl := hw q' i hwr
    by_cases hi : i < 6
    · have hstep : s.quotes.publishStep q' =
          { s.quotes with cells := q'.copy i s.quotes.cells, writer := .storing q' (i + 1) } := by
        simp only [SeqlockQuote.publishStep, hwr, if_pos hi]
      rw [hstep] at hv ⊢
      refine h.frame h.ring hv ?_ rfl rfl rfl rfl rfl
      simp only [Draining, reduceCtorEq, if_false]
      refine ⟨fun q'' j hq' => ?_, hpop, hq, hmem⟩
      cases hq'
      rfl
    · have hstep : s.quotes.publishStep q' =
          { s.quotes with
            seq := s.quotes.seq + 1, writer := .idle
            published := s.quotes.published ++ [q'] } := by
        simp only [SeqlockQuote.publishStep, hwr, if_neg hi]
      rw [hstep] at hv ⊢
      refine { h with quotes := hv, draining := ⟨rfl, hpop⟩, published := ?_ }
      obtain ⟨ns, hns, hcut⟩ := h.published
      refine ⟨ns ++ [s.commands.length], ?_, ?_⟩
      · refine List.pairwise_append.mpr ⟨hns, List.pairwise_singleton _ _, fun n hn m hm => ?_⟩
        obtain rfl := List.mem_singleton.mp hm
        obtain ⟨i, hlt, rfl⟩ := List.mem_iff_getElem.mp hn
        exact (hcut.get hlt (hcut.length_eq ▸ hlt)).2.1
      · refine List.rel_append hcut (List.Forall₂.cons ⟨hmem, Nat.le_refl _, ?_⟩ List.Forall₂.nil)
        rw [List.take_length, ← h.book]
        exact hq

/-- A pop that is refused ends the loop, and one that succeeds hands over a command. -/
theorem Valid.pop (h : s.Valid k bookOrders) {n max : Nat} (hs : s.drain = .popping n max) :
    (match s.ring.popStep k with
      | (.running, ring) => { s with ring }
      | (.refused, ring) => { s with ring }.finish n
      | (.done cmd, ring) => { s with ring, drain := .applying cmd n max } :
      SingleWriterPipeline ι ρ).Valid k bookOrders := by
  have hd := h.draining
  have hring := h.ring.pop
  have hpop := popped_popStep (k := k) s.ring
  simp only [Draining, hs] at hd
  obtain ⟨hw, hc⟩ := hd
  rw [hc] at hpop
  rcases hout : s.ring.popStep k with ⟨_ | _ | cmd, ring⟩
  all_goals
    rw [hout] at hring hpop
    dsimp only at hring hpop ⊢
  · rw [List.append_nil] at hpop
    refine h.frame hring h.quotes ?_ rfl rfl rfl rfl rfl
    simp only [Draining, hs]
    exact ⟨hw, hpop⟩
  · rw [List.append_nil] at hpop
    have hv : ({ s with ring } : SingleWriterPipeline ι ρ).Valid k bookOrders := by
      refine h.frame hring h.quotes ?_ rfl rfl rfl rfl rfl
      simp only [Draining, hs]
      exact ⟨hw, hpop⟩
    exact hv.finish hs
  · exact h.frame hring h.quotes ⟨hw, hpop⟩ rfl rfl rfl rfl rfl

/-- Every step of the consumer keeps the invariant. -/
theorem Valid.drain (h : s.Valid k bookOrders) (maxCmds : Nat) :
    (s.drainStep k maxCmds).Valid k bookOrders := by
  have hd := h.draining
  unfold drainStep
  cases hs : s.drain with
  | idle =>
    simp only [Draining, hs] at hd
    exact h.frame h.ring h.quotes hd rfl rfl rfl rfl rfl
  | popping n max =>
    dsimp only
    split
    · exact h.finish hs
    · simpa only [hs] using h.pop hs
  | applying cmd n max => exact h.apply hs
  | publishing q => exact h.publish hs

theorem valid_new : (new bookOrders : SingleWriterPipeline ι ρ).Valid k bookOrders where
  ring := MpscRing.valid_new
  quotes := SeqlockQuote.valid_new
  draining := ⟨rfl, rfl⟩
  applied := rfl
  book := rfl
  drained n hn := by simp [new] at hn
  published := ⟨[], List.Pairwise.nil, List.Forall₂.nil⟩

theorem Reachable.valid [DecidableEq ρ] (h : Reachable k bookOrders s) (hk : 0 < k) :
    s.Valid k bookOrders :=
  Run.Reach.invariant (I := Valid k bookOrders) h valid_new fun s a hs _ => by
    cases a with
    | submit i cmd weak => exact hs.submit hk i cmd weak
    | drain maxCmds => exact hs.drain maxCmds
    | read r => exact hs.read r

/-- The commands applied are claimed in their order. -/
theorem Valid.inOrder (h : s.Valid k bookOrders) :
    s.commands <+: s.ring.claims.map Prod.snd := by
  have hd := h.draining
  have hring := h.ring.inOrder
  unfold Draining at hd
  cases hs : s.drain with
  | idle | popping =>
    simp only [hs] at hd
    exact hd.2 ▸ hring
  | applying cmd n max =>
    simp only [hs] at hd
    exact (List.prefix_append _ _).trans (hd.2 ▸ hring)
  | publishing q =>
    simp only [hs] at hd
    exact hd.2.1 ▸ hring

/-- The completed publishes of a reader's quotes are those of cuts. -/
theorem Valid.reads (h : s.Valid k bookOrders) (r : ρ) : ∃ ns : List Nat, ns.Pairwise (· ≤ ·) ∧
    List.Forall₂ (fun n x => s.Current bookOrders n x.quote) ns (s.quotes.readings r) := by
  obtain ⟨ns, hns, hcut⟩ := h.published
  obtain ⟨ks, hks, hread⟩ := h.quotes.untorn r
  have hsorted : (0 :: ns).Pairwise (· ≤ ·) :=
    List.pairwise_cons.mpr ⟨fun _ _ => Nat.zero_le _, hns⟩
  -- publish `k` is that of cut `ns[k - 1]`, and the initial quote is that of no command
  have hbound {j : Nat} (hj : j ∈ ks) : j < (0 :: ns).length := by
    obtain ⟨i, hi, rfl⟩ := List.mem_iff_getElem.mp hj
    have hx := hread.get hi (hread.length_eq ▸ hi)
    obtain ⟨_, hlast, hlen, _⟩ := hx
    rw [List.length_cons, hcut.length_eq]
    simp only [List.get_eq_getElem] at hlast hlen
    omega
  refine ⟨ks.map fun j => (0 :: ns).getD j 0, ?_, ?_⟩
  · rw [List.pairwise_map]
    refine hks.imp_of_mem fun {i j} hi hj hij => ?_
    rw [List.getD_eq_getElem _ _ (hbound hi), List.getD_eq_getElem _ _ (hbound hj)]
    rcases Nat.eq_or_lt_of_le hij with rfl | hlt
    · exact Nat.le_refl _
    · exact List.pairwise_iff_getElem.mp hsorted i j (hbound hi) (hbound hj) hlt
  · refine List.forall₂_map_left_iff.mpr (hread.imp fun j x hx => ?_)
    obtain ⟨_, _, _, hv⟩ := hx
    unfold SeqlockQuote.version at hv
    cases j with
    | zero => exact Or.inl ⟨rfl, (Option.some.inj hv).symm⟩
    | succ j =>
      rw [List.getElem?_cons_succ] at hv
      obtain ⟨hlt, hj⟩ := List.getElem?_eq_some_iff.mp hv
      have hn : j < ns.length := hcut.length_eq ▸ hlt
      have hc := hcut.get hn hlt
      simp only [List.get_eq_getElem, hj] at hc
      rw [List.getD_cons_succ, List.getD_eq_getElem _ _ hn]
      exact Or.inr hc

/-- In every interleaving the pipeline does what its commands do one by one. -/
theorem reachable_sequential [DecidableEq ρ] (hk : 0 < k) (h : Reachable k bookOrders s) :
    s.Sequential bookOrders where
  inOrder := (h.valid hk).inOrder
  applied := (h.valid hk).applied
  book := (h.valid hk).book
  reads := (h.valid hk).reads

/-- Two producers submit, a drain stops after the first command, and a reader gets its quote. -/
def drainedPipeline : SingleWriterPipeline Bool Unit :=
  (List.replicate 8 (.read ()) ++
    List.replicate 5 (.submit false { side := .sell, price := 101, qty := 5 } false) ++
    List.replicate 5 (.submit true { side := .buy, price := 99, qty := 2 } false) ++
    List.replicate 16 (.drain 1) ++ List.replicate 8 (.read ()) :
    List (Action Bool Unit)).foldl (step 1) (new 2)

theorem reachable_sequential_drained : drainedPipeline.Sequential 2 :=
  reachable_sequential (by decide) (Run.Reach.foldl Run.Reach.init (by decide))

end SingleWriterPipeline

end Lob
