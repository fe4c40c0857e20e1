import Mathlib.Algebra.BigOperators.Intervals
import Mathlib.Algebra.Order.BigOperators.Group.Finset
import Mathlib.Logic.Function.Basic
import Lob.Concurrent.Shards

/-!
# Sharded books under their mutexes

`ShardedBooks` with any number of threads in `submit`, `quote` and `applied`,
each step one access to a mutex, a book or a counter. A command reads its book
and stores it back in two steps, and a quote reads the two sides of the book in
two steps, so only the mutex keeps them whole. `applied` takes no lock.
-/

namespace Lob

namespace OrderBook

/-- The first half of a quote, the bid of the inside market. -/
def insideBid (b : OrderBook) : Quote :=
  match b.bestBid with
  | some px => { ({} : Quote) with hasBid := true, bid := px, bidQty := b.bestQty .buy }
  | none => {}

/-- The second half of a quote, the ask. -/
def insideAsk (b : OrderBook) (q : Quote) : Quote :=
  match b.bestAsk with
  | some px => { q with hasAsk := true, ask := px, askQty := b.bestQty .sell }
  | none => q

theorem insideAsk_insideBid (b : OrderBook) : b.insideAsk b.insideBid = b.inside := rfl

end OrderBook

/-- Where a thread is. The numbers in front are the lengths of the history at the call. -/
inductive Worker where
  | idle
  /-- `submit` locks the mutex next. -/
  | locking (cmd : IngressCmd)
  /-- The book is about to be read. -/
  | loading (cmd : IngressCmd)
  /-- The book after the command is about to be stored. -/
  | storing (cmd : IngressCmd) (b : OrderBook)
  /-- `applied.fetch_add` is next. -/
  | counting (cmd : IngressCmd)
  | unlocking (cmd : IngressCmd)
  /-- `quote` locks the mutex next. -/
  | waiting (first instrument : Nat)
  /-- The bid side is about to be read. -/
  | asking (first instrument : Nat)
  /-- The ask side is about to be read. -/
  | answering (first instrument : Nat) (q : Quote)
  | leaving (first instrument : Nat) (q : Quote)
  /-- `applied` has added up the counters of the shards before shard `j`. -/
  | summing (first j n : Nat)

/-- `struct Shard` with the thread that holds its mutex. -/
structure LockedShard (ι : Type) where
  owner : Option ι
  book : OrderBook
  applied : Nat

namespace Worker

/-- The shard whose mutex the thread holds. -/
def holds (nShards : Nat) : Worker → Option Nat
  | loading cmd | storing cmd _ | counting cmd | unlocking cmd => some (cmd.instrument % nShards)
  | asking _ instrument | answering _ instrument _ | leaving _ instrument _ =>
    some (instrument % nShards)
  | _ => none

/-- The command called and not yet stored. -/
def pending : Worker → List IngressCmd
  | locking cmd | loading cmd | storing cmd _ => [cmd]
  | _ => []

/-- A command is stored and not yet counted in shard `j`. -/
def Counts (nShards j : Nat) : Worker → Prop
  | counting cmd => cmd.instrument % nShards = j
  | _ => False

/-- A thread that has a count to make holds the mutex. -/
theorem Counts.holds {nShards j : Nat} {w : Worker} (h : w.Counts nShards j) :
    w.holds nShards = some j := by
  cases w with
  | counting cmd => exact congrArg some h
  | idle | locking | loading | storing | unlocking | waiting | asking | answering | leaving |
    summing => exact h.elim

end Worker

/-- What `quote` returned, with the commands stored at its call and at its return. -/
structure Answer where
  instrument : Nat
  quote : Quote
  first : Nat
  last : Nat

/-- What `applied` returned, with the sum of the counters at its call and at its return. -/
structure AppliedSum where
  total : Nat
  first : Nat
  last : Nat

/-- `class ShardedBooks` with its threads and what they have done. -/
structure LockedBooks (ι : Type) where
  shards : Nat → LockedShard ι
  workers : ι → Worker
  /-- The commands whose book has been stored, with their threads, in that order. -/
  order : List (ι × IngressCmd)
  /-- The commands each thread has called `submit` with. -/
  called : ι → List IngressCmd
  answers : List Answer
  tallies : List AppliedSum

namespace LockedBooks

variable {ι : Type}

def new (bookOrders : Nat) : LockedBooks ι :=
  { shards := fun _ => ⟨none, .new bookOrders, 0⟩, workers := fun _ => .idle, order := []
    called := fun _ => [], answers := [], tallies := [] }

/-- The sum of the counters. -/
def counted (nShards : Nat) (s : LockedBooks ι) : Nat :=
  ∑ j ∈ Finset.range nShards, (s.shards j).applied

/-- What an idle thread calls. -/
inductive Call where
  | submit (cmd : IngressCmd)
  | quote (instrument : Nat)
  | applied
  deriving DecidableEq, Repr

variable [DecidableEq ι]

def setWorker (s : LockedBooks ι) (i : ι) (w : Worker) : LockedBooks ι :=
  { s with workers := Function.update s.workers i w }

def setShard (s : LockedBooks ι) (j : Nat) (sh : LockedShard ι) : LockedBooks ι :=
  { s with shards := Function.update s.shards j sh }

def setOwner (s : LockedBooks ι) (j : Nat) (owner : Option ι) : LockedBooks ι :=
  s.setShard j { s.shards j with owner }

/-- `mutex::lock`: the thread goes on to `w` when the mutex is free. -/
def lock (s : LockedBooks ι) (i : ι) (j : Nat) (w : Worker) : LockedBooks ι :=
  match (s.shards j).owner with
  | some _ => s
  | none => (s.setOwner j (some i)).setWorker i w

def unlock (s : LockedBooks ι) (i : ι) (j : Nat) : LockedBooks ι :=
  (s.setOwner j none).setWorker i .idle

/-- The next step of thread `i`; an idle one makes the call. -/
def step (nShards : Nat) (s : LockedBooks ι) (a : ι × Call) : LockedBooks ι :=
  let i := a.1
  match s.workers i with
  | .idle =>
    match a.2 with
    | .submit cmd =>
      { s.setWorker i (.locking cmd) with
        called := Function.update s.called i (s.called i ++ [cmd]) }
    | .quote instrument => s.setWorker i (.waiting s.order.length instrument)
    | .applied => s.setWorker i (.summing (s.counted nShards) 0 0)
  | .locking cmd => s.lock i (cmd.instrument % nShards) (.loading cmd)
  | .loading cmd =>
    s.setWorker i (.storing cmd ((s.shards (cmd.instrument % nShards)).book.ingest cmd).2)
  | .storing cmd book =>
    let j := cmd.instrument % nShards
    { (s.setShard j { s.shards j with book }).setWorker i (.counting cmd) with
      order := s.order ++ [(i, cmd)] }
  | .counting cmd =>
    let j := cmd.instrument % nShards
    (s.setShard j { s.shards j with applied := (s.shards j).applied + 1 }).setWorker i
      (.unlocking cmd)
  | .unlocking cmd => s.unlock i (cmd.instrument % nShards)
  | .waiting first instrument =>
    s.lock i (instrument % nShards) (.asking first instrument)
  | .asking first instrument =>
    s.setWorker i (.answering first instrument (s.shards (instrument % nShards)).book.insideBid)
  | .answering first instrument q =>
    s.setWorker i (.leaving first instrument
      ((s.shards (instrument % nShards)).book.insideAsk q))
  | .leaving first instrument q =>
    { s.unlock i (instrument % nShards) with
      answers := s.answers ++ [⟨instrument, q, first, s.order.length⟩] }
  | .summing first j n =>
    if j < nShards then s.setWorker i (.summing first (j + 1) (n + (s.shards j).applied))
    else { s.setWorker i .idle with tallies := s.tallies ++ [⟨n, first, s.counted nShards⟩] }

/-- The states of any interleaving of the threads. -/
def Reachable (nShards bookOrders : Nat) : LockedBooks ι → Prop :=
  Run.Reach (step nShards) (fun _ _ => True) (new bookOrders)

/-- The shards after the first `l` stored commands, one after the other. -/
def serial (nShards bookOrders : Nat) (s : LockedBooks ι) (l : Nat) : ShardedBooks :=
  ShardedBooks.run nShards bookOrders ((s.order.take l).map Prod.snd)

/-- The commands stored in shard `j`. -/
def stored (nShards : Nat) (s : LockedBooks ι) (j : Nat) : Nat :=
  (s.order.filter fun c => c.2.instrument % nShards = j).length

/-- What a thread knows of the shard it has locked, and of the counters it has added up. -/
def Knows (nShards : Nat) (s : LockedBooks ι) : Worker → Prop
  | .storing cmd book => book = ((s.shards (cmd.instrument % nShards)).book.ingest cmd).2
  | .waiting first _ | .asking first _ => first ≤ s.order.length
  | .answering first instrument q =>
    first ≤ s.order.length ∧ q = (s.shards (instrument % nShards)).book.insideBid
  | .leaving first instrument q =>
    first ≤ s.order.length ∧ q = (s.shards (instrument % nShards)).book.inside
  | .summing first j n =>
    j ≤ nShards ∧ n ≤ ∑ m ∈ Finset.range j, (s.shards m).applied ∧
      first ≤ n + ∑ m ∈ Finset.Ico j nShards, (s.shards m).applied
  | _ => True

/-- The invariant of the locked books. -/
structure Valid (nShards bookOrders : Nat) (s : LockedBooks ι) : Prop where
  owner : ∀ i j, (s.workers i).holds nShards = some j ↔ (s.shards j).owner = some i
  book : ∀ instrument, (s.serial nShards bookOrders s.order.length).book? instrument =
    some (s.shards (instrument % nShards)).book
  counted : ∀ j, (∀ i, ¬ (s.workers i).Counts nShards j) →
    (s.shards j).applied = s.stored nShards j
  counting : ∀ i j, (s.workers i).Counts nShards j →
    (s.shards j).applied + 1 = s.stored nShards j
  knows : ∀ i, s.Knows nShards (s.workers i)
  program : ∀ i, s.called i =
    (s.order.filter fun c => c.1 = i).map Prod.snd ++ (s.workers i).pending
  answers : ∀ a ∈ s.answers, a.last ≤ s.order.length ∧ ∃ l, a.first ≤ l ∧ l ≤ a.last ∧
    a.quote = (s.serial nShards bookOrders l).quote a.instrument
  tallies : ∀ t ∈ s.tallies, t.first ≤ t.total ∧ t.total ≤ t.last

variable {nShards bookOrders : Nat} {s s' : LockedBooks ι} {i : ι} {w : Worker}
  {c : Call}

omit [DecidableEq ι] in
/-- What a thread knows survives the steps of others that leave its shard alone. -/
theorem Knows.frame (h : s.Knows nShards w) (hlen : s.order.length ≤ s'.order.length)
    (hbook : ∀ j, w.holds nShards = some j → (s'.shards j).book = (s.shards j).book)
    (happlied : ∀ j, (s.shards j).applied ≤ (s'.shards j).applied) : s'.Knows nShards w := by
  cases w with
  | idle | locking | loading | counting | unlocking => trivial
  | storing cmd b =>
    simp only [Knows] at h ⊢
    rw [hbook _ rfl]
    exact h
  | waiting first | asking first => exact Nat.le_trans h hlen
  | answering first instrument q =>
    simp only [Knows] at h ⊢
    rw [hbook _ rfl]
    exact ⟨Nat.le_trans h.1 hlen, h.2⟩
  | leaving first instrument q =>
    simp only [Knows] at h ⊢
    rw [hbook _ rfl]
    exact ⟨Nat.le_trans h.1 hlen, h.2⟩
  | summing first j n =>
    obtain ⟨hj, hlo, hhi⟩ := h
    refine ⟨hj, Nat.le_trans hlo (Finset.sum_le_sum fun m _ => happlied m), ?_⟩
    exact Nat.le_trans hhi (Nat.add_le_add_left (Finset.sum_le_sum fun m _ => happlied m) n)

/-- Two threads do not hold the same mutex. -/
theorem Valid.alone (h : s.Valid nShards bookOrders) {i' : ι} {j : Nat}
    (hi : (s.workers i).holds nShards = some j) (hi' : (s.workers i').holds nShards = some j) :
    i = i' := by
  rw [h.owner] at hi hi'
  exact Option.some.inj (hi.symm.trans hi')

/-- A thread moves on and leaves the books and the counters alone. -/
theorem Valid.move (h : s.Valid nShards bookOrders)
    (hworkers : s'.workers = Function.update s.workers i w)
    (howner : ∀ i' j, (s'.workers i').holds nShards = some j ↔ (s'.shards j).owner = some i')
    (hbook : ∀ j, (s'.shards j).book = (s.shards j).book)
    (happlied : ∀ j, (s'.shards j).applied = (s.shards j).applied) (horder : s'.order = s.order)
    (hcalled : ∀ i' ≠ i, s'.called i' = s.called i')
    (hprogram : s'.called i = (s.order.filter fun c => c.1 = i).map Prod.snd ++ w.pending)
    (hanswers : s'.answers = s.answers) (htallies : s'.tallies = s.tallies)
    (hcounts : ∀ j, ¬ (s.workers i).Counts nShards j) (hcounts' : ∀ j, ¬ w.Counts nShards j)
    (hknows : s.Knows nShards w) : s'.Valid nShards bookOrders := by
  have hself : s'.workers i = w := by rw [hworkers, Function.update_self]
  have hother {i' : ι} (hi' : i' ≠ i) : s'.workers i' = s.workers i' := by
    rw [hworkers, Function.update_of_ne hi']
  have hserial (l : Nat) : s'.serial nShards bookOrders l = s.serial nShards bookOrders l := by
    unfold serial
    rw [horder]
  have hframe {w' : Worker} (hw' : s.Knows nShards w') : s'.Knows nShards w' :=
    hw'.frame (Nat.le_of_eq (congrArg List.length horder).symm) (fun j _ => hbook j)
      fun j => Nat.le_of_eq (happlied j).symm
  constructor
  · exact howner
  · intro instrument
    rw [hserial, horder, hbook]
    exact h.book instrument
  · intro j hj
    rw [happlied]
    unfold stored
    rw [horder]
    refine h.counted j fun i' hi' => ?_
    rcases eq_or_ne i' i with rfl | hne
    · exact hcounts j hi'
    · exact hj i' ((hother hne).symm ▸ hi')
  · intro i' j hj
    rcases eq_or_ne i' i with rfl | hne
    · rw [hself] at hj
      exact absurd hj (hcounts' j)
    · rw [hother hne] at hj
      rw [happlied]
      unfold stored
      rw [horder]
      exact h.counting i' j hj
  · intro i'
    rcases eq_or_ne i' i with rfl | hne
    · rw [hself]
      exact hframe hknows
    · rw [hother hne]
      exact hframe (h.knows i')
  · intro i'
    rcases eq_or_ne i' i with rfl | hne
    · rw [hself, hprogram, horder]
    · rw [hother hne, hcalled i' hne, horder]
      exact h.program i'
  · intro a ha
    rw [hanswers] at ha
    obtain ⟨hlast, l, hfirst, hl, hq⟩ := h.answers a ha
    exact ⟨horder ▸ hlast, l, hfirst, hl, by rw [hserial, hq]⟩
  · intro t ht
    rw [htallies] at ht
    exact h.tallies t ht

/-- A thread moves on without touching a mutex, a book or a counter. -/
theorem Valid.turn (h : s.Valid nShards bookOrders)
    (hholds : w.holds nShards = (s.workers i).holds nShards)
    (hpending : w.pending = (s.workers i).pending)
    (hcounts : ∀ j, ¬ (s.workers i).Counts nShards j) (hcounts' : ∀ j, ¬ w.Counts nShards j)
    (hknows : s.Knows nShards w) : (s.setWorker i w).Valid nShards bookOrders := by
  refine h.move rfl (fun i' j => ?_) (fun _ => rfl) (fun _ => rfl) rfl (fun _ _ => rfl) ?_ rfl rfl
    hcounts hcounts' hknows
  · rcases eq_or_ne i' i with rfl | hi'
    · simp only [setWorker, Function.update_self, hholds]
      exact h.owner i' j
    · simp only [setWorker, Function.update_of_ne hi']
      exact h.owner i' j
  · rw [hpending]
    exact h.program i

omit [DecidableEq ι] in
theorem book_setOwner (s : LockedBooks ι) (j m : Nat) (o : Option ι) :
    ((s.setOwner j o).shards m).book = (s.shards m).book := by
  rcases eq_or_ne m j with rfl | hm
  · simp only [setOwner, setShard, Function.update_self]
  · simp only [setOwner, setShard, Function.update_of_ne hm]

omit [DecidableEq ι] in
theorem applied_setOwner (s : LockedBooks ι) (j m : Nat) (o : Option ι) :
    ((s.setOwner j o).shards m).applied = (s.shards m).applied := by
  rcases eq_or_ne m j with rfl | hm
  · simp only [setOwner, setShard, Function.update_self]
  · simp only [setOwner, setShard, Function.update_of_ne hm]

/-- A thread takes a free mutex or goes on waiting. -/
theorem Valid.lock (h : s.Valid nShards bookOrders) {j : Nat}
    (hnone : (s.workers i).holds nShards = none) (hholds : w.holds nShards = some j)
    (hpending : w.pending = (s.workers i).pending)
    (hcounts : ∀ j, ¬ (s.workers i).Counts nShards j) (hcounts' : ∀ j, ¬ w.Counts nShards j)
    (hknows : s.Knows nShards w) : (s.lock i j w).Valid nShards bookOrders := by
  unfold LockedBooks.lock
  split
  · exact h
  · next hfree =>
    refine h.move rfl (fun i' m => ?_) (book_setOwner s j · _) (applied_setOwner s j · _) rfl
      (fun _ _ => rfl) ?_ rfl rfl hcounts hcounts' hknows
    · have hold := h.owner i' m
      rcases eq_or_ne i' i with rfl | hi' <;> rcases eq_or_ne m j with rfl | hm
      · simp only [setWorker, setOwner, setShard, Function.update_self, hholds]
      · simp only [setWorker, setOwner, setShard, Function.update_self, hholds,
          Function.update_of_ne hm, ← hold, hnone, reduceCtorEq, iff_false, Option.some.injEq]
        exact hm.symm
      · simp only [setWorker, setOwner, setShard, Function.update_self,
          Function.update_of_ne hi', hold, hfree, Option.some.injEq]
        simp [hi'.symm]
      · simp only [setWorker, setOwner, setShard, Function.update_of_ne hi',
          Function.update_of_ne hm]
        exact hold
    · rw [hpending]
      exact h.program i

/-- A thread gives its mutex back. -/
theorem Valid.unlock (h : s.Valid nShards bookOrders) {j : Nat}
    (hholds : (s.workers i).holds nShards = some j) (hpending : (s.workers i).pending = [])
    (hcounts : ∀ j, ¬ (s.workers i).Counts nShards j) :
    (s.unlock i j).Valid nShards bookOrders := by
  refine h.move rfl (fun i' m => ?_) (book_setOwner s j · _) (applied_setOwner s j · _) rfl
    (fun _ _ => rfl) ?_ rfl rfl hcounts (fun _ => id) trivial
  · have hold := h.owner i' m
    have hself := (h.owner i j).mp hholds
    rcases eq_or_ne i' i with rfl | hi' <;> rcases eq_or_ne m j with rfl | hm
    · simp [LockedBooks.unlock, setWorker, setOwner, setShard, Worker.holds]
    · have hne : (s.shards m).owner ≠ some i' := by
        intro he
        have hm' := hold.mpr he
        rw [hholds, Option.some.injEq] at hm'
        exact hm hm'.symm
      simpa [LockedBooks.unlock, setWorker, setOwner, setShard, Worker.holds, hm] using hne
    · simp only [LockedBooks.unlock, setWorker, setOwner, setShard, Function.update_self,
        Function.update_of_ne hi', hold, hself, Option.some.injEq]
      simp [hi'.symm]
    · simp only [LockedBooks.unlock, setWorker, setOwner, setShard, Function.update_of_ne hi',
        Function.update_of_ne hm]
      exact hold
  · have hprogram := h.program i
    rw [hpending] at hprogram
    exact hprogram

omit [DecidableEq ι] in
theorem serial_route (s : LockedBooks ι) (l instrument : Nat) :
    (s.serial nShards bookOrders l).route instrument = instrument % nShards :=
  ShardedBooks.route_run nShards bookOrders instrument _

/-- The store of a book puts its command last. -/
theorem Valid.store (h : s.Valid nShards bookOrders) {cmd : IngressCmd} {b : OrderBook} {j : Nat}
    (hs : s.workers i = .storing cmd b) (hj : cmd.instrument % nShards = j) :
    ({ (s.setShard j { s.shards j with book := b }).setWorker i (.counting cmd) with
      order := s.order ++ [(i, cmd)] } : LockedBooks ι).Valid nShards bookOrders := by
  have hi : (s.workers i).holds nShards = some j := by rw [hs, ← hj]; rfl
  have hb := h.knows i
  simp only [hs, Knows, hj] at hb
  have hfree (i' : ι) : ¬ (s.workers i').Counts nShards j := by
    intro hc
    obtain rfl := h.alone hi hc.holds
    rw [hs] at hc
    exact hc
  have hlen : (s.order ++ [(i, cmd)]).length = s.order.length + 1 := by simp
  generalize hs' : ({ (s.setShard j { s.shards j with book := b }).setWorker i (.counting cmd) with
    order := s.order ++ [(i, cmd)] } : LockedBooks ι) = s'
  have hself : s'.workers i = .counting cmd := by
    simp only [← hs', setWorker, Function.update_self]
  have hother {i' : ι} (hi' : i' ≠ i) : s'.workers i' = s.workers i' := by
    simp only [← hs', setWorker, setShard, Function.update_of_ne hi']
  have hshard : s'.shards j = { s.shards j with book := b } := by
    simp only [← hs', setWorker, setShard, Function.update_self]
  have hshards {m : Nat} (hm : m ≠ j) : s'.shards m = s.shards m := by
    simp only [← hs', setWorker, setShard, Function.update_of_ne hm]
  have horder : s'.order = s.order ++ [(i, cmd)] := by rw [← hs']
  have happlied (m : Nat) : (s'.shards m).applied = (s.shards m).applied := by
    rcases eq_or_ne m j with rfl | hm
    · rw [hshard]
    · rw [hshards hm]
  have hserial {l : Nat} (hl : l ≤ s.order.length) :
      s'.serial nShards bookOrders l = s.serial nShards bookOrders l := by
    unfold serial
    rw [horder, List.take_append_of_le_length hl]
  have hlast : s'.serial nShards bookOrders s'.order.length =
      (s.serial nShards bookOrders s.order.length).submit cmd := by
    unfold serial
    rw [horder, List.take_length, List.take_length, List.map_append, List.map_singleton,
      ShardedBooks.run_concat]
  have hstored (m : Nat) : s'.stored nShards m = s.stored nShards m + if m = j then 1 else 0 := by
    unfold stored
    rw [horder, List.filter_append, List.length_append, List.filter_singleton, hj]
    rcases eq_or_ne m j with rfl | hm
    · simp
    · simp [hm, hm.symm]
  constructor
  · intro i' m
    have hold := h.owner i' m
    have howner : (s'.shards m).owner = (s.shards m).owner := by
      rcases eq_or_ne m j with rfl | hm
      · rw [hshard]
      · rw [hshards hm]
    have hholds : (s'.workers i').holds nShards = (s.workers i').holds nShards := by
      rcases eq_or_ne i' i with rfl | hi'
      · rw [hself, hi, ← hj]
        rfl
      · rw [hother hi']
    rw [howner, hholds]
    exact hold
  · intro instrument
    have hroute (m : Nat) : (s.serial nShards bookOrders s.order.length).route m = m % nShards :=
      serial_route s s.order.length m
    have hold := h.book instrument
    rw [hlast]
    rcases eq_or_ne (instrument % nShards) j with hm | hm
    · rw [ShardedBooks.book?_submit cmd (by rw [hroute, hroute, hm, hj]), hold, hm, hshard, hb]
      rfl
    · rw [ShardedBooks.book?_submit_of_ne cmd (by rw [hroute, hroute, hj]; exact hm), hold,
        hshards hm]
  · intro m hm
    rcases eq_or_ne m j with rfl | hne
    · exact absurd (hself ▸ hj) (hm i)
    · rw [happlied, hstored, if_neg hne, Nat.add_zero]
      refine h.counted m fun i' hc => ?_
      rcases eq_or_ne i' i with rfl | hi'
      · rw [hs] at hc
        exact hc
      · exact hm i' ((hother hi').symm ▸ hc)
  · intro i' m hc
    rw [happlied, hstored]
    rcases eq_or_ne i' i with rfl | hi'
    · rw [hself] at hc
      obtain rfl : j = m := hj.symm.trans hc
      rw [if_pos rfl, h.counted j hfree]
    · rw [hother hi'] at hc
      have hne : m ≠ j := by
        rintro rfl
        exact hfree i' hc
      rw [if_neg hne]
      exact h.counting i' m hc
  · intro i'
    rcases eq_or_ne i' i with rfl | hi'
    · rw [hself]
      trivial
    · rw [hother hi']
      refine (h.knows i').frame (by rw [horder, hlen]; omega) (fun m hm => ?_) fun m =>
        Nat.le_of_eq (happlied m).symm
      have hne : m ≠ j := by
        rintro rfl
        exact hi' (h.alone hm hi)
      rw [hshards hne]
  · intro i'
    have hold := h.program i'
    have hcalled : s'.called = s.called := by rw [← hs']; rfl
    rw [hcalled, hold, horder, List.filter_append, List.map_append]
    rcases eq_or_ne i' i with rfl | hi'
    · rw [hself, hs, List.filter_singleton]
      simp [Worker.pending]
    · rw [hother hi', List.filter_singleton]
      simp [hi'.symm]
  · intro a ha
    have hanswers : s'.answers = s.answers := by rw [← hs']; rfl
    rw [hanswers] at ha
    obtain ⟨hle, l, hfirst, hl, hq⟩ := h.answers a ha
    exact ⟨by rw [horder, hlen]; omega, l, hfirst, hl, by rw [hserial (Nat.le_trans hl hle), hq]⟩
  · intro t ht
    have htallies : s'.tallies = s.tallies := by rw [← hs']; rfl
    rw [htallies] at ht
    exact h.tallies t ht

/-- The count of a stored command. -/
theorem Valid.count (h : s.Valid nShards bookOrders) {cmd : IngressCmd} {j : Nat}
    (hs : s.workers i = .counting cmd) (hj : cmd.instrument % nShards = j) :
    ((s.setShard j { s.shards j with applied := (s.shards j).applied + 1 }).setWorker i
      (.unlocking cmd)).Valid nShards bookOrders := by
  have hc : (s.workers i).Counts nShards j := by rw [hs]; exact hj
  have hi := hc.holds
  generalize hs' : (s.setShard j
    { s.shards j with applied := (s.shards j).applied + 1 }).setWorker i (.unlocking cmd) = s'
  have hself : s'.workers i = .unlocking cmd := by
    simp only [← hs', setWorker, Function.update_self]
  have hother {i' : ι} (hi' : i' ≠ i) : s'.workers i' = s.workers i' := by
    simp only [← hs', setWorker, setShard, Function.update_of_ne hi']
  have hshard : s'.shards j = { s.shards j with applied := (s.shards j).applied + 1 } := by
    simp only [← hs', setWorker, setShard, Function.update_self]
  have hshards {m : Nat} (hm : m ≠ j) : s'.shards m = s.shards m := by
    simp only [← hs', setWorker, setShard, Function.update_of_ne hm]
  have horder : s'.order = s.order := by rw [← hs']; rfl
  have hserial (l : Nat) : s'.serial nShards bookOrders l = s.serial nShards bookOrders l := by
    unfold serial
    rw [horder]
  have hstored (m : Nat) : s'.stored nShards m = s.stored nShards m := by
    unfold stored
    rw [horder]
  have hbook (m : Nat) : (s'.shards m).book = (s.shards m).book := by
    rcases eq_or_ne m j with rfl | hm
    · rw [hshard]
    · rw [hshards hm]
  constructor
  · intro i' m
    have hold := h.owner i' m
    have howner : (s'.shards m).owner = (s.shards m).owner := by
      rcases eq_or_ne m j with rfl | hm
      · rw [hshard]
      · rw [hshards hm]
    have hholds : (s'.workers i').holds nShards = (s.workers i').holds nShards := by
      rcases eq_or_ne i' i with rfl | hi'
      · rw [hself, hs]
        rfl
      · rw [hother hi']
    rw [howner, hholds]
    exact hold
  · intro instrument
    rw [hserial, horder, hbook]
    exact h.book instrument
  · intro m hm
    rw [hstored]
    rcases eq_or_ne m j with rfl | hne
    · rw [hshard]
      exact h.counting i m hc
    · rw [hshards hne]
      refine h.counted m fun i' hc' => ?_
      rcases eq_or_ne i' i with rfl | hi'
      · rw [hs] at hc'
        exact hne (hc'.symm.trans hj)
      · exact hm i' ((hother hi').symm ▸ hc')
  · intro i' m hc'
    rcases eq_or_ne i' i with rfl | hi'
    · rw [hself] at hc'
      exact hc'.elim
    · rw [hother hi'] at hc'
      have hne : m ≠ j := by
        rintro rfl
        exact hi' (h.alone hc'.holds hi)
      rw [hstored, hshards hne]
      exact h.counting i' m hc'
  · intro i'
    rcases eq_or_ne i' i with rfl | hi'
    · rw [hself]
      trivial
    · rw [hother hi']
      refine (h.knows i').frame (Nat.le_of_eq (congrArg List.length horder).symm)
        (fun m _ => hbook m) fun m => ?_
      rcases eq_or_ne m j with rfl | hm
      · rw [hshard]
        exact Nat.le_succ _
      · rw [hshards hm]
  · intro i'
    have hold := h.program i'
    have hcalled : s'.called = s.called := by rw [← hs']; rfl
    rw [hcalled, hold, horder]
    rcases eq_or_ne i' i with rfl | hi'
    · rw [hself, hs]
      rfl
    · rw [hother hi']
  · intro a ha
    have hanswers : s'.answers = s.answers := by rw [← hs']; rfl
    rw [hanswers] at ha
    obtain ⟨hle, l, hfirst, hl, hq⟩ := h.answers a ha
    exact ⟨horder ▸ hle, l, hfirst, hl, by rw [hserial, hq]⟩
  · intro t ht
    have htallies : s'.tallies = s.tallies := by rw [← hs']; rfl
    rw [htallies] at ht
    exact h.tallies t ht

/-- The quote of the stored commands is the inside of the shard's book. -/
theorem Valid.quote (h : s.Valid nShards bookOrders) (instrument : Nat) :
    (s.serial nShards bookOrders s.order.length).quote instrument =
      (s.shards (instrument % nShards)).book.inside := by
  unfold ShardedBooks.quote
  rw [h.book]
  rfl

/-- Every step keeps the invariant. -/
theorem Valid.step (h : s.Valid nShards bookOrders) (a : ι × Call) :
    (s.step nShards a).Valid nShards bookOrders := by
  obtain ⟨i, c⟩ := a
  have hknows := h.knows i
  have hprogram := h.program i
  unfold LockedBooks.step
  dsimp only
  cases hs : s.workers i with
  | idle =>
    rw [hs] at hknows hprogram
    have hnone : ∀ j, ¬ (s.workers i).Counts nShards j := fun j hc => by rw [hs] at hc; exact hc
    cases c with
    | submit cmd =>
      refine h.move rfl (fun i' j => ?_) (fun _ => rfl) (fun _ => rfl) rfl
        (fun i' hi' => Function.update_of_ne hi' ..) ?_ rfl rfl hnone (fun _ => id) trivial
      · rcases eq_or_ne i' i with rfl | hi'
        · have hold := h.owner i' j
          rw [hs] at hold
          simp only [setWorker, Function.update_self]
          exact hold
        · simp only [setWorker, Function.update_of_ne hi']
          exact h.owner i' j
      · dsimp only
        rw [Function.update_self, hprogram]
        simp [Worker.pending]
    | quote instrument =>
      exact h.turn (by rw [hs]; rfl) (by rw [hs]; rfl) hnone (fun _ => id) (Nat.le_refl _)
    | applied =>
      refine h.turn (by rw [hs]; rfl) (by rw [hs]; rfl) hnone (fun _ => id)
        ⟨Nat.zero_le _, Nat.zero_le _, ?_⟩
      rw [Nat.zero_add, ← Finset.range_eq_Ico]
      exact Nat.le_refl _
  | locking cmd =>
    exact h.lock (by rw [hs]; rfl) rfl (by rw [hs]; rfl)
      (fun j hc => by rw [hs] at hc; exact hc) (fun _ => id) trivial
  | loading cmd =>
    exact h.turn (by rw [hs]; rfl) (by rw [hs]; rfl) (fun j hc => by rw [hs] at hc; exact hc)
      (fun _ => id) rfl
  | storing cmd b => exact h.store hs rfl
  | counting cmd => exact h.count hs rfl
  | unlocking cmd =>
    exact h.unlock (by rw [hs]; rfl) (by rw [hs]; rfl) fun j hc => by rw [hs] at hc; exact hc
  | waiting first instrument =>
    rw [hs] at hknows
    exact h.lock (by rw [hs]; rfl) rfl (by rw [hs]; rfl)
      (fun j hc => by rw [hs] at hc; exact hc) (fun _ => id) hknows
  | asking first instrument =>
    rw [hs] at hknows
    exact h.turn (by rw [hs]; rfl) (by rw [hs]; rfl) (fun j hc => by rw [hs] at hc; exact hc)
      (fun _ => id) ⟨hknows, rfl⟩
  | answering first instrument q =>
    rw [hs] at hknows
    refine h.turn (by rw [hs]; rfl) (by rw [hs]; rfl) (fun j hc => by rw [hs] at hc; exact hc)
      (fun _ => id) ⟨hknows.1, ?_⟩
    rw [hknows.2, OrderBook.insideAsk_insideBid]
  | leaving first instrument q =>
    rw [hs] at hknows
    obtain ⟨hfirst, hq⟩ := hknows
    have hfree : (s.unlock i (instrument % nShards)).Valid nShards bookOrders :=
      h.unlock (by rw [hs]; rfl) (by rw [hs]; rfl) fun j hc => by rw [hs] at hc; exact hc
    refine { hfree with answers := fun a ha => ?_ }
    rcases List.mem_append.mp ha with ha | ha
    · exact h.answers a ha
    · obtain rfl := List.mem_singleton.mp ha
      exact ⟨Nat.le_refl _, _, hfirst, Nat.le_refl _, by rw [hq]; exact (h.quote instrument).symm⟩
  | summing first j n =>
    rw [hs] at hknows
    obtain ⟨hj, hlo, hhi⟩ := hknows
    have hnone : ∀ j, ¬ (s.workers i).Counts nShards j := fun j hc => by rw [hs] at hc; exact hc
    by_cases hlt : j < nShards
    · simp only [if_pos hlt]
      refine h.turn (by rw [hs]; rfl) (by rw [hs]; rfl) hnone (fun _ => id) ⟨hlt, ?_, ?_⟩
      · rw [Finset.sum_range_succ]
        exact Nat.add_le_add_right hlo _
      · rw [Finset.sum_eq_sum_Ico_succ_bot hlt] at hhi
        omega
    · obtain rfl : j = nShards := by omega
      simp only [if_neg hlt]
      have hidle : (s.setWorker i .idle).Valid j bookOrders :=
        h.turn (by rw [hs]; rfl) (by rw [hs]; rfl) hnone (fun _ => id) trivial
      refine { hidle with tallies := fun t ht => ?_ }
      rcases List.mem_append.mp ht with ht | ht
      · exact h.tallies t ht
      · obtain rfl := List.mem_singleton.mp ht
        rw [Finset.Ico_self, Finset.sum_empty, Nat.add_zero] at hhi
        exact ⟨hhi, hlo⟩

theorem valid_new (hn : 0 < nShards) :
    (new bookOrders : LockedBooks ι).Valid nShards bookOrders where
  owner i j := by simp [new, Worker.holds]
  book instrument := by
    have hlt := Nat.mod_lt instrument hn
    simp [serial, new, ShardedBooks.run, ShardedBooks.book?, ShardedBooks.route, ShardedBooks.new,
      hlt]
  counted _ _ := rfl
  counting _ _ hc := hc.elim
  knows _ := trivial
  program _ := rfl
  answers _ ha := absurd ha List.not_mem_nil
  tallies _ ht := absurd ht List.not_mem_nil

theorem Reachable.valid (h : Reachable nShards bookOrders s) (hn : 0 < nShards) :
    s.Valid nShards bookOrders :=
  Run.Reach.invariant (I := Valid nShards bookOrders) h (valid_new hn) fun _ a hs _ => hs.step a

/-- Sorting the elements of a list into classes loses none. -/
theorem sum_length_filter {α : Type} {n : Nat} (f : α → Nat) (xs : List α)
    (hf : ∀ x ∈ xs, f x < n) :
    ∑ j ∈ Finset.range n, (xs.filter fun x => f x = j).length = xs.length := by
  induction xs with
  | nil => simp
  | cons x xs ih =>
    have hlen (j : Nat) : ((x :: xs).filter fun x => f x = j).length =
        (xs.filter fun x => f x = j).length + if f x = j then 1 else 0 := by
      rw [List.filter_cons]
      by_cases hj : f x = j <;> simp [hj]
    have hx : f x ∈ Finset.range n := Finset.mem_range.mpr (hf x List.mem_cons_self)
    simp only [hlen]
    rw [Finset.sum_add_distrib, Finset.sum_ite_eq, if_pos hx,
      ih fun y hy => hf y (List.mem_cons_of_mem x hy), List.length_cons]

/-- In every interleaving each book is what the stored commands give one after the other, every
thread's commands in the order of its calls, and when no thread is at work the counters have
missed none. -/
theorem reachable_serial (hn : 0 < nShards) (h : Reachable nShards bookOrders s) :
    (∀ instrument, (s.serial nShards bookOrders s.order.length).book? instrument =
        some (s.shards (instrument % nShards)).book) ∧
      (∀ i, s.called i = (s.order.filter fun c => c.1 = i).map Prod.snd ++
        (s.workers i).pending) ∧
      ((∀ i, s.workers i = .idle) → s.counted nShards = s.order.length) := by
  have hv := h.valid hn
  refine ⟨hv.book, hv.program, fun hidle => ?_⟩
  rw [counted, ← sum_length_filter (fun c : ι × IngressCmd => c.2.instrument % nShards) s.order
    fun c _ => Nat.mod_lt _ hn]
  refine Finset.sum_congr rfl fun j _ => hv.counted j fun i hc => ?_
  rw [hidle i] at hc
  exact hc

/-- In every interleaving a quote is that of the books at some instant of its call, though it
reads them in two steps, and a sum that reads the counters one after the other, without a lock,
lies between their sums at its call and at its return. -/
theorem reachable_reads (hn : 0 < nShards) (h : Reachable nShards bookOrders s) :
    (∀ a ∈ s.answers, ∃ l, a.first ≤ l ∧ l ≤ a.last ∧
        a.quote = (s.serial nShards bookOrders l).quote a.instrument) ∧
      ∀ t ∈ s.tallies, t.first ≤ t.total ∧ t.total ≤ t.last := by
  have hv := h.valid hn
  exact ⟨fun a ha => (hv.answers a ha).2, hv.tallies⟩

/-- Two threads submit to one shard while a third quotes it and adds up the counters. -/
def contended : LockedBooks Nat :=
  ([(0, .submit {}), (0, .applied), (1, .submit { side := .sell, price := 3 }), (1, .applied),
    (2, .quote 2), (2, .applied), (0, .applied), (0, .applied), (0, .applied), (0, .applied),
    (2, .applied), (1, .applied), (2, .applied), (2, .applied), (2, .applied), (2, .applied),
    (2, .applied), (2, .applied), (2, .applied)] :
    List (Nat × Call)).foldl (step 2) (new 4)

theorem reachable_reads_contended :
    (∀ a ∈ contended.answers, ∃ l, a.first ≤ l ∧ l ≤ a.last ∧
        a.quote = (contended.serial 2 4 l).quote a.instrument) ∧
      ∀ t ∈ contended.tallies, t.first ≤ t.total ∧ t.total ≤ t.last :=
  reachable_reads (by decide) (Run.Reach.foldl Run.Reach.init (by decide))

theorem reachable_serial_contended :
    (∀ instrument, (contended.serial 2 4 contended.order.length).book? instrument =
        some (contended.shards (instrument % 2)).book) ∧
      (∀ i, contended.called i = (contended.order.filter fun c => c.1 = i).map Prod.snd ++
        (contended.workers i).pending) ∧
      ((∀ i, contended.workers i = .idle) → contended.counted 2 = contended.order.length) :=
  reachable_serial (by decide) (Run.Reach.foldl Run.Reach.init (by decide))

end LockedBooks

end Lob
