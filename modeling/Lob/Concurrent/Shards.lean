import Mathlib.Data.List.Induction
import Lob.Concurrent.Ingress

/-!
# Sharded books

`ShardedBooks`: every command goes to the book of shard `instrument % shards`.
The mutex of a shard serializes its commands, and commands of different shards
touch different books, so a run is a list of commands. Whose orders rest where
and what the market orders filled is history: no command reads it.
-/

namespace Lob

/-- `struct Shard` without its mutex. -/
structure Shard where
  book : OrderBook
  applied : Nat

/-- `class ShardedBooks`, with what its commands have done. -/
structure ShardedBooks where
  shards : List Shard
  /-- The instrument an order id of a shard was returned to. -/
  owners : Nat → Nat → Option Nat
  /-- The instruments and fills of the commands, in order. -/
  fills : List (Nat × List Fill)

namespace ShardedBooks

def new (nShards bookOrders : Nat) : ShardedBooks :=
  { shards := List.replicate nShards ⟨.new bookOrders, 0⟩, owners := fun _ _ => none, fills := [] }

/-- The shard an instrument is routed to. -/
def route (s : ShardedBooks) (instrument : Nat) : Nat := instrument % s.shards.length

/-- The order id that a command returns, `0` if it returns none. -/
def returned (b : OrderBook) (cmd : IngressCmd) : Nat :=
  match cmd.type with
  | .limit => (b.addLimitOrder cmd.side cmd.price cmd.qty).1
  | _ => 0

/-- `ShardedBooks::submit`. -/
def submit (s : ShardedBooks) (cmd : IngressCmd) : ShardedBooks :=
  let j := s.route cmd.instrument
  match s.shards[j]? with
  | none => s
  | some sh =>
    let id := returned sh.book cmd
    let (fills, book) := sh.book.ingest cmd
    { shards := s.shards.set j ⟨book, sh.applied + 1⟩
      owners := if id = 0 then s.owners
        else fun k x => if k = j ∧ x = id then some cmd.instrument else s.owners k x
      fills := s.fills ++ [(cmd.instrument, fills)] }

/-- The book an instrument is routed to. -/
def book? (s : ShardedBooks) (instrument : Nat) : Option OrderBook :=
  s.shards[s.route instrument]?.map Shard.book

/-- `ShardedBooks::quote`. -/
def quote (s : ShardedBooks) (instrument : Nat) : Quote :=
  ((s.book? instrument).map OrderBook.inside).getD {}

/-- The order with the given id in the book of an instrument. -/
def order? (s : ShardedBooks) (instrument id : Nat) : Option Order :=
  (s.book? instrument).bind fun b => (b.findId id).map b.mem

/-- The fills of the commands of an instrument. -/
def fillsOf (s : ShardedBooks) (instrument : Nat) : List (List Fill) :=
  (s.fills.filter fun f => f.1 = instrument).map Prod.snd

/-- The shards after a list of commands. -/
def run (nShards bookOrders : Nat) (cmds : List IngressCmd) : ShardedBooks :=
  cmds.foldl submit (new nShards bookOrders)

/-- The commands of the other instruments. -/
def without (i : Nat) (cmds : List IngressCmd) : List IngressCmd :=
  cmds.filter fun cmd => cmd.instrument ≠ i

/-- Instrument `j` does not notice the commands of instrument `i`, nor touch its orders. -/
structure Isolated (nShards bookOrders i j : Nat) : Prop where
  /-- A command of `i` does not change the quote of `j`. -/
  quote : ∀ cmds cmd, cmd.instrument = i →
    ((run nShards bookOrders cmds).submit cmd).quote j = (run nShards bookOrders cmds).quote j
  /-- A command of `j` neither fills nor removes an order of `i`. -/
  orders : ∀ cmds cmd id, cmd.instrument = j →
    (run nShards bookOrders cmds).owners ((run nShards bookOrders cmds).route i) id = some i →
    ((run nShards bookOrders cmds).submit cmd).order? i id =
      (run nShards bookOrders cmds).order? i id
  /-- The quotes and fills of `j` are those of the other commands alone. -/
  alone : ∀ cmds, (run nShards bookOrders cmds).quote j =
      (run nShards bookOrders (without i cmds)).quote j ∧
    (run nShards bookOrders cmds).fillsOf j = (run nShards bookOrders (without i cmds)).fillsOf j

variable {n bookOrders i j : Nat} {s t : ShardedBooks}

@[simp]
theorem length_submit (s : ShardedBooks) (cmd : IngressCmd) :
    (s.submit cmd).shards.length = s.shards.length := by
  unfold submit
  dsimp only
  split
  · rfl
  · rw [List.length_set]

@[simp]
theorem route_submit (s : ShardedBooks) (cmd : IngressCmd) (i : Nat) :
    (s.submit cmd).route i = s.route i := by
  unfold route
  rw [length_submit]

/-- A command leaves the shards alone that its instrument is not routed to. -/
theorem book?_submit_of_ne (cmd : IngressCmd) (h : s.route j ≠ s.route cmd.instrument) :
    (s.submit cmd).book? j = s.book? j := by
  unfold book?
  rw [route_submit]
  unfold submit
  dsimp only
  split
  · rfl
  · rw [List.getElem?_set_ne h.symm]

/-- A command is applied to the book of its instrument. -/
theorem book?_submit (cmd : IngressCmd) (h : s.route j = s.route cmd.instrument) :
    (s.submit cmd).book? j = (s.book? j).map fun b => (b.ingest cmd).2 := by
  unfold book?
  rw [route_submit]
  unfold submit
  dsimp only
  rw [← h]
  split
  · next hnone => rw [hnone]; rfl
  · next sh hsome =>
    rw [List.getElem?_set_self (List.getElem?_eq_some_iff.mp hsome).1, hsome]
    rfl

/-- The fills of a command are recorded for its instrument. -/
theorem fillsOf_submit (cmd : IngressCmd) :
    (s.submit cmd).fillsOf j = s.fillsOf j ++
      if cmd.instrument = j then ((s.book? j).map fun b => (b.ingest cmd).1).toList else [] := by
  unfold submit fillsOf book?
  dsimp only
  by_cases hj : cmd.instrument = j
  · subst hj
    rw [if_pos rfl]
    split
    · next hnone => rw [hnone]; simp
    · next sh hsome => rw [hsome]; simp
  · rw [if_neg hj]
    split
    · simp
    · simp [hj]

@[simp]
theorem length_run (n bookOrders : Nat) (cmds : List IngressCmd) :
    (run n bookOrders cmds).shards.length = n := by
  unfold run
  have h (s : ShardedBooks) : (cmds.foldl submit s).shards.length = s.shards.length := by
    induction cmds generalizing s with
    | nil => rfl
    | cons cmd cmds ih => rw [List.foldl_cons, ih, length_submit]
  rw [h]
  exact List.length_replicate

theorem route_run (n bookOrders i : Nat) (cmds : List IngressCmd) :
    (run n bookOrders cmds).route i = i % n := by
  unfold route
  rw [length_run]

theorem run_concat (cmds : List IngressCmd) (cmd : IngressCmd) :
    run n bookOrders (cmds ++ [cmd]) = (run n bookOrders cmds).submit cmd := by
  unfold run
  rw [List.foldl_append, List.foldl_cons, List.foldl_nil]

/-- A book without slots accepts nothing. -/
theorem ingest_new_zero (cmd : IngressCmd) :
    (OrderBook.new 0).ingest cmd = ([], OrderBook.new 0) := by
  unfold OrderBook.ingest
  cases cmd.type with
  | limit => rfl
  | market =>
    have hsweep (s : Side) (m : Nat) :
        OrderBook.sweep s m ⟨.new 0, cmd.qty, []⟩ = ⟨.new 0, cmd.qty, []⟩ := by
      have hempty : (OrderBook.new 0).ladder s = [] := by cases s <;> rfl
      cases m with
      | zero => rfl
      | succ m => simp [OrderBook.sweep, OrderBook.Sweep.active, hempty]
    simp only [OrderBook.marketOrder, hsweep]
  | cancel =>
    have hnone : (OrderBook.new 0).findId cmd.cancelId = none := by
      unfold OrderBook.findId
      split
      · rfl
      · next hlt =>
        simp only [OrderBook.new] at hlt ⊢
        rw [List.getElem?_eq_getElem (by omega), List.getElem_replicate]
        rfl
    simp only [OrderBook.cancelOrder, hnone]

/-- Books without slots stay empty. -/
theorem book?_run_zero (n j : Nat) (cmds : List IngressCmd) :
    (run n 0 cmds).book? j = (new n 0).book? j := by
  induction cmds using List.reverseRecOn with
  | nil => rfl
  | append_singleton cmds cmd ih =>
    rw [run_concat]
    by_cases hr : (run n 0 cmds).route j = (run n 0 cmds).route cmd.instrument
    · rw [book?_submit cmd hr, ih]
      unfold book? new
      rw [List.getElem?_replicate]
      split
      · simp only [Option.map_some, ingest_new_zero]
      · rfl
    · rw [book?_submit_of_ne cmd hr, ih]

/-- A command of another shard, or to a book without slots, changes nothing for `j`. -/
theorem book?_submit_other (h : i % n ≠ j % n ∨ bookOrders = 0) (cmds : List IngressCmd)
    {cmd : IngressCmd} (hc : cmd.instrument = i) :
    ((run n bookOrders cmds).submit cmd).book? j = (run n bookOrders cmds).book? j := by
  rcases h with h | rfl
  · refine book?_submit_of_ne cmd ?_
    rw [route_run, route_run, hc]
    exact h.symm
  · rw [← run_concat, book?_run_zero, book?_run_zero]

/-- Leaving out the commands of `i` leaves the book and the fills of `j`. -/
theorem run_without (hij : i ≠ j) (h : i % n ≠ j % n ∨ bookOrders = 0) (cmds : List IngressCmd) :
    (run n bookOrders cmds).book? j = (run n bookOrders (without i cmds)).book? j ∧
      (run n bookOrders cmds).fillsOf j = (run n bookOrders (without i cmds)).fillsOf j := by
  induction cmds using List.reverseRecOn with
  | nil => exact ⟨rfl, rfl⟩
  | append_singleton cmds cmd ih =>
    obtain ⟨hbook, hfills⟩ := ih
    by_cases hc : cmd.instrument = i
    · have hw : without i (cmds ++ [cmd]) = without i cmds := by simp [without, hc]
      rw [hw, run_concat]
      refine ⟨(book?_submit_other h cmds hc).trans hbook, ?_⟩
      rw [fillsOf_submit, if_neg (hc ▸ hij), List.append_nil, hfills]
    · have hw : without i (cmds ++ [cmd]) = without i cmds ++ [cmd] := by simp [without, hc]
      rw [hw, run_concat, run_concat]
      refine ⟨?_, by rw [fillsOf_submit, fillsOf_submit, hbook, hfills]⟩
      by_cases hr : j % n = cmd.instrument % n
      · rw [book?_submit cmd (by rw [route_run, route_run, hr]),
          book?_submit cmd (by rw [route_run, route_run, hr]), hbook]
      · rw [book?_submit_of_ne cmd (by rw [route_run, route_run]; exact hr),
          book?_submit_of_ne cmd (by rw [route_run, route_run]; exact hr), hbook]

/-- A buy order in an empty book with a free slot is quoted. -/
theorem hasBid_ingest_new (hb : 0 < bookOrders) (instrument : Nat) :
    ((OrderBook.new bookOrders).ingest { instrument }).2.inside.hasBid = true := by
  obtain ⟨c, rfl⟩ : ∃ c, bookOrders = c + 1 := ⟨bookOrders - 1, by omega⟩
  simp only [OrderBook.ingest, OrderBook.addLimitOrder, OrderBook.allocate, OrderBook.new,
    OrderPool.allocate, OrderPool.new, List.range_succ, List.reverse_append, List.reverse_cons,
    List.reverse_nil, List.nil_append, List.cons_append]
  rfl

/-- Two instruments of one shard that can hold orders share its book. -/
theorem not_isolated (hn : 0 < n) (hb : 0 < bookOrders) (h : i % n = j % n) :
    ¬ Isolated n bookOrders i j := by
  intro hiso
  have hq := hiso.quote [] { instrument := i } rfl
  have hlt : j % n < n := Nat.mod_lt j hn
  have hbook : (new n bookOrders).book? j = some (.new bookOrders) := by
    simp only [book?, route, new, List.length_replicate, List.getElem?_replicate, if_pos hlt,
      Option.map_some]
  unfold quote at hq
  rw [book?_submit _ (by rw [route_run, route_run, h])] at hq
  have hrun : run n bookOrders [] = new n bookOrders := rfl
  rw [hrun, hbook] at hq
  have hbid := congrArg Quote.hasBid hq
  have hnone : (OrderBook.new bookOrders).inside.hasBid = false := rfl
  simp only [Option.map_some, Option.getD_some, hasBid_ingest_new hb, hnone] at hbid
  contradiction

/-- Two instruments are isolated exactly when they are routed to different shards, or no order
can rest at all. -/
theorem isolated_iff (hn : 0 < n) (hij : i ≠ j) :
    Isolated n bookOrders i j ↔ i % n ≠ j % n ∨ bookOrders = 0 := by
  constructor
  · intro hiso
    by_cases hb : bookOrders = 0
    · exact Or.inr hb
    · exact Or.inl fun h => not_isolated hn (Nat.pos_of_ne_zero hb) h hiso
  · intro h
    refine ⟨fun cmds cmd hc => ?_, fun cmds cmd id hc _ => ?_, fun cmds => ?_⟩
    · unfold quote
      rw [book?_submit_other h cmds hc]
    · unfold order?
      rw [book?_submit_other (h.imp_left Ne.symm) cmds hc]
    · obtain ⟨hbook, hfills⟩ := run_without hij h cmds
      refine ⟨?_, hfills⟩
      unfold quote
      rw [hbook]

theorem isolated_iff_shards : Isolated 4 16384 1 2 ↔ 1 % 4 ≠ 2 % 4 ∨ 16384 = 0 :=
  isolated_iff (by decide) (by decide)

/-- Instruments `0` and `4` share a book when there are four shards. -/
theorem not_isolated_folded : ¬ ∀ n bookOrders i j, 0 < n → i ≠ j → Isolated n bookOrders i j :=
  fun h => not_isolated (n := 4) (i := 0) (j := 4) (by decide) (by decide) (by decide)
    (h 4 16384 0 4 (by decide) (by decide))

end ShardedBooks

end Lob
