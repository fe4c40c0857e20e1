import Lob.Resting.Aggregate

/-!
# Aggregates after a wrap

`push_back` and `remove` let the aggregate of a level wrap around,
`decrease_aggregate` and `adjust_aggregate` stop it at zero. While no update
stops at zero the aggregate is the total of the level up to wrap-around, so a
total that fits a word again is reported again.
-/

namespace Lob

instance (c : AggregateUpdate) : Decidable c.Clamps := by
  cases c <;> simp only [AggregateUpdate.Clamps] <;> infer_instance

namespace OrderBook

/-- Every level whose total fits a word reports its total. -/
def Recovered (b : OrderBook) : Prop :=
  ∀ s, ∀ n ∈ b.ladder s, n.2.shown b.mem < 2 ^ 64 → n.2.aggQty.toNat = n.2.shown b.mem

/-- No aggregate update of the call stops at zero. -/
def Unclamped (b : OrderBook) (op : Op) : Prop := ∀ c ∈ b.aggregateUpdates op, ¬ c.Clamps

instance (b : OrderBook) (op : Op) : Decidable (b.Unclamped op) :=
  inferInstanceAs (Decidable (∀ c ∈ b.aggregateUpdates op, ¬ c.Clamps))

instance (b : OrderBook) : Decidable b.Recovered :=
  decidable_of_iff (∀ s ∈ [Side.buy, .sell], ∀ n ∈ b.ladder s, n.2.shown b.mem < 2 ^ 64 →
      n.2.aggQty.toNat = n.2.shown b.mem)
    ⟨fun h s => h s (by cases s <;> simp), fun h s _ => h s⟩

/-- The states of runs in which no aggregate update stops at zero. -/
def UnclampedReachable (capacity : Nat) (mode : AllocMode) : OrderBook → Prop :=
  Run.Reach apply Unclamped (new capacity mode)

variable {b : OrderBook} {capacity : Nat} {mode : AllocMode}

theorem summed_recovered (h : b.queues.Summed) : b.Recovered := by
  intro s n hn hlt
  have hsummed : (n.2.view b.mem).Summed := forall_queues_iff.mp h s n hn
  rw [← shown_view] at hlt ⊢
  exact Queue.Level.exact_iff.mpr ⟨hsummed, hlt⟩

/-- In every run in which no aggregate update stops at zero, a level reports its total whenever
the total fits a word. -/
theorem reachable_recovered (hb : UnclampedReachable capacity mode b) : b.Recovered := by
  have hsummed := invariant_of_guarded (I := fun b => b.queues.Summed) hb
    (fun s n hn => by cases s <;> contradiction)
    fun b op hw hs hx hc => summed_apply hw hs hx op hc
  exact summed_recovered hsummed.2.2

/-- Two orders too large for one aggregate, the first cancelled, the second filled in part. -/
def ordersRecovering : List Op :=
  [.add .sell 100 0xFFFFFFFFFFFFFFFF, .add .sell 100 3, .fill 2 1, .cancel 1, .market .buy 1]

theorem reachable_recovered_cancelled : (ordersRecovering.foldl apply (new 4 .pool)).Recovered :=
  have hb : UnclampedReachable 4 .pool (ordersRecovering.foldl apply (new 4 .pool)) :=
    Run.Reach.foldl Run.Reach.init (by decide +kernel)
  reachable_recovered hb

/-- The same two orders, the first filled in part. -/
def ordersClamped : List Op :=
  [.add .sell 100 0xFFFFFFFFFFFFFFFF, .add .sell 100 2, .market .buy 5]

/-- The fill of five units stops the wrapped aggregate at zero. -/
theorem not_recovered_clamped :
    Reachable 4 .pool (ordersClamped.foldl apply (new 4 .pool)) ∧
      ¬ (ordersClamped.foldl apply (new 4 .pool)).Recovered := by
  exact ⟨Run.Reach.foldl Run.Reach.init (by simp [ordersClamped, Run.Allowed]),
    by decide +kernel⟩

end OrderBook

end Lob
