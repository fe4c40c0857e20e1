import Mathlib.Algebra.Group.Action.Defs
import Mathlib.Algebra.Order.BigOperators.Group.Finset
import Lob.Concurrent.Retries
import Lob.Core.Potential

/-!
# Lock-freedom of the many-producer ring

A producer may go round the loop of `try_push` for ever, but only while others
complete theirs. Every step is paid for by a call that completes or by a
compare-and-swap that fails spuriously, up to a bound that depends on the
number of producers alone.
-/

namespace Lob

namespace MpscRing

variable {ι T : Type} [DecidableEq ι]

/-- A producer takes the step. -/
def stepped : MpscRing ι T → Action ι T → Nat
  | _, .push _ _ _ => 1
  | _, .pop => 0

/-- A `try_push` returns, `true` or `false`. -/
def completed (k : Nat) (s : MpscRing ι T) : Action ι T → Nat
  | .push i v weak =>
    match (s.pushStep k i v weak).1 with
    | .running => 0
    | _ => 1
  | .pop => 0

/-- A compare-and-swap that could succeed fails. -/
def spurious (s : MpscRing ι T) : Action ι T → Nat
  | .push i _ weak =>
    match s.producers i with
    | .claiming _ pos => if s.enqueuePos = pos ∧ weak = true then 1 else 0
    | _ => 0
  | .pop => 0

/-- How many steps a producer may take before it is done, if no other claims a position. -/
def Producer.effort (next : Nat) : Producer T → Nat
  | .idle | .reloading _ => 4
  | .checking _ pos => if next = pos then 3 else 5
  | .claiming _ pos => if next = pos then 2 else 4
  | .writing _ _ => 1
  | .publishing _ _ => 0

/-- What a producer that has no position yet may still cost the others. -/
def Producer.threat (n : Nat) (p : Producer T) : Nat :=
  match p.claimed with
  | none => 2 * (n - 1)
  | some _ => 0

/-- The share of a producer in the potential, `n` producers sharing the ring. -/
def Producer.share (n next : Nat) (p : Producer T) : Nat := p.effort next + p.threat n

/-- A claim costs another producer two steps at most. -/
theorem Producer.effort_le (p : Producer T) (next next' : Nat) :
    p.effort next' ≤ p.effort next + 2 := by
  cases p with
  | idle | reloading | writing | publishing => simp only [effort]; omega
  | checking | claiming =>
    simp only [effort]
    split <;> split <;> omega

theorem Producer.share_le (n next : Nat) (p : Producer T) :
    p.share n next ≤ 5 + 2 * (n - 1) := by
  unfold share threat
  cases p with
  | idle | reloading | writing | publishing => simp only [effort, claimed]; omega
  | checking | claiming =>
    simp only [effort, claimed]
    split <;> omega

variable [Fintype ι] {k : Nat} {s s' : MpscRing ι T} {i : ι} {p : Producer T}

/-- The steps the producers can take before one of them completes its call. -/
def potential (s : MpscRing ι T) : Nat :=
  ∑ i, (s.producers i).share (Fintype.card ι) s.enqueuePos

omit [DecidableEq ι] in
theorem potential_le (s : MpscRing ι T) :
    s.potential ≤ Fintype.card ι * (2 * Fintype.card ι + 3) := by
  have hsum := Finset.sum_le_card_nsmul Finset.univ
    (fun i => (s.producers i).share (Fintype.card ι) s.enqueuePos) (2 * Fintype.card ι + 3)
    fun i _ => by
      have hshare := (s.producers i).share_le (Fintype.card ι) s.enqueuePos
      have hone : 0 < Fintype.card ι := Fintype.card_pos_iff.mpr ⟨i⟩
      omega
  rwa [Finset.card_univ, smul_eq_mul] at hsum

/-- The potential when one producer turns to another step and no position is claimed. -/
theorem potential_turn (hp : s'.producers = Function.update s.producers i p)
    (hnext : s'.enqueuePos = s.enqueuePos) :
    s'.potential + (s.producers i).share (Fintype.card ι) s.enqueuePos =
      s.potential + p.share (Fintype.card ι) s.enqueuePos := by
  have hothers : ∑ j ∈ Finset.univ.erase i,
      (s'.producers j).share (Fintype.card ι) s'.enqueuePos = ∑ j ∈ Finset.univ.erase i,
      (s.producers j).share (Fintype.card ι) s.enqueuePos := by
    refine Finset.sum_congr rfl fun j hj => ?_
    rw [hp, hnext, Function.update_of_ne (Finset.ne_of_mem_erase hj)]
  have hself : s'.producers i = p := by rw [hp, Function.update_self]
  unfold potential
  rw [← Finset.add_sum_erase _ _ (Finset.mem_univ i), hothers, hself, hnext,
    ← Finset.add_sum_erase _ _ (Finset.mem_univ i)]
  omega

/-- The potential when one producer claims a position. -/
theorem potential_claim (hp : s'.producers = Function.update s.producers i p) :
    s'.potential + (s.producers i).share (Fintype.card ι) s.enqueuePos ≤
      s.potential + p.share (Fintype.card ι) s'.enqueuePos + 2 * (Fintype.card ι - 1) := by
  have hothers : ∑ j ∈ Finset.univ.erase i,
      (s'.producers j).share (Fintype.card ι) s'.enqueuePos ≤ ∑ j ∈ Finset.univ.erase i,
      ((s.producers j).share (Fintype.card ι) s.enqueuePos + 2) := by
    refine Finset.sum_le_sum fun j hj => ?_
    rw [hp, Function.update_of_ne (Finset.ne_of_mem_erase hj)]
    have heffort := (s.producers j).effort_le s.enqueuePos s'.enqueuePos
    unfold Producer.share
    omega
  have hself : s'.producers i = p := by rw [hp, Function.update_self]
  rw [Finset.sum_add_distrib, Finset.sum_const, Finset.card_erase_of_mem (Finset.mem_univ i),
    Finset.card_univ, smul_eq_mul] at hothers
  unfold potential
  rw [← Finset.add_sum_erase _ _ (Finset.mem_univ i), hself,
    ← Finset.add_sum_erase _ (fun j => (s.producers j).share _ _) (Finset.mem_univ i)]
  omega

/-- Every step of a producer is paid for. -/
theorem Valid.potential_pushStep (h : s.Valid k) (hk : 0 < k) (v : T) (weak : Bool) :
    1 + (s.pushStep k i v weak).2.potential ≤
      (2 * Fintype.card ι + 3) * s.completed k (.push i v weak) +
        2 * s.spurious (.push i v weak) + s.potential := by
  have hone : 0 < Fintype.card ι := Fintype.card_pos_iff.mpr ⟨i⟩
  have hpush := h.pushing i
  have henq := h.enqueued
  have hturn (p : Producer T) : (s.setProducer i p).potential +
      (s.producers i).share (Fintype.card ι) s.enqueuePos =
        s.potential + p.share (Fintype.card ι) s.enqueuePos := potential_turn rfl rfl
  have hload (w : T) : (Producer.checking w s.enqueuePos).share (Fintype.card ι) s.enqueuePos =
      3 + 2 * (Fintype.card ι - 1) := by
    simp only [Producer.share, Producer.effort, Producer.threat, Producer.claimed, if_true]
  unfold completed spurious pushStep
  unfold Pushing at hpush
  cases hp : s.producers i with
  | idle =>
    have hnext := hturn (.checking v s.enqueuePos)
    rw [hload, hp] at hnext
    simp only [hp, Producer.share, Producer.effort, Producer.threat, Producer.claimed] at hnext ⊢
    omega
  | reloading w =>
    have hnext := hturn (.checking w s.enqueuePos)
    rw [hload, hp] at hnext
    simp only [hp, Producer.share, Producer.effort, Producer.threat, Producer.claimed] at hnext ⊢
    omega
  | checking w pos =>
    simp only [hp] at hpush
    have hclaim := hturn (.claiming w pos)
    have hstop := hturn .idle
    have hreload := hturn (.reloading w)
    simp only [hp, Producer.share, Producer.effort, Producer.threat, Producer.claimed]
      at hclaim hstop hreload ⊢
    by_cases hfresh : s.enqueuePos = pos
    · simp only [if_pos hfresh] at hclaim hstop hreload
      split
      · simp only
        omega
      · split
        · simp only
          omega
        · next hne hge =>
          -- a slot ahead of the position shows the position claimed, so it is not the next one
          have hlt := h.claimed_of_seq hk hpush (by omega)
          omega
    · simp only [if_neg hfresh] at hclaim hstop hreload
      split
      · simp only
        omega
      · split <;> simp only <;> omega
  | claiming w pos =>
    have hnext := hturn (.checking w s.enqueuePos)
    rw [hload, hp] at hnext
    simp only [hp, Producer.share, Producer.effort, Producer.threat, Producer.claimed] at hnext ⊢
    by_cases hfresh : s.enqueuePos = pos
    · simp only [if_pos hfresh] at hnext
      cases weak with
      | true =>
        simp only [hfresh, Bool.true_eq_false, and_false, if_false, and_self, if_true] at hnext ⊢
        omega
      | false =>
        simp only [hfresh, Bool.false_eq_true, and_false, if_false, and_self, if_true]
        have hclaim : ({ s.setProducer i (.writing w pos) with
            enqueuePos := pos + 1
            claims := s.claims ++ [(i, w)]
            sent := Function.update s.sent i (s.sent i ++ [w]) } :
              MpscRing ι T).potential + _ ≤ _ :=
          potential_claim (s := s) (i := i) (p := .writing w pos) rfl
        simp only [hp, Producer.share, Producer.effort, Producer.threat, Producer.claimed,
          if_pos hfresh] at hclaim
        omega
    · simp only [hfresh, false_and, if_false] at hnext ⊢
      omega
  | writing w pos =>
    have hnext : ({ s.setProducer i (.publishing w pos) with
        data := Function.update s.data (slot k pos) w } : MpscRing ι T).potential + _ = _ :=
      hturn (.publishing w pos)
    rw [hp] at hnext
    simp only [hp, Producer.share, Producer.effort, Producer.threat, Producer.claimed] at hnext ⊢
    omega
  | publishing w pos =>
    have hnext : ({ s.setProducer i .idle with
        seq := Function.update s.seq (slot k pos) (pos + 1) } : MpscRing ι T).potential + _ = _ :=
      hturn .idle
    rw [hp] at hnext
    simp only [hp, Producer.share, Producer.effort, Producer.threat, Producer.claimed] at hnext ⊢
    omega

omit [DecidableEq ι] in
/-- The consumer takes nothing from the producers. -/
theorem potential_popStep (s : MpscRing ι T) : (s.popStep k).2.potential = s.potential := by
  have hnext : (s.popStep k).2.enqueuePos = s.enqueuePos := by
    unfold popStep
    cases s.consumer with
    | idle | reading | releasing | advancing => rfl
    | checking pos =>
      dsimp only
      split <;> rfl
  unfold potential
  rw [(producers_popStep s).1, hnext]

/-- In every interleaving the steps of `n` producers number at most `2 * n + 3` for each call of
`try_push` that returns, two for each spurious failure, and `n * (2 * n + 3)` besides: of that
many steps without a spurious failure one completes a call, whichever producers take them. -/
theorem reachable_progress [Inhabited T] (hk : 0 < k) (h : Reachable k s)
    (as : List (Action ι T)) :
    Run.total stepped (step k) s as ≤
      (2 * Fintype.card ι + 3) * Run.total (completed k) (step k) s as +
        2 * Run.total spurious (step k) s as +
        Fintype.card ι * (2 * Fintype.card ι + 3) := by
  have hcredit (s : MpscRing ι T) (a : Action ι T) (hs : s.Valid k) :
      stepped s a + (s.step k a).potential ≤
        ((2 * Fintype.card ι + 3) * s.completed k a + 2 * s.spurious a) + s.potential := by
    cases a with
    | push i v weak => exact hs.potential_pushStep hk v weak
    | pop =>
      have hsame := potential_popStep (k := k) s
      simp only [stepped, completed, spurious, MpscRing.step, hsame]
      omega
  have htotal := Run.total_le potential hcredit (fun s a hs => by
    cases a with
    | push i v weak => exact hs.push hk i v weak
    | pop => exact hs.pop) (h.valid hk) as
  rw [Run.total_add, Run.total_mul, Run.total_mul] at htotal
  have hstart := potential_le s
  omega

theorem reachable_progress_overtaken :
    Run.total stepped (step 1) overtakenRing overtaking ≤
      (2 * 2 + 3) * Run.total (completed 1) (step 1) overtakenRing overtaking +
        2 * Run.total spurious (step 1) overtakenRing overtaking + 2 * (2 * 2 + 3) :=
  reachable_progress (by decide) (Run.Reach.foldl Run.Reach.init (by decide)) overtaking

end MpscRing

end Lob
