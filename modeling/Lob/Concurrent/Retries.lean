import Lob.Concurrent.MpscRing

/-!
# Retries of the many-producer ring

A producer goes round the loop of `try_push` for two reasons: the
compare-and-swap fails, or the slot is ahead of the position. Unless the
compare-and-swap fails spuriously, both show that another push has claimed
the position since it was loaded.
-/

namespace Lob

namespace MpscRing

variable {ι T : Type} [DecidableEq ι] {k : Nat} {s s' : MpscRing ι T} {i : ι}

/-- The next step of producer `i` takes `pos` from `enqueue_pos_`. -/
def Loads (k : Nat) (s : MpscRing ι T) (i : ι) (v : T) (weak : Bool) (pos : Nat) : Prop :=
  ∃ w, (s.pushStep k i v weak).2.producers i = .checking w pos

/-- The next step of producer `i` sends it round the loop with `pos` taken, and is no
compare-and-swap that fails spuriously. -/
def Retries (k : Nat) (s : MpscRing ι T) (i : ι) (v : T) (weak : Bool) (pos : Nat) : Prop :=
  (∃ w, s.producers i = .claiming w pos ∧ ¬ (s.enqueuePos = pos ∧ weak = true) ∧
    ∃ pos', (s.pushStep k i v weak).2.producers i = .checking w pos') ∨
  ∃ w, s.producers i = .checking w pos ∧ (s.pushStep k i v weak).2.producers i = .reloading w

/-- The producer has claimed no position from the one it has taken on. -/
def Unclaimed (s : MpscRing ι T) (i : ι) : Prop :=
  match s.producers i with
  | .checking _ pos | .claiming _ pos => ∀ q c, pos ≤ q → s.claims[q]? = some c → c.1 ≠ i
  | _ => True

omit [DecidableEq ι] in
/-- A position that was just loaded is past every claim. -/
theorem unclaimed_of_length_le {w : T} {pos : Nat} (hp : s.producers i = .checking w pos)
    (hpos : s.claims.length ≤ pos) : s.Unclaimed i := by
  unfold Unclaimed
  rw [hp]
  intro q c hq hc
  have hlt := (List.getElem?_eq_some_iff.mp hc).1
  omega

/-- What a step of a producer does to the claims. -/
theorem claims_pushStep (s : MpscRing ι T) (v : T) (weak : Bool) :
    (s.pushStep k i v weak).2.claims = s.claims ∨
      ∃ w, (s.pushStep k i v weak).2.claims = s.claims ++ [(i, w)] := by
  unfold pushStep
  cases hp : s.producers i with
  | idle | reloading | writing | publishing => exact Or.inl rfl
  | checking w pos =>
    left
    dsimp only
    split
    · rfl
    · split <;> rfl
  | claiming w pos =>
    dsimp only
    split
    · exact Or.inr ⟨w, rfl⟩
    · exact Or.inl rfl

/-- A step of a producer leaves the others where they are. -/
theorem producers_pushStep (s : MpscRing ι T) (v : T) (weak : Bool) {j : ι} (hj : j ≠ i) :
    (s.pushStep k i v weak).2.producers j = s.producers j := by
  unfold pushStep
  cases hp : s.producers i with
  | idle | reloading | writing | publishing => exact Function.update_of_ne hj ..
  | checking w pos =>
    dsimp only
    split
    · exact Function.update_of_ne hj ..
    · split <;> exact Function.update_of_ne hj ..
  | claiming w pos =>
    dsimp only
    split <;> exact Function.update_of_ne hj ..

omit [DecidableEq ι] in
/-- A step of the consumer leaves the producers and their claims alone. -/
theorem producers_popStep (s : MpscRing ι T) :
    (s.popStep k).2.producers = s.producers ∧ (s.popStep k).2.claims = s.claims := by
  unfold popStep
  cases s.consumer with
  | idle | reading | releasing | advancing => exact ⟨rfl, rfl⟩
  | checking pos =>
    dsimp only
    split <;> exact ⟨rfl, rfl⟩

/-- A load finds the position of the next claim. -/
theorem Loads.eq_enqueuePos {v : T} {weak : Bool} {pos : Nat} (h : s.Loads k i v weak pos) :
    pos = s.enqueuePos := by
  obtain ⟨w, h⟩ := h
  unfold pushStep at h
  cases hp : s.producers i with
  | idle | reloading | writing | publishing =>
    simp only [hp, setProducer, Function.update_self] at h
    cases h <;> rfl
  | checking u p =>
    simp only [hp] at h
    split at h
    · simp [setProducer] at h
    · split at h <;> simp [setProducer] at h
  | claiming u p =>
    simp only [hp] at h
    split at h
    · simp [setProducer] at h
    · simp only [setProducer, Function.update_self] at h
      cases h
      rfl

/-- A producer's own step keeps its claims behind the position it has taken on. -/
theorem Unclaimed.push_self (h : s.Unclaimed i) (hv : s.Valid k) (v : T) (weak : Bool) :
    (s.pushStep k i v weak).2.Unclaimed i := by
  have hload (w : T) : (s.setProducer i (.checking w s.enqueuePos)).Unclaimed i :=
    unclaimed_of_length_le (Function.update_self ..) (Nat.le_of_eq hv.enqueued.symm)
  unfold Unclaimed at h
  unfold pushStep
  cases hp : s.producers i with
  | idle | reloading => exact hload _
  | writing | publishing => simp only [Unclaimed, setProducer, Function.update_self]
  | checking w pos =>
    simp only [hp] at h ⊢
    split
    · simp only [Unclaimed, setProducer, Function.update_self]
      exact h
    · split <;> simp only [Unclaimed, setProducer, Function.update_self]
  | claiming w pos =>
    dsimp only
    split
    · simp only [Unclaimed, setProducer, Function.update_self]
    · exact hload w

omit [DecidableEq ι] in
/-- Claims of the others leave a producer's own behind the position it has taken on. -/
theorem Unclaimed.frame (h : s.Unclaimed i) (hp : s'.producers i = s.producers i)
    (hc : ∀ (q : Nat) c, s'.claims[q]? = some c → c.1 = i → s.claims[q]? = some c) :
    s'.Unclaimed i := by
  unfold Unclaimed at h ⊢
  rw [hp]
  cases hs : s.producers i with
  | idle | reloading | writing | publishing => trivial
  | checking w pos =>
    simp only [hs] at h ⊢
    exact fun q c hq hqc he => h q c hq (hc q c hqc he) he
  | claiming w pos =>
    simp only [hs] at h ⊢
    exact fun q c hq hqc he => h q c hq (hc q c hqc he) he

/-- Every step keeps every producer's claims behind the position it has taken on. -/
theorem Unclaimed.step (h : s.Unclaimed i) (hv : s.Valid k) (a : Action ι T) :
    (s.step k a).Unclaimed i := by
  cases a with
  | pop =>
    obtain ⟨hp, hc⟩ := producers_popStep (k := k) s
    exact h.frame (by rw [MpscRing.step, hp]) (by
      intro q c hq _
      rwa [MpscRing.step, hc] at hq)
  | push j v weak =>
    rcases eq_or_ne i j with rfl | hij
    · exact h.push_self hv v weak
    · refine h.frame (producers_pushStep s v weak hij) fun q c hq he => ?_
      rcases claims_pushStep (k := k) (i := j) s v weak with hc | ⟨w, hc⟩
      · rwa [MpscRing.step, hc] at hq
      · rw [MpscRing.step, hc, List.getElem?_append] at hq
        split at hq
        · exact hq
        · obtain rfl : c = (j, w) := by
            have hmem := List.mem_of_getElem? hq
            exact List.mem_singleton.mp hmem
          exact absurd he.symm hij

theorem Reachable.unclaimed [Inhabited T] (h : Reachable k s) (hk : 0 < k) (i : ι) :
    s.Unclaimed i :=
  Run.Reach.invariant_of (I := fun s => s.Unclaimed i) (J := Valid k) h
    (fun _ hs => Reachable.valid hs hk) trivial fun _ a hv hs _ => hs.step hv a

/-- A slot ahead of a position that was loaded shows that the position is claimed. -/
theorem Valid.claimed_of_seq (h : s.Valid k) (hk : 0 < k) {pos : Nat}
    (hpos : pos ≤ s.claims.length) (hseq : pos < s.seq (slot k pos)) : pos < s.claims.length := by
  have hroom := h.room
  have hrel := h.released
  have htwo : 2 ≤ 2 ^ k := Nat.le_self_pow (by omega) 2
  obtain ⟨q, hlo, hhi, hq⟩ := Ring.exists_pos (Nat.two_pow_pos k) s.released pos
  have hslot : slot k q = slot k pos := by rw [slot_eq, slot_eq, hq]
  by_contra hge
  have hlast : pos = s.claims.length := by omega
  rcases h.seq_cases hlo hhi with hs | ⟨hs, hund⟩
  · -- an unpublished position of the window stands for itself, so it is not ahead of `pos`
    rw [hslot] at hs
    have he := slot_inj hslot (by omega) (by omega)
    omega
  · rw [hslot] at hs
    have hund' := hund.2.1
    omega

/-- The position a retrying producer has taken on is claimed. -/
theorem Valid.lt_of_retries (h : s.Valid k) (hk : 0 < k) {v : T} {weak : Bool} {pos : Nat}
    (hr : s.Retries k i v weak pos) : pos < s.claims.length := by
  have hpush := h.pushing i
  rcases hr with ⟨w, hp, hspurious, pos', hnext⟩ | ⟨w, hp, hnext⟩
  · simp only [Pushing, hp] at hpush
    have hfail : s.enqueuePos ≠ pos := by
      rintro rfl
      have hstrong : weak = false := by
        cases weak with
        | false => rfl
        | true => exact absurd ⟨rfl, rfl⟩ hspurious
      simp [pushStep, hp, hstrong, setProducer] at hnext
    have henq := h.enqueued
    omega
  · simp only [Pushing, hp] at hpush
    refine h.claimed_of_seq hk hpush ?_
    by_contra hle
    simp only [pushStep, hp] at hnext
    split at hnext
    · simp [setProducer] at hnext
    · rw [if_pos (by omega)] at hnext
      simp [setProducer] at hnext

/-- A producer that retries has been overtaken: the position it loaded is claimed, and by
another one. -/
theorem Valid.overtaken (h : s.Valid k) (hk : 0 < k) (hu : s.Unclaimed i) {v : T} {weak : Bool}
    {pos : Nat} (hr : s.Retries k i v weak pos) :
    ∃ c, s.claims[pos]? = some c ∧ c.1 ≠ i := by
  have hlt := h.lt_of_retries hk hr
  refine ⟨s.claims[pos], List.getElem?_eq_getElem hlt, ?_⟩
  unfold Unclaimed at hu
  rcases hr with ⟨w, hp, _⟩ | ⟨w, hp, _⟩
  · rw [hp] at hu
    exact hu pos _ (Nat.le_refl _) (List.getElem?_eq_getElem hlt)
  · rw [hp] at hu
    exact hu pos _ (Nat.le_refl _) (List.getElem?_eq_getElem hlt)

/-- In every interleaving, a producer that goes round its loop without a spurious failure finds
`enqueue_pos_` past the position it loaded, and since that load another one has claimed. -/
theorem reachable_retries [Inhabited T] (hk : 0 < k) (h : Reachable k s) {v : T} {weak : Bool}
    {pos : Nat} (hr : s.Retries k i v weak pos) :
    pos < s.enqueuePos ∧ ∀ s₀ u b (as : List (Action ι T)), Reachable k s₀ → s₀.Loads k i u b pos →
      as.foldl (step k) s₀ = s → ∃ c ∈ s.claims.drop s₀.claims.length, c.1 ≠ i := by
  have hv := h.valid hk
  obtain ⟨c, hc, hne⟩ := hv.overtaken hk (h.unclaimed hk i) hr
  refine ⟨?_, fun s₀ u b as h₀ hload _ => ⟨c, ?_, hne⟩⟩
  · rw [hv.enqueued]
    exact hv.lt_of_retries hk hr
  · have hlen := (h₀.valid hk).enqueued
    have hpos := hload.eq_enqueuePos
    apply List.mem_of_getElem? (i := 0)
    rw [List.getElem?_drop]
    simpa [← hlen, ← hpos] using hc

/-- What producer `true` does between two steps of producer `false`. -/
def overtaking : List (Action Bool Nat) :=
  .push false 5 false :: List.replicate 5 (.push true 6 false)

/-- A producer that has loaded the first position and finds its slot published. -/
def overtakenRing : MpscRing Bool Nat :=
  overtaking.foldl (step 1) new

theorem reachable_retries_overtaken :
    0 < overtakenRing.enqueuePos ∧ ∃ c ∈ overtakenRing.claims.drop 0, c.1 ≠ false := by
  have hr : overtakenRing.Retries 1 false 5 false 0 := Or.inr ⟨5, rfl, rfl⟩
  have hreach : Reachable 1 overtakenRing := Run.Reach.foldl Run.Reach.init (by decide)
  obtain ⟨hpos, hclaim⟩ := reachable_retries (by decide) hreach hr
  exact ⟨hpos, hclaim new 5 false overtaking Run.Reach.init ⟨5, rfl⟩ rfl⟩

end MpscRing

end Lob
