import Lob.Core.Trigger

/-!
# Precedence in trigger queues

What is pending and what is queued, read one after the other, keeps its order: an
entry becomes pending behind the others that are, and a pass queues them ahead of
what waits. So it can be told before a run which entries stand ahead of which. With
a bound on the prices that a firing may trade at, it can be told as well that no
pass overlooks an entry that its price meets, and that none fires out of turn.
-/

namespace Trigger

variable {α P : Type*} {l l' : List α} {a b c : α}

section Ahead

/-- `a` stands in the list ahead of every `b`. -/
def Ahead (l : List α) (a b : α) : Prop := ∃ l₁ l₂, l = l₁ ++ b :: l₂ ∧ b ∉ l₁ ∧ a ∈ l₁

/-- The first occurrence decides, so the relation can be computed. -/
theorem ahead_iff [DecidableEq α] : Ahead l a b ↔ b ∈ l ∧ a ∈ l.takeWhile fun c => c ≠ b := by
  have htake {l₁ l₂ : List α} (hb : b ∉ l₁) :
      (l₁ ++ b :: l₂).takeWhile (fun c => c ≠ b) = l₁ := by
    have hne : ∀ c ∈ l₁, decide (c ≠ b) = true := fun c hc =>
      decide_eq_true fun he => hb (he ▸ hc)
    rw [List.takeWhile_append_of_pos hne, List.takeWhile_cons_of_neg (by simp), List.append_nil]
  constructor
  · rintro ⟨l₁, l₂, rfl, hb, ha⟩
    rw [htake hb]
    exact ⟨List.mem_append_right _ List.mem_cons_self, ha⟩
  · rintro ⟨hb, ha⟩
    obtain ⟨l₁, l₂, rfl, hb'⟩ := List.eq_append_cons_of_mem hb
    rw [htake hb'] at ha
    exact ⟨l₁, l₂, rfl, hb', ha⟩

instance [DecidableEq α] : Decidable (Ahead l a b) := decidable_of_iff _ ahead_iff.symm

/-- The first `b` comes in the second part. -/
theorem ahead_append (ha : a ∈ l) (hb : b ∉ l) (hb' : b ∈ l') : Ahead (l ++ l') a b := by
  obtain ⟨m, m', rfl, hm⟩ := List.eq_append_cons_of_mem hb'
  refine ⟨l ++ m, m', (List.append_assoc ..).symm, ?_, List.mem_append_left _ ha⟩
  rw [List.mem_append, not_or]
  exact ⟨hb, hm⟩

/-- Of two entries one stands ahead. -/
theorem Ahead.asymm (h : Ahead l a b) : ¬ Ahead l b a := by
  rintro ⟨m₁, m₂, he, hb, ha⟩
  obtain ⟨l₁, l₂, rfl, hb', ha'⟩ := h
  rcases List.append_eq_append_iff.mp he with ⟨m, rfl, -⟩ | ⟨m, rfl, -⟩
  · exact hb (List.mem_append_left _ ha')
  · exact hb' (List.mem_append_left _ ha)

/-- Other entries do not matter. -/
theorem Ahead.insert (h : Ahead (l ++ l') a b) (hc : b ≠ c) : Ahead (l ++ c :: l') a b := by
  obtain ⟨l₁, l₂, he, hb, ha⟩ := h
  rcases List.append_eq_append_iff.mp he with ⟨m, rfl, rfl⟩ | ⟨m, rfl, hm⟩
  · rw [List.mem_append] at ha hb
    rw [not_or] at hb
    refine ⟨l ++ c :: m, l₂, by simp, ?_, ?_⟩
    · simp [hb, hc]
    · rcases ha with ha | ha
      · exact List.mem_append_left _ ha
      · exact List.mem_append_right _ (List.mem_cons_of_mem c ha)
  · cases m with
    | nil =>
      refine ⟨l₁ ++ [c], l₂, ?_, ?_, List.mem_append_left _ ha⟩
      · rw [List.nil_append] at hm
        simp [← hm]
      · simp [hb, hc]
    | cons d m =>
      obtain ⟨rfl, -⟩ := List.cons.inj hm
      exact ⟨l₁, m ++ c :: l', by simp, hb, ha⟩

end Ahead

/-- What is pending, and behind it what is queued. -/
def State.queue (s : State α P) : List α := s.pending ++ s.tasks.map Task.slot

variable {meets : P → α → Prop} {guard : State α P → Task α P → P → Prop} {s s₀ s' : State α P}
  {t : Task α P} {K : List (Task α P)} {p p₀ : P} {n n₀ : Nat}

section Steps

variable (meets) in
/-- The entry `t` leaves the queue without firing. -/
structure Drops (s : State α P) (t : Task α P) (K : List (Task α P)) (s' : State α P) : Prop where
  head : s.tasks = t :: K
  idle : ¬ s.Due meets t
  tasks : s'.tasks = K
  armed : s'.armed = s.armed
  fired : s'.fired = s.fired
  traded : s'.traded = s.traded
  pending : s'.pending = s.pending ++ [t.slot] ∨ s'.pending = s.pending ∧ t.slot ∉ s.armed

/-- The cases of a step: an entry is dropped, or it fires, and may begin a pass. -/
theorem Step.preserves {I : State α P → Prop} (h : Step meets guard s s')
    (hdrop : ∀ t K, Drops meets s t K s' → I s')
    (hfire : ∀ t K, s.tasks = t :: K → s.Due meets t → I (s.fire t K))
    (hbegin : ∀ t K p n, s.tasks = t :: K → s.Due meets t → guard s t p →
      (∀ u ∈ s.tasks ++ s.fired, u.pass < n) → I (s.fire t K) → I ((s.fire t K).begin p n)) :
    I s' := by
  cases h with
  | miss t K keep ht harmed =>
    refine hdrop t K ⟨ht, fun hd => harmed hd.1, rfl, rfl, rfl, rfl, ?_⟩
    cases keep with
    | false => exact Or.inr ⟨rfl, harmed⟩
    | true => exact Or.inl rfl
  | keep t K ht harmed hmeets =>
    exact hdrop t K ⟨ht, fun hd => hmeets hd.2, rfl, rfl, rfl, rfl, Or.inl rfl⟩
  | fire t K ht hdue => exact hfire t K ht hdue
  | trade t K p n ht hdue hguard hn => exact hbegin t K p n ht hdue hguard hn (hfire t K ht hdue)

/-- Firing moves an entry. -/
theorem State.mem_fire (ht : s.tasks = t :: K) {u : Task α P}
    (hu : u ∈ (s.fire t K).tasks ++ (s.fire t K).fired) : u ∈ s.tasks ++ s.fired := by
  rw [ht]
  rcases List.mem_append.mp hu with hu | hu
  · exact List.mem_append_left _ (List.mem_cons_of_mem t hu)
  · rcases List.mem_append.mp hu with hu | hu
    · exact List.mem_append_right _ hu
    · rw [List.mem_singleton.mp hu]
      exact List.mem_append_left _ List.mem_cons_self

/-- Only tasks go. -/
theorem Drops.tasks_subset (h : Drops meets s t K s') : ∀ u ∈ s'.tasks, u ∈ s.tasks := by
  rw [h.tasks, h.head]
  exact fun u hu => List.mem_cons_of_mem t hu

/-- What is due does not depend on the tasks. -/
theorem Drops.due_iff (h : Drops meets s t K s') {u : Task α P} :
    s'.Due meets u ↔ s.Due meets u := by
  rw [State.Due, State.Due, h.armed]

/-- An armed entry that leaves the queue becomes pending. -/
theorem Drops.queue (h : Drops meets s t K s') (hb : b ∈ s.armed) (hahead : Ahead s'.queue a b) :
    Ahead s.queue a b := by
  unfold State.queue at *
  rw [h.head, List.map_cons]
  rw [h.tasks] at hahead
  rcases h.pending with hp | ⟨hp, hdead⟩
  · rwa [hp, List.append_assoc] at hahead
  · rw [hp] at hahead
    exact hahead.insert fun he => hdead (he ▸ hb)

end Steps

section Placed

/-- The passes of the tasks: the later ones stand in front, and each has one price. The first pass
has number `n₀` and price `p₀`. -/
structure State.Passes (s : State α P) (p₀ : P) (n₀ : Nat) : Prop where
  sorted : s.tasks.Pairwise fun t u => u.pass ≤ t.pass
  same : ∀ t ∈ s.tasks ++ s.fired, ∀ u ∈ s.tasks ++ s.fired, t.pass = u.pass → t.last = u.last
  root : ∀ t ∈ s.tasks ++ s.fired, n₀ ≤ t.pass ∧ (t.pass = n₀ → t.last = p₀)
  priced : ∀ t ∈ s.tasks ++ s.fired, t.last ∈ s.traded

variable (meets) in
/-- The entries, in a run from `s₀`: one that is due does not become pending again before its pass
takes it. -/
structure State.Entries (s s₀ : State α P) (p₀ : P) (n₀ : Nat) : Prop where
  armed : s.armed ⊆ s₀.armed
  known : ∀ f ∈ s.fired, f.slot ∈ s₀.armed
  covered : ∀ a ∈ s₀.armed, a ∈ s.armed ∨ ∃ f ∈ s.fired, f.slot = a
  once : (s.fired.map Task.slot).Nodup
  gone : ∀ f ∈ s.fired, f.slot ∉ s.armed ∧ meets f.last f.slot
  waits : ∀ u ∈ s.tasks, s.Due meets u →
    u.slot ∉ s.pending ∧ ∀ v ∈ s.tasks, v.slot = u.slot → v.pass ≤ u.pass
  rooted : ∀ a ∈ s.armed, meets p₀ a → ∃ t ∈ s.tasks, t.slot = a ∧ t.pass = n₀

variable (meets) in
/-- The order of the entries is that of the queue `q`. -/
structure State.Arranged (s : State α P) (q : List α) (n₀ : Nat) : Prop where
  order : ∀ b ∈ s.armed, ∀ a, Ahead s.queue a b → Ahead q a b
  /-- Nothing behind an entry that waits in the first pass has fired. -/
  behind : ∀ b ∈ s.armed, b ∉ s.pending → (∀ t ∈ s.tasks, t.slot = b → t.pass = n₀) →
    ∀ f ∈ s.fired, Ahead q f.slot b
  turns : ∀ f ∈ s.fired, ∀ u ∈ s.tasks, s.Due meets u → f.pass = u.pass → Ahead q f.slot u.slot
  fired : s.fired.Pairwise fun t u => t.pass = u.pass → Ahead q t.slot u.slot

variable {q : List α}

/-- Fewer tasks, none of them new. -/
theorem State.Passes.mono (h : s.Passes p₀ n₀) (hsub : s'.tasks.Sublist s.tasks)
    (hall : ∀ t ∈ s'.tasks ++ s'.fired, t ∈ s.tasks ++ s.fired) (htraded : s'.traded = s.traded) :
    s'.Passes p₀ n₀ where
  sorted := h.sorted.sublist hsub
  same t ht u hu := h.same t (hall t ht) u (hall u hu)
  root t ht := h.root t (hall t ht)
  priced t ht := by
    rw [htraded]
    exact h.priced t (hall t ht)

/-- An entry that is dropped leaves the passes of the others. -/
theorem State.Passes.drop (h : s.Passes p₀ n₀) (hd : Drops meets s t K s') :
    s'.Passes p₀ n₀ := by
  refine h.mono ?_ (fun u hu => ?_) hd.traded
  · rw [hd.tasks, hd.head]
    exact List.sublist_cons_self t K
  · rw [hd.fired] at hu
    exact (List.mem_append.mp hu).elim (fun hu => List.mem_append_left _ (hd.tasks_subset u hu))
      (List.mem_append_right _)

/-- An entry keeps its pass when it fires. -/
theorem State.Passes.fire (h : s.Passes p₀ n₀) (ht : s.tasks = t :: K) :
    (s.fire t K).Passes p₀ n₀ := by
  refine h.mono ?_ (fun u hu => State.mem_fire ht hu) rfl
  rw [ht]
  exact List.sublist_cons_self t K

/-- A fresh pass is the latest one. -/
theorem State.Passes.begin (h : s.Passes p₀ n₀) (hn₀ : n₀ < n)
    (hn : ∀ u ∈ s.tasks ++ s.fired, u.pass < n) : (s.begin p n).Passes p₀ n₀ := by
  have hcases : ∀ t ∈ (s.begin p n).tasks ++ (s.begin p n).fired,
      t.pass = n ∧ t.last = p ∨ t ∈ s.tasks ++ s.fired := by
    intro t ht
    simp only [State.begin, List.append_assoc] at ht
    rcases List.mem_append.mp ht with ht | ht
    · obtain ⟨a, -, rfl⟩ := List.mem_map.mp ht
      exact Or.inl ⟨rfl, rfl⟩
    · exact Or.inr ht
  constructor
  · refine List.pairwise_append.mpr ⟨List.pairwise_map.mpr ?_, h.sorted, ?_⟩
    · exact List.pairwise_of_forall fun _ _ => Nat.le_refl n
    · intro t ht u hu
      obtain ⟨a, -, rfl⟩ := List.mem_map.mp ht
      exact Nat.le_of_lt (hn u (List.mem_append_left _ hu))
  · intro t ht u hu hpass
    rcases hcases t ht with ⟨htn, htp⟩ | ht
    · rcases hcases u hu with ⟨_, hup⟩ | hu
      · exact htp.trans hup.symm
      · exact absurd (hpass.symm.trans htn) (Nat.ne_of_lt (hn u hu))
    · rcases hcases u hu with ⟨hun, _⟩ | hu
      · exact absurd (hpass.trans hun) (Nat.ne_of_lt (hn t ht))
      · exact h.same t ht u hu hpass
  · intro t ht
    rcases hcases t ht with ⟨htn, _⟩ | ht
    · rw [htn]
      exact ⟨Nat.le_of_lt hn₀, fun he => absurd he (Nat.ne_of_gt hn₀)⟩
    · exact h.root t ht
  · intro t ht
    rcases hcases t ht with ⟨_, htp⟩ | ht
    · rw [htp]
      exact List.mem_append_right _ (List.mem_singleton_self p)
    · exact List.mem_append_left _ (h.priced t ht)

/-- An entry that its pass does not fire cannot be due in another queue, which is an older one. -/
theorem State.Entries.drop (h : s.Entries meets s₀ p₀ n₀) (hp : s.Passes p₀ n₀)
    (hd : Drops meets s t K s') : s'.Entries meets s₀ p₀ n₀ := by
  have hsorted := hp.sorted
  rw [hd.head, List.pairwise_cons] at hsorted
  constructor
  · rw [hd.armed]
    exact h.armed
  · rw [hd.fired]
    exact h.known
  · rw [hd.armed, hd.fired]
    exact h.covered
  · rw [hd.fired]
    exact h.once
  · rw [hd.armed, hd.fired]
    exact h.gone
  · intro u hu hdue
    have hdue' := hd.due_iff.mp hdue
    obtain ⟨hpend, hlast⟩ := h.waits u (hd.tasks_subset u hu) hdue'
    refine ⟨?_, fun v hv he => hlast v (hd.tasks_subset v hv) he⟩
    rcases hd.pending with hpending | ⟨hpending, -⟩
    · rw [hpending, List.mem_append, List.mem_singleton, not_or]
      refine ⟨hpend, fun he => hd.idle ?_⟩
      -- Both copies are in one pass, at one price.
      have hmem : t ∈ s.tasks := by rw [hd.head]; exact List.mem_cons_self
      have hle := hlast t hmem he.symm
      have hge := hsorted.1 u (hd.tasks ▸ hu)
      have hprice := hp.same t (List.mem_append_left _ hmem) u
        (List.mem_append_left _ (hd.tasks_subset u hu)) (Nat.le_antisymm hle hge)
      rw [State.Due, hprice, ← he]
      exact hdue'
    · rw [hpending]
      exact hpend
  · intro a ha hm
    rw [hd.armed] at ha
    obtain ⟨u, hu, rfl, hroot⟩ := h.rooted a ha hm
    rw [hd.tasks]
    rw [hd.head] at hu
    rcases List.mem_cons.mp hu with rfl | hu
    · have hmem : u ∈ s.tasks := by rw [hd.head]; exact List.mem_cons_self
      have hprice := (hp.root u (List.mem_append_left _ hmem)).2 hroot
      exact absurd ⟨ha, hprice ▸ hm⟩ hd.idle
    · exact ⟨u, hu, rfl, hroot⟩

/-- An entry fires once, and is gone then. -/
theorem State.Entries.fire (h : s.Entries meets s₀ p₀ n₀) (ht : s.tasks = t :: K)
    (hdue : s.Due meets t) : (s.fire t K).Entries meets s₀ p₀ n₀ := by
  have hsub : ∀ u ∈ K, u ∈ s.tasks := by
    rw [ht]
    exact fun u hu => List.mem_cons_of_mem t hu
  have hcases : ∀ f ∈ (s.fire t K).fired, f ∈ s.fired ∨ f = t := fun f hf =>
    (List.mem_append.mp hf).imp_right List.mem_singleton.mp
  constructor
  · exact fun a ha => h.armed ha.1
  · intro f hf
    rcases hcases f hf with hf | rfl
    · exact h.known f hf
    · exact h.armed hdue.1
  · intro a ha
    by_cases he : t.slot = a
    · exact Or.inr ⟨t, List.mem_append_right _ (List.mem_singleton_self t), he⟩
    · rcases h.covered a ha with harmed | ⟨f, hf, hfa⟩
      · exact Or.inl ⟨harmed, fun hc => he hc.symm⟩
      · exact Or.inr ⟨f, List.mem_append_left _ hf, hfa⟩
  · have hnew : t.slot ∉ s.fired.map Task.slot := by
      rintro hmem
      obtain ⟨f, hf, he⟩ := List.mem_map.mp hmem
      exact (h.gone f hf).1 (he ▸ hdue.1)
    have hfired : (s.fire t K).fired.map Task.slot = s.fired.map Task.slot ++ [t.slot] :=
      List.map_append
    rw [hfired, List.nodup_append]
    refine ⟨h.once, List.pairwise_singleton _ _, fun a ha b hb he => hnew ?_⟩
    rw [← List.mem_singleton.mp hb, ← he]
    exact ha
  · intro f hf
    rcases hcases f hf with hf | rfl
    · exact ⟨fun ha => (h.gone f hf).1 ha.1, (h.gone f hf).2⟩
    · exact ⟨fun ha => ha.2 rfl, hdue.2⟩
  · intro u hu hdu
    obtain ⟨hpend, hlast⟩ := h.waits u (hsub u hu) ⟨hdu.1.1, hdu.2⟩
    exact ⟨hpend, fun v hv he => hlast v (hsub v hv) he⟩
  · intro a ha hm
    obtain ⟨u, hu, rfl, hroot⟩ := h.rooted a ha.1 hm
    rw [ht] at hu
    rcases List.mem_cons.mp hu with rfl | hu
    · exact absurd rfl ha.2
    · exact ⟨u, hu, rfl, hroot⟩

/-- A pass takes everything that is pending. -/
theorem State.Entries.begin (h : s.Entries meets s₀ p₀ n₀) (p : P)
    (hn : ∀ u ∈ s.tasks ++ s.fired, u.pass < n) : (s.begin p n).Entries meets s₀ p₀ n₀ := by
  refine ⟨h.armed, h.known, h.covered, h.once, h.gone, ?_, ?_⟩
  · intro u hu hdu
    refine ⟨List.not_mem_nil, fun v hv he => ?_⟩
    rcases List.mem_append.mp hu with hu | hu
    · obtain ⟨a, -, rfl⟩ := List.mem_map.mp hu
      rcases List.mem_append.mp hv with hv | hv
      · obtain ⟨b, -, rfl⟩ := List.mem_map.mp hv
        exact Nat.le_refl n
      · exact Nat.le_of_lt (hn v (List.mem_append_left _ hv))
    · obtain ⟨hpend, hlast⟩ := h.waits u hu hdu
      rcases List.mem_append.mp hv with hv | hv
      · obtain ⟨b, hb, rfl⟩ := List.mem_map.mp hv
        exact absurd (he ▸ hb) hpend
      · exact hlast v hv he
  · intro a ha hm
    obtain ⟨u, hu, hua, hroot⟩ := h.rooted a ha hm
    exact ⟨u, List.mem_append_right _ hu, hua, hroot⟩

/-- What is pending, or first in the queue, stands ahead of an entry that waits behind. -/
theorem State.ahead_of_waits (ht : s.tasks = t :: K) (ha : a ∈ s.pending ∨ a = t.slot)
    (hb : b ∉ s.pending) (hne : b ≠ t.slot) (hmem : ∃ u ∈ s.tasks, u.slot = b) :
    Ahead s.queue a b := by
  have hqueue : s.queue = (s.pending ++ [t.slot]) ++ K.map Task.slot := by
    rw [State.queue, ht, List.map_cons, List.append_assoc]
    rfl
  obtain ⟨u, hu, rfl⟩ := hmem
  rw [ht] at hu
  rw [hqueue]
  refine ahead_append ?_ ?_ ?_
  · rw [List.mem_append, List.mem_singleton]
    exact ha
  · rw [List.mem_append, List.mem_singleton, not_or]
    exact ⟨hb, hne⟩
  · rcases List.mem_cons.mp hu with rfl | hu
    · exact absurd rfl hne
    · exact List.mem_map_of_mem hu

/-- What becomes pending again goes behind what is pending, where the queue had it. -/
theorem State.Arranged.drop {q : List α} (h : s.Arranged meets q n₀) (hd : Drops meets s t K s') :
    s'.Arranged meets q n₀ := by
  constructor
  · rw [hd.armed]
    exact fun b hb a hahead => h.order b hb a (hd.queue hb hahead)
  · rw [hd.armed, hd.fired]
    intro b hb hpend hroot
    have hnot : b ∉ s.pending ∧ b ≠ t.slot := by
      rcases hd.pending with hp | ⟨hp, hdead⟩
      · rw [hp, List.mem_append, List.mem_singleton, not_or] at hpend
        exact hpend
      · exact ⟨hp ▸ hpend, fun he => hdead (he ▸ hb)⟩
    refine h.behind b hb hnot.1 fun u hu he => ?_
    rw [hd.head] at hu
    rcases List.mem_cons.mp hu with rfl | hu
    · exact absurd he.symm hnot.2
    · exact hroot u (hd.tasks ▸ hu) he
  · rw [hd.fired]
    exact fun f hf u hu hdue => h.turns f hf u (hd.tasks_subset u hu) (hd.due_iff.mp hdue)
  · rw [hd.fired]
    exact h.fired

/-- What fires stood ahead of all that waits in its pass. -/
theorem State.Arranged.fire {q : List α} (h : s.Arranged meets q n₀)
    (he : s.Entries meets s₀ p₀ n₀) (ht : s.tasks = t :: K) (hdue : s.Due meets t)
    (hheld : s.Held) : (s.fire t K).Arranged meets q n₀ := by
  have hsub : ∀ u ∈ K, u ∈ s.tasks := by
    rw [ht]
    exact fun u hu => List.mem_cons_of_mem t hu
  constructor
  · intro b hb a hahead
    refine h.order b hb.1 a ?_
    unfold State.queue at *
    rw [ht]
    exact hahead.insert fun heq => hb.2 heq
  · intro b hb hpend hroot f hf
    have hne : b ≠ t.slot := fun heq => hb.2 heq
    rcases List.mem_append.mp hf with hf | hf
    · refine h.behind b hb.1 hpend (fun u hu heq => ?_) f hf
      rw [ht] at hu
      rcases List.mem_cons.mp hu with rfl | hu
      · exact absurd heq.symm hne
      · exact hroot u hu heq
    · rw [List.mem_singleton.mp hf]
      refine h.order b hb.1 t.slot (State.ahead_of_waits ht (Or.inr rfl) hpend hne ?_)
      exact (hheld b hb.1).resolve_left hpend
  · intro f hf u hu hdu hpass
    have hdu' : s.Due meets u := ⟨hdu.1.1, hdu.2⟩
    rcases List.mem_append.mp hf with hf | hf
    · exact h.turns f hf u (hsub u hu) hdu' hpass
    · rw [List.mem_singleton.mp hf]
      exact h.order u.slot hdu'.1 t.slot (State.ahead_of_waits ht (Or.inr rfl)
        (he.waits u (hsub u hu) hdu').1 (fun heq => hdu.1.2 heq) ⟨u, hsub u hu, rfl⟩)
  · refine List.pairwise_append.mpr ⟨h.fired, List.pairwise_singleton _ _, fun f hf u hu => ?_⟩
    rw [List.mem_singleton.mp hu]
    exact h.turns f hf t (ht ▸ List.mem_cons_self) hdue

/-- A pass keeps the order. -/
theorem State.Arranged.begin {q : List α} (h : s.Arranged meets q n₀) (p : P) (hn₀ : n₀ < n)
    (hn : ∀ u ∈ s.tasks ++ s.fired, u.pass < n) : (s.begin p n).Arranged meets q n₀ := by
  have hqueue : (s.begin p n).queue = s.queue := by
    simp only [State.queue, State.begin, List.nil_append, List.map_append, List.map_map,
      Function.comp_def, List.map_id']
  constructor
  · rw [hqueue]
    exact h.order
  · intro b hb _ hroot
    refine h.behind b hb (fun hp => ?_) fun u hu heq => hroot u (List.mem_append_right _ hu) heq
    have hnew := hroot ⟨b, p, n⟩ (List.mem_append_left _ (List.mem_map_of_mem hp)) rfl
    exact Nat.ne_of_gt hn₀ hnew
  · intro f hf u hu hdu hpass
    rcases List.mem_append.mp hu with hu | hu
    · obtain ⟨a, -, rfl⟩ := List.mem_map.mp hu
      exact absurd hpass (Nat.ne_of_lt (hn f (List.mem_append_right _ hf)))
    · exact h.turns f hf u hu hdu hpass
  · exact h.fired

variable (meets) in
/-- Where a run stands that began with the pass at `p₀` over what was pending in `s₀`. -/
structure State.Placed (s s₀ : State α P) (p₀ : P) (n₀ : Nat) : Prop where
  held : s.Held
  passes : s.Passes p₀ n₀
  entries : s.Entries meets s₀ p₀ n₀
  arranged : s.Arranged meets s₀.pending n₀

/-- The first pass. -/
theorem State.placed_begin (hheld : s₀.Held) (htasks : s₀.tasks = []) (hfired : s₀.fired = []) :
    (s₀.begin p₀ n₀).Placed meets s₀ p₀ n₀ := by
  have hall : ∀ t ∈ (s₀.begin p₀ n₀).tasks, t.slot ∈ s₀.pending ∧ t.last = p₀ ∧ t.pass = n₀ := by
    intro t ht
    rw [State.begin, htasks, List.append_nil] at ht
    obtain ⟨a, ha, rfl⟩ := List.mem_map.mp ht
    exact ⟨ha, rfl, rfl⟩
  have hnone : (s₀.begin p₀ n₀).fired = [] := hfired
  have hpending : ∀ a ∈ s₀.armed, a ∈ s₀.pending := by
    intro a ha
    refine (hheld a ha).resolve_right ?_
    rw [htasks]
    rintro ⟨t, ht, -⟩
    exact List.not_mem_nil ht
  refine ⟨hheld.begin p₀ n₀, ⟨?_, ?_, ?_, ?_⟩, ⟨subset_rfl, ?_, ?_, ?_, ?_, ?_, ?_⟩, ?_, ?_, ?_, ?_⟩
  · exact List.pairwise_of_forall_mem_list fun t ht u hu =>
      Nat.le_of_eq ((hall u hu).2.2.trans (hall t ht).2.2.symm)
  · rw [hnone, List.append_nil]
    exact fun t ht u hu _ => (hall t ht).2.1.trans (hall u hu).2.1.symm
  · rw [hnone, List.append_nil]
    exact fun t ht => ⟨Nat.le_of_eq (hall t ht).2.2.symm, fun _ => (hall t ht).2.1⟩
  · rw [hnone, List.append_nil]
    intro t ht
    rw [(hall t ht).2.1]
    exact List.mem_append_right _ (List.mem_singleton_self p₀)
  · rw [hnone]
    exact List.forall_mem_nil _
  · exact fun a ha => Or.inl ha
  · rw [hnone]
    exact List.nodup_nil
  · rw [hnone]
    exact List.forall_mem_nil _
  · intro u hu _
    exact ⟨List.not_mem_nil, fun v hv _ =>
      Nat.le_of_eq ((hall v hv).2.2.trans (hall u hu).2.2.symm)⟩
  · intro a ha _
    exact ⟨⟨a, p₀, n₀⟩, List.mem_append_left _ (List.mem_map_of_mem (hpending a ha)), rfl, rfl⟩
  · intro b _ a hahead
    rw [State.queue, State.begin, htasks, List.append_nil, List.nil_append, List.map_map] at hahead
    simpa [Function.comp_def] using hahead
  · rw [hnone]
    exact fun _ _ _ _ => List.forall_mem_nil _
  · rw [hnone]
    exact List.forall_mem_nil _
  · rw [hnone]
    exact List.Pairwise.nil

/-- Dropping an entry keeps the passes, the entries and their order. -/
theorem State.Placed.drop (h : s.Placed meets s₀ p₀ n₀) (hd : Drops meets s t K s')
    (hheld : s'.Held) : s'.Placed meets s₀ p₀ n₀ :=
  ⟨hheld, h.passes.drop hd, h.entries.drop h.passes hd, h.arranged.drop hd⟩

/-- Firing an entry keeps them too. -/
theorem State.Placed.fire (h : s.Placed meets s₀ p₀ n₀) (ht : s.tasks = t :: K)
    (hdue : s.Due meets t) : (s.fire t K).Placed meets s₀ p₀ n₀ :=
  ⟨h.held.fire ht, h.passes.fire ht, h.entries.fire ht hdue,
    h.arranged.fire h.entries ht hdue h.held⟩

/-- A fresh pass keeps them too. -/
theorem State.Placed.begin (h : s.Placed meets s₀ p₀ n₀) (p : P) (hn₀ : n₀ < n)
    (hn : ∀ u ∈ s.tasks ++ s.fired, u.pass < n) : (s.begin p n).Placed meets s₀ p₀ n₀ :=
  ⟨h.held.begin p n, h.passes.begin hn₀ hn, h.entries.begin p hn, h.arranged.begin p hn₀ hn⟩

/-- A later pass has a higher number. -/
theorem State.Placed.lt (h : s.Placed meets s₀ p₀ n₀) (ht : s.tasks = t :: K)
    (hn : ∀ u ∈ s.tasks ++ s.fired, u.pass < n) : n₀ < n := by
  have hmem : t ∈ s.tasks ++ s.fired := by
    rw [ht]
    exact List.mem_append_left _ List.mem_cons_self
  exact Nat.lt_of_le_of_lt (h.passes.root t hmem).1 (hn t hmem)

/-- An entry that the first price meets is due in the first pass, and in no other. -/
theorem State.Placed.root (h : s.Placed meets s₀ p₀ n₀) (ha : a ∈ s.armed) (hm : meets p₀ a) :
    a ∉ s.pending ∧ ∀ v ∈ s.tasks, v.slot = a → v.pass = n₀ ∧ v.last = p₀ := by
  obtain ⟨u, hu, rfl, hroot⟩ := h.entries.rooted a ha hm
  have hlast := (h.passes.root u (List.mem_append_left _ hu)).2 hroot
  obtain ⟨hpend, hpass⟩ := h.entries.waits u hu ⟨ha, hlast ▸ hm⟩
  refine ⟨hpend, fun v hv he => ?_⟩
  obtain ⟨hle, hv₀⟩ := h.passes.root v (List.mem_append_left _ hv)
  have heq : v.pass = n₀ := Nat.le_antisymm (hroot ▸ hpass v hv he) hle
  exact ⟨heq, hv₀ heq⟩

/-- Every step keeps its place in the run. -/
theorem Step.placed (h : Step meets guard s s') (hs : s.Placed meets s₀ p₀ n₀) :
    s'.Placed meets s₀ p₀ n₀ :=
  h.preserves (I := fun s => s.Placed meets s₀ p₀ n₀) (fun _ _ hd => hs.drop hd (h.held hs.held))
    (fun _ _ ht hdue => hs.fire ht hdue) fun _ _ p _ ht _ _ hn hf =>
      hf.begin p (hs.lt ht hn) fun u hu => hn u (State.mem_fire ht hu)

end Placed

end Trigger
