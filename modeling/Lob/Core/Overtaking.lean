import Lob.Core.Precedence

/-!
# Cascades that overlook and overtake nobody

A firing may trade at a price that depends on what has fired before. From the prices
that firings may trade at, and from the queue in which a run begins, it can be told
whether a pass may overlook an entry that its price meets, because the entry waits in
the queue of another pass, and whether an entry may fire ahead of one that an earlier
price has met.
-/

namespace Trigger

variable {α P : Type*}

/-- A list with one more element is split at that element or before it. -/
theorem split_concat {β : Type*} {l l₁ l₂ : List β} {a b : β} (h : l ++ [a] = l₁ ++ b :: l₂) :
    (l₁ = l ∧ b = a ∧ l₂ = []) ∨ ∃ l₂', l = l₁ ++ b :: l₂' := by
  rcases List.eq_nil_or_concat l₂ with rfl | ⟨l₂', c, rfl⟩
  · obtain ⟨hl, hb⟩ := List.append_inj' h rfl
    exact Or.inl ⟨hl.symm, (List.singleton_inj.mp hb).symm, rfl⟩
  · rw [List.concat_eq_append, ← List.cons_append, ← List.append_assoc] at h
    exact Or.inr ⟨l₂', (List.append_inj' h rfl).1⟩

section Reach

variable (meets : P → α → Prop) (reach : List α → α → P → Prop) (p₀ : P) (s₀ : State α P)

/-- `l` may be what has fired when `x` fires. While the first pass is at `x`, all that `p₀` meets
ahead of `x` has fired, and nothing from behind. -/
structure Before (l : List α) (x : α) : Prop where
  nodup : (x :: l).Nodup
  ahead : meets p₀ x → ∀ a ∈ l, Ahead s₀.pending a x
  fired : meets p₀ x → ∀ a ∈ s₀.armed, meets p₀ a → Ahead s₀.pending a x → a ∈ l

/-- The entries of `A` that may fire: `p₀` meets them, or a price at which one of them may trade.
Here `reach l x p` says that `x` may trade at `p` when the entries `l` have fired. -/
inductive Awake (A : Set α) : α → Prop
  | first (a : α) : a ∈ A → meets p₀ a → Awake A a
  | later (a x : α) (l : List α) (p : P) : a ∈ A → Before meets p₀ s₀ l x →
      (∀ b ∈ x :: l, Awake A b) → reach l x p → meets p a → Awake A a

/-- `x` may trade at `p` after entries of `A`. -/
def Reaches (A : Set α) (x : α) (p : P) : Prop :=
  ∃ l, Before meets p₀ s₀ l x ∧ (∀ b ∈ x :: l, Awake meets reach p₀ s₀ A b) ∧ reach l x p

/-- A firing trades within its reach. -/
def Trades (s : State α P) (t : Task α P) (p : P) : Prop :=
  reach (s.fired.map Task.slot) t.slot p

/-- The price of a pass that may fire `x`, and what may have fired by then: in the first pass only
what stands ahead. -/
inductive Fires (x : α) : P → Set α → Prop
  | first : meets p₀ x → Fires x p₀ {a | a ∈ s₀.armed ∧ (a = x ∨ Ahead s₀.pending a x)}
  | later (z : α) (p : P) : ¬ meets p₀ x → Reaches meets reach p₀ s₀ s₀.armed z p → meets p x →
      Fires x p s₀.armed

/-- A pass at `p'` may miss `y`, which it meets: an entry ahead of `y` may trade at `p'`, when it is
fired at a price `p` that does not meet `y`. -/
def Misses (y : α) (p p' : P) : Prop :=
  ¬ meets p₀ y ∧ ∃ x ∈ s₀.armed, Ahead s₀.pending x y ∧
    ∃ A, Fires meets reach p₀ s₀ x p A ∧ ¬ meets p y ∧ Reaches meets reach p₀ s₀ A x p' ∧
      meets p' y

/-- Some pass may miss `y`. -/
def Overlooks (y : α) : Prop := ∃ p p', Misses meets reach p₀ s₀ y p p'

/-- What may fire at all is met by some price of `l`. -/
def Spent (l : List P) : Prop :=
  ∀ c ∈ s₀.armed, Awake meets reach p₀ s₀ s₀.armed c → ∃ q ∈ l, meets q c

/-- A pass may miss `y` only when nothing is left that could fire before `y` and for its price
alone. -/
def Excuses (y : α) : Prop :=
  ∀ p p', Misses meets reach p₀ s₀ y p p' → Spent meets reach p₀ s₀ [p₀, p, p']

/-- `a` may overtake `d`: an entry between them may trade at a price that meets `a`, when it is
fired at a price that meets `d` and not `a`. -/
def Overtakes (a d : α) : Prop :=
  ¬ meets p₀ a ∧ ∃ x ∈ s₀.armed, Ahead s₀.pending a x ∧ Ahead s₀.pending x d ∧
    ∃ p A, Fires meets reach p₀ s₀ x p A ∧ meets p d ∧ ¬ meets p a ∧
      ∃ p', Reaches meets reach p₀ s₀ A x p' ∧ meets p' a

/-- One pass may fire both. -/
def Together (a b : α) : Prop :=
  ∃ p, (p = p₀ ∨ ∃ x, Reaches meets reach p₀ s₀ s₀.armed x p) ∧ meets p a ∧ meets p b

end Reach

variable {meets : P → α → Prop} {reach : List α → α → P → Prop} {r : α → α → Prop}
  {s s₀ s' : State α P} {t : Task α P} {K : List (Task α P)} {p p₀ : P} {n n₀ : Nat} {A : Set α}

/-- More prices meet as much. -/
theorem Spent.mono {l l' : List P} (h : Spent meets reach p₀ s₀ l) (hsub : l ⊆ l') :
    Spent meets reach p₀ s₀ l' := by
  intro c hc hawake
  obtain ⟨q, hq, hm⟩ := h c hc hawake
  exact ⟨q, hsub hq, hm⟩

section Foreseen

variable (meets reach) in
/-- What has fired could be foreseen from any set that it lies in, and so could the prices of the
passes. -/
structure State.Foreseen (s s₀ : State α P) (p₀ : P) : Prop where
  fired : ∀ A : Set α, (∀ f ∈ s.fired, f.slot ∈ A) → ∀ f ∈ s.fired,
    Awake meets reach p₀ s₀ A f.slot
  last : ∀ A : Set α, (∀ f ∈ s.fired, f.slot ∈ A) → ∀ t ∈ s.tasks ++ s.fired,
    t.last = p₀ ∨ ∃ x, Reaches meets reach p₀ s₀ A x t.last

/-- What is due may fire. -/
theorem State.Foreseen.awake (h : s.Foreseen meets reach s₀ p₀) (ht : s.tasks = t :: K)
    (hdue : s.Due meets t) (hA : ∀ f ∈ s.fired, f.slot ∈ A) (hx : t.slot ∈ A) :
    Awake meets reach p₀ s₀ A t.slot := by
  have hmem : t ∈ s.tasks ++ s.fired := by
    rw [ht]
    exact List.mem_append_left _ List.mem_cons_self
  rcases h.last A hA t hmem with hp | ⟨x, l, hbefore, hall, hreach⟩
  · exact .first t.slot hx (hp ▸ hdue.2)
  · exact .later t.slot x l t.last hx hbefore hall hreach hdue.2

/-- The price of a trade is within reach of what has fired. -/
theorem State.Foreseen.reaches (h : s.Foreseen meets reach s₀ p₀)
    (hbefore : Before meets p₀ s₀ (s.fired.map Task.slot) t.slot) (ht : s.tasks = t :: K)
    (hdue : s.Due meets t) (hA : ∀ f ∈ s.fired, f.slot ∈ A) (hx : t.slot ∈ A)
    (hguard : Trades reach s t p) : Reaches meets reach p₀ s₀ A t.slot p := by
  refine ⟨s.fired.map Task.slot, hbefore, ?_, hguard⟩
  refine List.forall_mem_cons.mpr ⟨h.awake ht hdue hA hx, ?_⟩
  exact List.forall_mem_map.mpr fun f hf => h.fired A hA f hf

/-- What fires could be foreseen, as the price of its pass could. -/
theorem State.Foreseen.fire (h : s.Foreseen meets reach s₀ p₀) (ht : s.tasks = t :: K)
    (hdue : s.Due meets t) : (s.fire t K).Foreseen meets reach s₀ p₀ := by
  have hold {A : Set α} (hA : ∀ f ∈ (s.fire t K).fired, f.slot ∈ A) :
      (∀ f ∈ s.fired, f.slot ∈ A) ∧ t.slot ∈ A :=
    ⟨fun f hf => hA f (List.mem_append_left _ hf),
      hA t (List.mem_append_right _ (List.mem_singleton_self t))⟩
  constructor
  · intro A hA f hf
    obtain ⟨hfired, hx⟩ := hold hA
    rcases List.mem_append.mp hf with hf | hf
    · exact h.fired A hfired f hf
    · rw [List.mem_singleton.mp hf]
      exact h.awake ht hdue hfired hx
  · intro A hA u hu
    exact h.last A (hold hA).1 u (State.mem_fire ht hu)

/-- A pass begins at a price that could be foreseen. -/
theorem State.Foreseen.begin (h : s.Foreseen meets reach s₀ p₀)
    (hp : ∀ A : Set α, (∀ f ∈ s.fired, f.slot ∈ A) → ∃ x, Reaches meets reach p₀ s₀ A x p) :
    (s.begin p n).Foreseen meets reach s₀ p₀ := by
  refine ⟨h.fired, fun A hA t ht => ?_⟩
  simp only [State.begin, List.append_assoc] at ht
  rcases List.mem_append.mp ht with ht | ht
  · obtain ⟨a, -, rfl⟩ := List.mem_map.mp ht
    exact Or.inr (hp A hA)
  · exact h.last A hA t ht

/-- Dropping an entry adds nothing to foresee. -/
theorem State.Foreseen.drop (h : s.Foreseen meets reach s₀ p₀) (hd : Drops meets s t K s') :
    s'.Foreseen meets reach s₀ p₀ := by
  constructor
  · rw [hd.fired]
    exact h.fired
  · rw [hd.fired]
    intro A hA u hu
    refine h.last A hA u ?_
    exact (List.mem_append.mp hu).elim (fun hu => List.mem_append_left _ (hd.tasks_subset u hu))
      (List.mem_append_right _)

/-- What has fired may have fired before the next entry. -/
theorem State.Placed.before (h : s.Placed meets s₀ p₀ n₀) (ht : s.tasks = t :: K)
    (hdue : s.Due meets t) : Before meets p₀ s₀ (s.fired.map Task.slot) t.slot where
  nodup := by
    refine List.nodup_cons.mpr ⟨fun hmem => ?_, h.entries.once⟩
    obtain ⟨f, hf, hft⟩ := List.mem_map.mp hmem
    exact (h.entries.gone f hf).1 (hft ▸ hdue.1)
  ahead hm := by
    obtain ⟨hpend, hroot⟩ := h.root hdue.1 hm
    exact List.forall_mem_map.mpr fun f hf =>
      h.arranged.behind t.slot hdue.1 hpend (fun v hv he => (hroot v hv he).1) f hf
  fired _ a ha hm hahead := by
    rcases h.entries.covered a ha with harmed | ⟨f, hf, rfl⟩
    · -- An armed entry would wait behind the one that is about to fire.
      obtain ⟨u, hu, hua, -⟩ := h.entries.rooted a harmed hm
      refine absurd (h.arranged.order a harmed t.slot ?_) hahead.asymm
      exact State.ahead_of_waits ht (Or.inr rfl) (h.root harmed hm).1
        (fun he => (he ▸ hahead).asymm (he ▸ hahead)) ⟨u, hu, hua⟩
    · exact List.mem_map_of_mem hf

variable (meets reach) in
/-- What holds in every state of a run whose firings trade within their reach. -/
structure State.Tracked (s s₀ : State α P) (p₀ : P) (n₀ : Nat) : Prop where
  placed : s.Placed meets s₀ p₀ n₀
  foreseen : s.Foreseen meets reach s₀ p₀
  first : p₀ ∈ s.traded

/-- A firing without a trade. -/
theorem State.Tracked.fire (h : s.Tracked meets reach s₀ p₀ n₀) (ht : s.tasks = t :: K)
    (hdue : s.Due meets t) : (s.fire t K).Tracked meets reach s₀ p₀ n₀ :=
  ⟨h.placed.fire ht hdue, h.foreseen.fire ht hdue, h.first⟩

/-- A firing that trades within its reach. -/
theorem State.Tracked.trade (h : s.Tracked meets reach s₀ p₀ n₀) (ht : s.tasks = t :: K)
    (hdue : s.Due meets t) (hguard : Trades reach s t p)
    (hn : ∀ u ∈ s.tasks ++ s.fired, u.pass < n) :
    ((s.fire t K).begin p n).Tracked meets reach s₀ p₀ n₀ := by
  refine ⟨(h.placed.fire ht hdue).begin p (h.placed.lt ht hn)
    fun u hu => hn u (State.mem_fire ht hu), (h.foreseen.fire ht hdue).begin fun A hA => ?_,
    List.mem_append_left _ h.first⟩
  refine ⟨t.slot, h.foreseen.reaches (h.placed.before ht hdue) ht hdue (fun f hf => ?_) ?_ hguard⟩
  · exact hA f (List.mem_append_left _ hf)
  · exact hA t (List.mem_append_right _ (List.mem_singleton_self t))

/-- One step of any kind. -/
theorem Step.tracked (h : Step meets (Trades reach) s s')
    (hs : s.Tracked meets reach s₀ p₀ n₀) : s'.Tracked meets reach s₀ p₀ n₀ := by
  refine h.preserves (I := fun s => s.Tracked meets reach s₀ p₀ n₀) (fun t K hd => ?_)
    (fun t K ht hdue => hs.fire ht hdue)
    fun t K p n ht hdue hguard hn _ => hs.trade ht hdue hguard hn
  exact ⟨hs.placed.drop hd (h.held hs.placed.held), hs.foreseen.drop hd, hd.traded ▸ hs.first⟩

/-- The first pass trades within every reach. -/
theorem State.tracked_begin (hheld : s₀.Held) (htasks : s₀.tasks = []) (hfired : s₀.fired = []) :
    (s₀.begin p₀ n₀).Tracked meets reach s₀ p₀ n₀ := by
  have hnone : (s₀.begin p₀ n₀).fired = [] := hfired
  refine ⟨State.placed_begin hheld htasks hfired, ⟨fun A hA => ?_, fun A hA t ht => Or.inl ?_⟩,
    List.mem_append_right _ (List.mem_singleton_self p₀)⟩
  · rw [hnone]
    exact List.forall_mem_nil _
  · rw [hnone, List.append_nil, State.begin, htasks, List.append_nil] at ht
    obtain ⟨a, -, rfl⟩ := List.mem_map.mp ht
    rfl

/-- A trade of the entry that fires, after what stands ahead of it if the first price meets it. -/
theorem State.Tracked.fires (h : s.Tracked meets reach s₀ p₀ n₀) (ht : s.tasks = t :: K)
    (hdue : s.Due meets t) (hguard : Trades reach s t p) {q : P} (hq : meets q t.slot)
    (hlast : q = p₀ ∨ ∃ z, Reaches meets reach p₀ s₀ s₀.armed z q)
    (hfirst : meets p₀ t.slot → q = p₀) :
    ∃ A, Fires meets reach p₀ s₀ t.slot q A ∧ Reaches meets reach p₀ s₀ A t.slot p := by
  have hknown := h.placed.entries.known
  have hbefore := h.placed.before ht hdue
  have hx := h.placed.entries.armed hdue.1
  by_cases hm : meets p₀ t.slot
  · obtain rfl := hfirst hm
    refine ⟨_, .first hm, h.foreseen.reaches hbefore ht hdue (fun f hf => ?_)
      ⟨hx, Or.inl rfl⟩ hguard⟩
    exact ⟨hknown f hf, Or.inr (hbefore.ahead hm f.slot (List.mem_map_of_mem hf))⟩
  · obtain ⟨z, hz⟩ := hlast.resolve_left fun he => hm (he ▸ hq)
    exact ⟨_, .later z q hm hz hq, h.foreseen.reaches hbefore ht hdue hknown hx hguard⟩

end Foreseen

section Punctual

variable (meets) in
/-- A pass at `p` queues every armed entry it meets, or that entry is due anyway. -/
def Seen (s : State α P) (E : List P → Prop) (p : P) : Prop :=
  ∀ a ∈ s.armed, meets p a →
    (a ∈ s.pending ∨ ∃ t ∈ s.tasks, t.slot = a ∧ meets t.last a) ∨ E (s.traded ++ [p])

variable (meets) in
/-- An armed entry that a traded price meets is due at a price that came no later, unless the prices
up to that one excuse it. -/
def State.Punctual (s : State α P) (E : List P → Prop) : Prop :=
  ∀ l₁ p l₂, s.traded = l₁ ++ p :: l₂ → ∀ a ∈ s.armed, meets p a →
    (∃ t ∈ s.tasks, t.slot = a ∧ meets t.last a ∧ t.last ∈ l₁ ++ [p]) ∨ E (l₁ ++ [p])

variable {E : List P → Prop}

/-- An armed entry that some traded price meets is due, unless all prices excuse it. -/
theorem State.Punctual.due (h : s.Punctual meets E) (hE : ∀ l l', E l → E (l ++ l')) {a : α}
    (ha : a ∈ s.armed) (hp : p ∈ s.traded) (hm : meets p a) :
    (∃ t ∈ s.tasks, t.slot = a ∧ meets t.last a) ∨ E s.traded := by
  obtain ⟨l₁, l₂, hsplit⟩ := List.append_of_mem hp
  rcases h l₁ p l₂ hsplit a ha hm with ⟨t, ht, he, hmt, -⟩ | hexcused
  · exact Or.inl ⟨t, ht, he, hmt⟩
  · have hall := hE _ l₂ hexcused
    rw [List.append_assoc, List.singleton_append, ← hsplit] at hall
    exact Or.inr hall

/-- No entry that is due is dropped. -/
theorem State.Punctual.drop (h : s.Punctual meets E) (hd : Drops meets s t K s') :
    s'.Punctual meets E := by
  intro l₁ p l₂ hsplit a ha hm
  rw [hd.traded] at hsplit
  rw [hd.armed] at ha
  refine (h l₁ p l₂ hsplit a ha hm).imp_left ?_
  rintro ⟨u, hu, rfl, hmu, hlast⟩
  rw [hd.head] at hu
  rcases List.mem_cons.mp hu with rfl | hu
  · exact absurd ⟨ha, hmu⟩ hd.idle
  · exact ⟨u, hd.tasks ▸ hu, rfl, hmu, hlast⟩

/-- Firing one entry leaves the others due. -/
theorem State.Punctual.fire (h : s.Punctual meets E) (ht : s.tasks = t :: K) :
    (s.fire t K).Punctual meets E := by
  intro l₁ p l₂ hsplit a ha hm
  refine (h l₁ p l₂ hsplit a ha.1 hm).imp_left ?_
  rintro ⟨u, hu, rfl, hmu, hlast⟩
  rw [ht] at hu
  rcases List.mem_cons.mp hu with rfl | hu
  · exact absurd rfl ha.2
  · exact ⟨u, hu, rfl, hmu, hlast⟩

/-- A pass that sees everything it meets is on time. -/
theorem State.Punctual.begin (h : s.Punctual meets E) (hpriced : ∀ t ∈ s.tasks, t.last ∈ s.traded)
    (hseen : Seen meets s E p) : (s.begin p n).Punctual meets E := by
  intro l₁ q l₂ hsplit a ha hm
  have hold (u : Task α P) (hu : u ∈ s.tasks) : u ∈ (s.begin p n).tasks :=
    List.mem_append_right _ hu
  rcases split_concat hsplit with ⟨rfl, rfl, rfl⟩ | ⟨l₂', hl⟩
  · refine (hseen a ha hm).imp_left ?_
    rintro (hp | ⟨u, hu, hua, hmu⟩)
    · exact ⟨⟨a, q, n⟩, List.mem_append_left _ (List.mem_map_of_mem hp), rfl, hm,
        List.mem_append_right _ (List.mem_singleton_self q)⟩
    · exact ⟨u, hold u hu, hua, hmu, List.mem_append_left _ (hpriced u hu)⟩
  · refine (h l₁ q l₂' hl a ha hm).imp_left ?_
    rintro ⟨u, hu, hua, hmu, hmem⟩
    exact ⟨u, hold u hu, hua, hmu, hmem⟩

/-- A pass sees what it meets, or misses it. -/
theorem State.Tracked.seen (h : s.Tracked meets reach s₀ p₀ n₀) (hpun : s.Punctual meets E)
    (hE : ∀ l l', E l → E (l ++ l'))
    (hmiss : ∀ y ∈ s₀.armed, ∀ q q', Misses meets reach p₀ s₀ y q q' →
      ∀ l, p₀ ∈ l → q ∈ l → q' ∈ l → E l)
    (ht : s.tasks = t :: K) (hdue : s.Due meets t) (hguard : Trades reach s t p) :
    Seen meets (s.fire t K) E p := by
  intro y hy hm
  by_contra hno
  rw [not_or, not_or] at hno
  obtain ⟨⟨hpend, hidle⟩, hexcused⟩ := hno
  have ⟨hplaced, hforeseen, hfirst⟩ := h
  have hmem : t ∈ s.tasks := by rw [ht]; exact List.mem_cons_self
  have hpriced := hplaced.passes.priced t (List.mem_append_left _ hmem)
  have hne : y ≠ t.slot := fun he => hy.2 he
  have hnever : ∀ q ∈ s.traded, ¬ meets q y := by
    intro q hq hmq
    rcases hpun.due hE hy.1 hq hmq with ⟨u, hu, hua, hmu⟩ | hall
    · rw [ht] at hu
      rcases List.mem_cons.mp hu with rfl | hu
      · exact hne hua.symm
      · exact hidle ⟨u, hu, hua, hmu⟩
    · exact hexcused (hE _ _ hall)
  have hahead := hplaced.arranged.order y hy.1 t.slot (State.ahead_of_waits ht (Or.inr rfl) hpend
    hne ((hplaced.held y hy.1).resolve_left hpend))
  obtain ⟨A, hfires, hreach⟩ := h.fires ht hdue hguard hdue.2
    (hforeseen.last s₀.armed hplaced.entries.known t (List.mem_append_left _ hmem))
    fun hm => ((hplaced.root hdue.1 hm).2 t hmem rfl).2
  refine hexcused (hmiss y (hplaced.entries.armed hy.1) t.last p ⟨hnever p₀ hfirst, t.slot,
    hplaced.entries.armed hdue.1, hahead, A, hfires, hnever t.last hpriced, hreach, hm⟩ _ ?_ ?_ ?_)
  · exact List.mem_append_left _ hfirst
  · exact List.mem_append_left _ hpriced
  · exact List.mem_append_right _ (List.mem_singleton_self p)

/-- Where every miss is excused, a step keeps the entries on time. -/
theorem Step.punctual (h : Step meets (Trades reach) s s') (hs : s.Tracked meets reach s₀ p₀ n₀)
    (hE : ∀ l l', E l → E (l ++ l'))
    (hmiss : ∀ y ∈ s₀.armed, ∀ q q', Misses meets reach p₀ s₀ y q q' →
      ∀ l, p₀ ∈ l → q ∈ l → q' ∈ l → E l)
    (hpun : s.Punctual meets E) : s'.Punctual meets E := by
  refine h.preserves (I := fun s => s.Punctual meets E) (fun t K hd => hpun.drop hd)
    (fun t K ht _ => hpun.fire ht) fun t K p n ht hdue hguard _ hfire => ?_
  refine hfire.begin (fun u hu => ?_) (hs.seen hpun hE hmiss ht hdue hguard)
  exact (hs.fire ht hdue).placed.passes.priced u (List.mem_append_left _ hu)

/-- The first pass takes everything, so it is on time. -/
theorem State.punctual_begin (hheld : s₀.Held) (htasks : s₀.tasks = []) (htraded : s₀.traded = []) :
    (s₀.begin p₀ n₀).Punctual meets E := by
  have hpun : s₀.Punctual meets E := by
    intro l₁ p l₂ hsplit
    rw [htraded] at hsplit
    exact absurd hsplit.symm (List.append_ne_nil_of_right_ne_nil _ (List.cons_ne_nil _ _))
  refine hpun.begin ?_ fun a ha _ => Or.inl (Or.inl ((hheld a ha).resolve_right ?_))
  · rw [htasks]
    exact List.forall_mem_nil _
  · rw [htasks]
    rintro ⟨t, ht, -⟩
    exact List.not_mem_nil ht

/-- Once the queues are empty, no traded price meets an armed entry. -/
theorem Steps.complete (h : Steps meets (Trades reach) (s₀.begin p₀ n₀) s') (hheld : s₀.Held)
    (hnew : s₀.tasks = [] ∧ s₀.fired = [] ∧ s₀.traded = [])
    (hover : ∀ y ∈ s₀.armed, ¬ Overlooks meets reach p₀ s₀ y) (htasks : s'.tasks = []) :
    ∀ a ∈ s'.armed, ∀ p ∈ s'.traded, ¬ meets p a := by
  obtain ⟨hnone, hfired, htraded⟩ := hnew
  -- Nothing is missed, so no excuse is needed.
  have hrun : s'.Tracked meets reach s₀ p₀ n₀ ∧ s'.Punctual meets fun _ => False := by
    refine Steps.invariant (I := fun s => s.Tracked meets reach s₀ p₀ n₀ ∧
      s.Punctual meets fun _ => False) h
      ⟨State.tracked_begin hheld hnone hfired, State.punctual_begin hheld hnone htraded⟩
      fun s s' hs hc => ⟨hc.tracked hs.1, hc.punctual hs.1 (fun _ _ => id) ?_ hs.2⟩
    exact fun y hy q q' hmiss _ _ _ _ => hover y hy ⟨q, q', hmiss⟩
  intro a ha p hp hm
  rcases hrun.2.due (fun _ _ => id) ha hp hm with ⟨t, ht, -⟩ | hfalse
  · rw [htasks] at ht
    exact List.not_mem_nil ht
  · exact hfalse

end Punctual

section Fair

variable (meets) in
/-- A pass at `p` fires only entries that the prices of all due ones meet as well. -/
def Spares (s : State α P) (p : P) : Prop :=
  ∀ a ∈ s.pending, a ∈ s.armed → meets p a → ∀ u ∈ s.tasks, s.Due meets u → meets u.last a

variable (meets) in
/-- What is due in a later pass is met by the prices of the earlier ones. -/
def State.Led (s : State α P) : Prop :=
  s.tasks.Pairwise fun t u => s.Due meets t → s.Due meets u → u.pass < t.pass →
    meets u.last t.slot

variable (meets) in
/-- Whatever a traded price meets has fired before any entry that only later prices meet. -/
def State.Prompt (s s₀ : State α P) : Prop :=
  ∀ l₁ p l₂, s.traded = l₁ ++ p :: l₂ → ∀ m₁ c m₂, s.fired = m₁ ++ c :: m₂ →
    (∀ q ∈ l₁ ++ [p], ¬ meets q c.slot) → ∀ a ∈ s₀.armed, meets p a → ∃ f ∈ m₁, f.slot = a

/-- With a task less there is less to compare. -/
theorem State.Led.drop (h : s.Led meets) (hd : Drops meets s t K s') : s'.Led meets := by
  unfold State.Led at *
  rw [hd.head, List.pairwise_cons] at h
  simp only [hd.due_iff, hd.tasks]
  exact h.2

/-- Firing disarms one entry and makes none due. -/
theorem State.Led.fire (h : s.Led meets) (ht : s.tasks = t :: K) : (s.fire t K).Led meets := by
  unfold State.Led at h
  rw [ht, List.pairwise_cons] at h
  exact h.2.imp fun himp hu hv => himp ⟨hu.1.1, hu.2⟩ ⟨hv.1.1, hv.2⟩

/-- A pass that spares the due entries is led by their prices. -/
theorem State.Led.begin (h : s.Led meets) (hspares : Spares meets s p) :
    (s.begin p n).Led meets := by
  refine List.pairwise_append.mpr ⟨List.pairwise_map.mpr ?_, h, ?_⟩
  · exact List.pairwise_of_forall fun a b _ _ hlt => absurd hlt (Nat.lt_irrefl n)
  · intro u hu v hv hdu hdv _
    obtain ⟨a, ha, rfl⟩ := List.mem_map.mp hu
    exact hspares a ha hdu.1 hdu.2 v hv hdv

/-- The price of a due entry meets the first due entry as well. -/
theorem State.Led.meets_head (h : s.Led meets) (hp : s.Passes p₀ n₀) (ht : s.tasks = t :: K)
    (hdue : s.Due meets t) {u : Task α P} (hu : u ∈ K) (hdu : s.Due meets u) :
    meets u.last t.slot := by
  have hsorted := hp.sorted
  unfold State.Led at h
  rw [ht, List.pairwise_cons] at h hsorted
  have hmem : t ∈ s.tasks ++ s.fired := by rw [ht]; exact List.mem_append_left _ List.mem_cons_self
  have hmem' : u ∈ s.tasks ++ s.fired := by
    rw [ht]
    exact List.mem_append_left _ (List.mem_cons_of_mem t hu)
  rcases Nat.lt_or_eq_of_le (hsorted.1 u hu) with hlt | heq
  · exact h.1 u hu hdue hdu hlt
  · rw [hp.same u hmem' t hmem heq]
    exact hdue.2

/-- Where nothing may overtake, a pass spares what others have to wait for. -/
theorem State.Tracked.spares (h : s.Tracked meets reach s₀ p₀ n₀) (hled : s.Led meets)
    (hover : ∀ a ∈ s₀.armed, ∀ d ∈ s₀.armed, ¬ Overtakes meets reach p₀ s₀ a d)
    (ht : s.tasks = t :: K) (hdue : s.Due meets t) (hguard : Trades reach s t p) :
    Spares meets (s.fire t K) p := by
  intro a ha harmed hm u hu hdu
  by_contra hno
  have hmem : u ∈ s.tasks := by rw [ht]; exact List.mem_cons_of_mem t hu
  have hmem' : t ∈ s.tasks := by rw [ht]; exact List.mem_cons_self
  have hdu' : s.Due meets u := ⟨hdu.1.1, hdu.2⟩
  have hentries := h.placed.entries
  have hx := hentries.armed hdue.1
  have hfirst : Ahead s₀.pending a t.slot := by
    refine h.placed.arranged.order t.slot hdue.1 a (ahead_append ha ?_ ?_)
    · exact (hentries.waits t hmem' hdue).1
    · rw [ht]
      exact List.mem_cons_self
  have hsecond : Ahead s₀.pending t.slot u.slot :=
    h.placed.arranged.order u.slot hdu'.1 t.slot (State.ahead_of_waits ht (Or.inr rfl)
      (hentries.waits u hmem hdu').1 (fun he => hdu.1.2 he) ⟨u, hmem, rfl⟩)
  have hnot : ¬ meets p₀ a := fun hp => (h.placed.root harmed.1 hp).1 ha
  have hmx := hled.meets_head h.placed.passes ht hdue hu hdu'
  obtain ⟨A, hfires, hreach⟩ := h.fires ht hdue hguard hmx
    (h.foreseen.last s₀.armed hentries.known u (List.mem_append_left _ hmem)) fun hp => by
      -- The first pass is at the entry, and nothing stands behind that pass.
      have hroot := ((h.placed.root hdue.1 hp).2 t hmem' rfl).1
      have hsorted := h.placed.passes.sorted
      rw [ht, List.pairwise_cons] at hsorted
      obtain ⟨hge, hprice⟩ := h.placed.passes.root u (List.mem_append_left _ hmem)
      exact hprice (Nat.le_antisymm (hroot ▸ hsorted.1 u hu) hge)
  exact hover a (hentries.armed harmed.1) u.slot (hentries.armed hdu'.1)
    ⟨hnot, t.slot, hx, hfirst, hsecond, u.last, A, hfires, hdu'.2, hno, p, hreach, hm⟩

/-- Dropping an entry fires nothing. -/
theorem State.Prompt.drop (h : s.Prompt meets s₀) (hd : Drops meets s t K s') :
    s'.Prompt meets s₀ := by
  unfold State.Prompt
  rw [hd.traded, hd.fired]
  exact h

/-- What fires is not ahead of anything that an earlier price has met. -/
theorem State.Prompt.fire (h : s.Prompt meets s₀) (htracked : s.Tracked meets reach s₀ p₀ n₀)
    (hpun : s.Punctual meets (Spent meets reach p₀ s₀)) (hled : s.Led meets) (ht : s.tasks = t :: K)
    (hdue : s.Due meets t) : (s.fire t K).Prompt meets s₀ := by
  intro l₁ p l₂ htraded m₁ c m₂ hfired hnone a ha hm
  rcases split_concat hfired with ⟨rfl, rfl, rfl⟩ | ⟨m₂', hold⟩
  · rcases htracked.placed.entries.covered a ha with harmed | hgone
    · rcases hpun l₁ p l₂ htraded a harmed hm with ⟨u, hu, rfl, hmu, hlast⟩ | hspent
      · rw [ht] at hu
        rcases List.mem_cons.mp hu with rfl | hu
        · exact absurd hmu (hnone u.last hlast)
        · exact absurd (hled.meets_head htracked.placed.passes ht hdue hu ⟨harmed, hmu⟩)
            (hnone u.last hlast)
      · have hentries := htracked.placed.entries
        have hslot := hentries.armed hdue.1
        obtain ⟨q, hq, hmq⟩ :=
          hspent c.slot hslot (htracked.foreseen.awake ht hdue hentries.known hslot)
        exact absurd hmq (hnone q hq)
    · exact hgone
  · exact h l₁ p l₂ htraded m₁ c m₂' hold hnone a ha hm

/-- Nothing that has fired waited for a new price. -/
theorem State.Prompt.begin (h : s.Prompt meets s₀) (htracked : s.Tracked meets reach s₀ p₀ n₀)
    (p : P) : (s.begin p n).Prompt meets s₀ := by
  intro l₁ q l₂ htraded m₁ c m₂ hfired hnone a ha hm
  rcases split_concat htraded with ⟨rfl, rfl, rfl⟩ | ⟨l₂', hold⟩
  · have hc : c ∈ s.fired := by
      have hmem : c ∈ m₁ ++ c :: m₂ := List.mem_append_right _ List.mem_cons_self
      exact hfired ▸ hmem
    have hpriced := htracked.placed.passes.priced c (List.mem_append_right _ hc)
    have hmet := (htracked.placed.entries.gone c hc).2
    exact absurd hmet (hnone c.last (List.mem_append_left _ hpriced))
  · exact h l₁ q l₂' hold m₁ c m₂ hfired hnone a ha hm

variable (meets reach) in
/-- What holds in every state of a run in which every miss is excused and nothing overtakes. -/
structure State.InTurn (s s₀ : State α P) (p₀ : P) (n₀ : Nat) : Prop where
  tracked : s.Tracked meets reach s₀ p₀ n₀
  punctual : s.Punctual meets (Spent meets reach p₀ s₀)
  led : s.Led meets
  prompt : s.Prompt meets s₀

/-- The first pass has nothing to wait for. -/
theorem State.inTurn_begin (hheld : s₀.Held) (htasks : s₀.tasks = []) (hfired : s₀.fired = [])
    (htraded : s₀.traded = []) : (s₀.begin p₀ n₀).InTurn meets reach s₀ p₀ n₀ := by
  refine ⟨State.tracked_begin hheld htasks hfired, State.punctual_begin hheld htasks htraded,
    State.Led.begin ?_ ?_, ?_⟩
  · unfold State.Led
    rw [htasks]
    exact List.Pairwise.nil
  · intro a _ _ _ u hu
    rw [htasks] at hu
    exact absurd hu List.not_mem_nil
  · intro l₁ p l₂ _ m₁ c m₂ hsplit
    have hnil : m₁ ++ c :: m₂ = [] := hsplit.symm.trans hfired
    exact absurd hnil (List.append_ne_nil_of_right_ne_nil _ (List.cons_ne_nil _ _))

/-- One step of any kind. -/
theorem Step.inTurn (h : Step meets (Trades reach) s s') (hs : s.InTurn meets reach s₀ p₀ n₀)
    (hlook : ∀ y ∈ s₀.armed, Excuses meets reach p₀ s₀ y)
    (htake : ∀ a ∈ s₀.armed, ∀ d ∈ s₀.armed, ¬ Overtakes meets reach p₀ s₀ a d) :
    s'.InTurn meets reach s₀ p₀ n₀ := by
  obtain ⟨htracked, hpun, hled, hprompt⟩ := hs
  have hmono (l l' : List P) (h : Spent meets reach p₀ s₀ l) : Spent meets reach p₀ s₀ (l ++ l') :=
    h.mono (List.subset_append_left l l')
  have hexcused (y : α) (hy : y ∈ s₀.armed) (q q' : P) (hmiss : Misses meets reach p₀ s₀ y q q')
      (l : List P) (h₀ : p₀ ∈ l) (h₁ : q ∈ l) (h₂ : q' ∈ l) : Spent meets reach p₀ s₀ l :=
    (hlook y hy q q' hmiss).mono (by simp [h₀, h₁, h₂])
  have hrest : s'.Led meets ∧ s'.Prompt meets s₀ := by
    refine h.preserves (I := fun s => s.Led meets ∧ s.Prompt meets s₀) (fun t K hd => ?_)
      (fun t K ht hdue => ?_) fun t K p n ht hdue hguard _ hfire => ?_
    · exact ⟨hled.drop hd, hprompt.drop hd⟩
    · exact ⟨hled.fire ht, hprompt.fire htracked hpun hled ht hdue⟩
    · exact ⟨hfire.1.begin (htracked.spares hled htake ht hdue hguard),
        hfire.2.begin (htracked.fire ht hdue) p⟩
  exact ⟨h.tracked htracked, h.punctual htracked hmono hexcused hpun, hrest.1, hrest.2⟩

/-- In a run in which every miss is excused and nothing overtakes, each pass fires in the order `r`,
and what a price meets fires before anything that only later prices meet. -/
theorem Steps.fair (h : Steps meets (Trades reach) (s₀.begin p₀ n₀) s') (hheld : s₀.Held)
    (hnew : s₀.tasks = [] ∧ s₀.fired = [] ∧ s₀.traded = [])
    (hlook : ∀ y ∈ s₀.armed, Excuses meets reach p₀ s₀ y)
    (htake : ∀ a ∈ s₀.armed, ∀ d ∈ s₀.armed, ¬ Overtakes meets reach p₀ s₀ a d)
    (hsorted : ∀ a ∈ s₀.armed, ∀ b ∈ s₀.armed, Ahead s₀.pending a b →
      Together meets reach p₀ s₀ a b → r a b) :
    s'.fired.Pairwise (fun t u => t.pass = u.pass → r t.slot u.slot) ∧ s'.Prompt meets s₀ := by
  obtain ⟨hnone, hfired, htraded⟩ := hnew
  have hrun : s'.InTurn meets reach s₀ p₀ n₀ :=
    Steps.invariant (I := fun s => s.InTurn meets reach s₀ p₀ n₀) h
      (State.inTurn_begin hheld hnone hfired htraded) fun s s' hs hc => hc.inTurn hs hlook htake
  refine ⟨?_, hrun.prompt⟩
  have hplaced := hrun.tracked.placed
  refine hplaced.arranged.fired.imp_of_mem fun {t u} ht hu hturn hpass => ?_
  have hprice := hplaced.passes.same t (List.mem_append_right _ ht) u
    (List.mem_append_right _ hu) hpass
  refine hsorted _ (hplaced.entries.known t ht) _ (hplaced.entries.known u hu) (hturn hpass)
    ⟨t.last, ?_, (hplaced.entries.gone t ht).2, hprice ▸ (hplaced.entries.gone u hu).2⟩
  exact hrun.tracked.foreseen.last s₀.armed hplaced.entries.known t (List.mem_append_right _ ht)

end Fair

end Trigger
