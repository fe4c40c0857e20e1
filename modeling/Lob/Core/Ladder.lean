import Mathlib.Data.List.InsertIdx

/-!
# Sorted ladders

A ladder is a vector of keyed nodes kept in the order of a strict comparator.
Lookup and insertion go through the position returned by a lower-bound search,
so every edit of a ladder is an edit of the vector at one position. The lemmas
describe each edit through the keys, which name the nodes of a sorted ladder.
-/

namespace Ladder

variable {κ V W : Type*}

/-- Position of the first node whose key is not ordered before `k`. -/
def lower (cmp : κ → κ → Bool) (k : κ) : List (κ × V) → Nat
  | [] => 0
  | n :: v => if cmp n.1 k then lower cmp k v + 1 else 0

/-- The node of key `k`, with its position. -/
def find [DecidableEq κ] (cmp : κ → κ → Bool) (k : κ) (v : List (κ × V)) : Option (Nat × V) :=
  match v[lower cmp k v]? with
  | some n => if n.1 = k then some (lower cmp k v, n.2) else none
  | none => none

/-- The node of key `k`, inserted with value `fresh` where the search stopped when missing. -/
def findOrEmplace [DecidableEq κ] (cmp : κ → κ → Bool) (k : κ) (fresh : V) (v : List (κ × V)) :
    List (κ × V) × Nat × V :=
  match find cmp k v with
  | some (i, x) => (v, i, x)
  | none => (v.insertIdx (lower cmp k v) (k, fresh), lower cmp k v, fresh)

/-- Delete the node of key `k` when there is one. -/
def eraseKey [DecidableEq κ] (cmp : κ → κ → Bool) (k : κ) (v : List (κ × V)) : List (κ × V) :=
  match find cmp k v with
  | some (i, _) => v.eraseIdx i
  | none => v

/-- The comparator is a strict total order. -/
structure StrictCmp (cmp : κ → κ → Bool) : Prop where
  irrefl : ∀ a, cmp a a = false
  trans : ∀ a b c, cmp a b = true → cmp b c = true → cmp a c = true
  total : ∀ a b, a ≠ b → cmp a b = true ∨ cmp b a = true

/-- Of two keys at most one comes first. -/
theorem StrictCmp.asymm {cmp : κ → κ → Bool} (hc : StrictCmp cmp) {a b : κ}
    (h : cmp a b = true) : cmp b a = false := by
  cases hb : cmp b a with
  | false => rfl
  | true => simpa [hc.irrefl] using hc.trans a b a h hb

/-- Keys increase strictly along the vector. -/
def Sorted (cmp : κ → κ → Bool) (v : List (κ × V)) : Prop :=
  v.Pairwise fun a b => cmp a.1 b.1 = true

variable {cmp : κ → κ → Bool} {k : κ} {v : List (κ × V)} {x y : V} {i j : Nat}

/-- A key occurs at one position only. -/
theorem Sorted.index_unique (hc : StrictCmp cmp) (hs : Sorted cmp v)
    (hi : v[i]? = some (k, x)) (hj : v[j]? = some (k, y)) : i = j := by
  obtain ⟨hil, hie⟩ := List.getElem?_eq_some_iff.mp hi
  obtain ⟨hjl, hje⟩ := List.getElem?_eq_some_iff.mp hj
  rcases Nat.lt_trichotomy i j with hlt | heq | hgt
  · have h := List.pairwise_iff_getElem.mp hs i j hil hjl hlt
    rw [hie, hje, hc.irrefl] at h
    contradiction
  · exact heq
  · have h := List.pairwise_iff_getElem.mp hs j i hjl hil hgt
    rw [hie, hje, hc.irrefl] at h
    contradiction

/-- A key has one value only. -/
theorem Sorted.value_unique (hc : StrictCmp cmp) (hs : Sorted cmp v)
    (hx : (k, x) ∈ v) (hy : (k, y) ∈ v) : x = y := by
  obtain ⟨i, hi⟩ := List.mem_iff_getElem?.mp hx
  obtain ⟨j, hj⟩ := List.mem_iff_getElem?.mp hy
  rw [hs.index_unique hc hi hj, hj] at hi
  simpa using hi.symm

/-- A sorted vector is known by its nodes. -/
theorem Sorted.ext {w : List (κ × V)} (hc : StrictCmp cmp) (hv : Sorted cmp v) (hw : Sorted cmp w)
    (h : ∀ n, n ∈ v ↔ n ∈ w) : v = w := by
  have hnodup (u : List (κ × V)) (hu : Sorted cmp u) : u.Nodup := by
    refine hu.imp fun {a b} hab => ?_
    rintro rfl
    rw [hc.irrefl] at hab
    contradiction
  refine List.Perm.eq_of_pairwise ?_ hv hw
    ((List.perm_ext_iff_of_nodup (hnodup v hv) (hnodup w hw)).mpr h)
  intro a b _ _ hab hba
  rw [hc.asymm hab] at hba
  contradiction

/-- The search through the first node and the rest. -/
theorem find_cons [DecidableEq κ] (n : κ × V) (v : List (κ × V)) :
    find cmp k (n :: v) =
      if cmp n.1 k then (find cmp k v).map fun r => (r.1 + 1, r.2)
      else if n.1 = k then some (0, n.2) else none := by
  by_cases h : cmp n.1 k = true
  · simp only [find, lower, h, ite_true, List.getElem?_cons_succ]
    cases v[lower cmp k v]? with
    | none => rfl
    | some m => by_cases hm : m.1 = k <;> simp [hm]
  · simp [find, lower, h]

/-- A sorted search finds exactly the stored node. -/
theorem Sorted.find_eq_some [DecidableEq κ] (hc : StrictCmp cmp) (hs : Sorted cmp v) :
    find cmp k v = some (i, x) ↔ v[i]? = some (k, x) := by
  induction v generalizing i with
  | nil => simp [find, lower]
  | cons n v ih =>
    obtain ⟨hn, hv⟩ := List.pairwise_cons.mp hs
    rw [find_cons]
    by_cases hlt : cmp n.1 k = true
    · rw [if_pos hlt]
      cases i with
      | zero =>
        have hne : n.1 ≠ k := by rintro rfl; simp [hc.irrefl] at hlt
        simp only [List.getElem?_cons_zero, Option.map_eq_some_iff, Prod.mk.injEq]
        constructor
        · rintro ⟨r, _, hr, _⟩; omega
        · intro he; exact absurd (congrArg Prod.fst (Option.some.inj he)) hne
      | succ i =>
        rw [List.getElem?_cons_succ, ← ih hv, Option.map_eq_some_iff]
        constructor
        · rintro ⟨r, hr, he⟩
          have h1 : r.1 = i := by simpa using congrArg Prod.fst he
          have h2 : r.2 = x := by simpa using congrArg Prod.snd he
          rw [hr, ← h1, ← h2]
        · exact fun he => ⟨(i, x), he, rfl⟩
    · rw [if_neg hlt]
      by_cases heq : n.1 = k
      · rw [if_pos heq]
        cases i with
        | zero =>
          simp only [List.getElem?_cons_zero, Option.some.injEq, Prod.ext_iff, heq, true_and]
        | succ i =>
          simp only [Option.some.injEq, Prod.mk.injEq, List.getElem?_cons_succ]
          constructor
          · rintro ⟨h, _⟩; omega
          · intro he
            have h := hn _ (List.mem_of_getElem? he)
            rw [heq, hc.irrefl] at h
            contradiction
      · rw [if_neg heq]
        simp only [reduceCtorEq, false_iff]
        intro he
        cases i with
        | zero => exact heq (congrArg Prod.fst (Option.some.inj he))
        | succ i => exact hlt (hn _ (List.mem_of_getElem? (by simpa using he)))

/-- A sorted search fails exactly on an absent key. -/
theorem Sorted.find_eq_none [DecidableEq κ] (hc : StrictCmp cmp) (hs : Sorted cmp v) :
    find cmp k v = none ↔ ∀ n ∈ v, n.1 ≠ k := by
  constructor
  · rintro h n hn rfl
    obtain ⟨i, hi⟩ := List.mem_iff_getElem?.mp hn
    rw [(hs.find_eq_some hc).mpr hi] at h
    contradiction
  · intro h
    cases hf : find cmp k v with
    | none => rfl
    | some r => exact absurd rfl (h _ (List.mem_of_getElem? ((hs.find_eq_some hc).mp hf)))

/-- A stored node is found. -/
theorem Sorted.find_of_mem [DecidableEq κ] (hc : StrictCmp cmp) (hs : Sorted cmp v)
    (h : (k, x) ∈ v) : ∃ i, find cmp k v = some (i, x) ∧ v[i]? = some (k, x) := by
  obtain ⟨i, hi⟩ := List.mem_iff_getElem?.mp h
  exact ⟨i, (hs.find_eq_some hc).mpr hi, hi⟩

/-- Erasing by key is erasing the found position. -/
theorem Sorted.eraseKey_eq [DecidableEq κ] (hc : StrictCmp cmp) (hs : Sorted cmp v)
    (hi : v[i]? = some (k, x)) : eraseKey cmp k v = v.eraseIdx i := by
  rw [eraseKey, (hs.find_eq_some hc).mpr hi]

/-- Replacing a value keeps the order. -/
theorem Sorted.set (hs : Sorted cmp v) (hi : v[i]? = some (k, y)) :
    Sorted cmp (v.set i (k, x)) := by
  have hkeys : (v.set i (k, x)).map Prod.fst = v.map Prod.fst := by
    apply List.ext_getElem?
    intro j
    by_cases hj : i = j
    · subst hj
      obtain ⟨hlt, _⟩ := List.getElem?_eq_some_iff.mp hi
      rw [List.getElem?_map, List.getElem?_map, List.getElem?_set_self hlt, hi]
      rfl
    · rw [List.getElem?_map, List.getElem?_map, List.getElem?_set_ne hj]
  have h : (v.map Prod.fst).Pairwise fun a b => cmp a b = true := List.pairwise_map.mpr hs
  rw [← hkeys] at h
  exact List.pairwise_map.mp h

/-- A sorted ladder stays so without an entry. -/
theorem Sorted.eraseIdx (hs : Sorted cmp v) (i : Nat) : Sorted cmp (v.eraseIdx i) :=
  hs.sublist (List.eraseIdx_sublist v i)

/-- Insertion compares with the first key. -/
theorem insertIdx_lower_cons (n : κ × V) (v : List (κ × V)) :
    (n :: v).insertIdx (lower cmp k (n :: v)) (k, x) =
      if cmp n.1 k then n :: v.insertIdx (lower cmp k v) (k, x) else (k, x) :: n :: v := by
  by_cases h : cmp n.1 k = true <;> simp [lower, h]

/-- Insertion adds the new entry. -/
theorem mem_insertIdx_lower {n : κ × V} :
    n ∈ v.insertIdx (lower cmp k v) (k, x) ↔ n = (k, x) ∨ n ∈ v := by
  induction v with
  | nil => simp [lower]
  | cons m v ih =>
    rw [insertIdx_lower_cons]
    by_cases h : cmp m.1 k = true
    · rw [if_pos h, List.mem_cons, ih, List.mem_cons]
      tauto
    · rw [if_neg h, List.mem_cons]

/-- Writing the node just inserted. -/
theorem set_insertIdx {α : Type*} (v : List α) (i : Nat) (x y : α) :
    (v.insertIdx i x).set i y = v.insertIdx i y := by
  induction i generalizing v with
  | zero => rfl
  | succ i ih =>
    cases v with
    | nil => rfl
    | cons n v => simp only [List.insertIdx_succ_cons, List.set_cons_succ, ih]

/-- Inserting an absent key where the search stops keeps the order. -/
theorem Sorted.insert (hc : StrictCmp cmp) (hs : Sorted cmp v) (hk : ∀ n ∈ v, n.1 ≠ k) :
    Sorted cmp (v.insertIdx (lower cmp k v) (k, x)) := by
  induction v with
  | nil => exact List.pairwise_singleton _ _
  | cons n v ih =>
    obtain ⟨hn, hv⟩ := List.pairwise_cons.mp hs
    rw [insertIdx_lower_cons]
    by_cases h : cmp n.1 k = true
    · rw [if_pos h]
      refine List.pairwise_cons.mpr ⟨?_, ih hv fun m hm => hk m (List.mem_cons_of_mem n hm)⟩
      intro m hm
      rcases mem_insertIdx_lower.mp hm with rfl | hm
      · exact h
      · exact hn m hm
    · rw [if_neg h]
      have hkn : cmp k n.1 = true :=
        (hc.total k n.1 (hk n List.mem_cons_self).symm).resolve_right h
      refine List.pairwise_cons.mpr ⟨?_, hs⟩
      intro m hm
      rcases List.mem_cons.mp hm with rfl | hm
      · exact hkn
      · exact hc.trans _ _ _ hkn (hn m hm)

/-- After writing a node, its key has the new value and the other keys their own. -/
theorem Sorted.mem_set (hc : StrictCmp cmp) (hs : Sorted cmp v) (hi : v[i]? = some (k, y))
    {n : κ × V} : n ∈ v.set i (k, x) ↔ n = (k, x) ∨ n ∈ v ∧ n.1 ≠ k := by
  obtain ⟨hlt, hie⟩ := List.getElem?_eq_some_iff.mp hi
  constructor
  · intro h
    obtain ⟨j, hj⟩ := List.mem_iff_getElem?.mp h
    by_cases hij : i = j
    · subst hij
      rw [List.getElem?_set_self hlt] at hj
      exact Or.inl (Option.some.inj hj).symm
    · rw [List.getElem?_set_ne hij] at hj
      refine Or.inr ⟨List.mem_of_getElem? hj, ?_⟩
      rintro rfl
      exact hij (hs.index_unique hc hi hj)
  · rintro (rfl | ⟨hn, hk⟩)
    · exact List.mem_set hlt _
    · obtain ⟨j, hj⟩ := List.mem_iff_getElem?.mp hn
      have hij : i ≠ j := by
        rintro rfl
        rw [hi] at hj
        exact hk (congrArg Prod.fst (Option.some.inj hj)).symm
      exact List.mem_of_getElem? ((List.getElem?_set_ne hij).trans hj)

/-- After erasing a node, the nodes of the other keys are left. -/
theorem Sorted.mem_eraseIdx (hc : StrictCmp cmp) (hs : Sorted cmp v)
    (hi : v[i]? = some (k, y)) {n : κ × V} : n ∈ v.eraseIdx i ↔ n ∈ v ∧ n.1 ≠ k := by
  rw [List.mem_eraseIdx_iff_getElem?]
  constructor
  · rintro ⟨j, hne, hj⟩
    refine ⟨List.mem_of_getElem? hj, ?_⟩
    rintro rfl
    exact hne (hs.index_unique hc hj hi)
  · rintro ⟨hn, hk⟩
    obtain ⟨j, hj⟩ := List.mem_iff_getElem?.mp hn
    refine ⟨j, ?_, hj⟩
    rintro rfl
    rw [hi] at hj
    exact hk (congrArg Prod.fst (Option.some.inj hj)).symm

section Map

/-- Translate the value of every node. -/
def mapValues (f : V → W) (v : List (κ × V)) : List (κ × W) := v.map (Prod.map id f)

variable {f g : V → W}

/-- The values are mapped place by place. -/
@[simp] theorem getElem?_mapValues : (mapValues f v)[i]? = v[i]?.map (Prod.map id f) :=
  List.getElem?_map

/-- Every mapped value comes from one of the same key. -/
theorem mem_mapValues {n : κ × W} : n ∈ mapValues f v ↔ ∃ x, (n.1, x) ∈ v ∧ f x = n.2 := by
  simp only [mapValues, List.mem_map, Prod.exists, Prod.map_apply, id_eq, Prod.ext_iff]
  constructor
  · rintro ⟨a, x, hm, rfl, hx⟩; exact ⟨x, hm, hx⟩
  · rintro ⟨x, hm, hx⟩; exact ⟨n.1, x, hm, rfl, hx⟩

/-- Only the values of the ladder matter. -/
theorem mapValues_congr (h : ∀ n ∈ v, g n.2 = f n.2) : mapValues g v = mapValues f v :=
  List.map_congr_left fun n hn => Prod.ext rfl (h n hn)

/-- The place of a key depends on the keys alone. -/
@[simp] theorem lower_mapValues : lower cmp k (mapValues f v) = lower cmp k v := by
  induction v with
  | nil => rfl
  | cons n v ih =>
    simp only [mapValues, List.map_cons, lower, Prod.map_fst, id_eq] at ih ⊢
    rw [ih]

/-- A key is found with its mapped value. -/
theorem find_mapValues [DecidableEq κ] :
    find cmp k (mapValues f v) = (find cmp k v).map (Prod.map id f) := by
  simp only [find, lower_mapValues, getElem?_mapValues]
  cases v[lower cmp k v]? with
  | none => rfl
  | some n => by_cases h : n.1 = k <;> simp [h]

/-- Writing one node translates to writing its translation, if the others translate as before. -/
theorem Sorted.mapValues_set (hc : StrictCmp cmp) (hs : Sorted cmp v)
    (hi : v[i]? = some (k, y)) (h : ∀ n ∈ v, n.1 ≠ k → g n.2 = f n.2) :
    mapValues g (v.set i (k, x)) = (mapValues f v).set i (k, g x) := by
  obtain ⟨hlt, _⟩ := List.getElem?_eq_some_iff.mp hi
  apply List.ext_getElem?
  intro j
  by_cases hij : i = j
  · subst hij
    rw [getElem?_mapValues, List.getElem?_set_self hlt,
      List.getElem?_set_self (by simpa [mapValues] using hlt)]
    rfl
  · rw [getElem?_mapValues, List.getElem?_set_ne hij, List.getElem?_set_ne hij,
      getElem?_mapValues]
    cases hj : v[j]? with
    | none => rfl
    | some n =>
      have hk : n.1 ≠ k := by rintro rfl; exact hij (hs.index_unique hc hi hj)
      simp only [Option.map_some, Prod.map, id_eq, h n (List.mem_of_getElem? hj) hk]

/-- Erasing one node translates to erasing its translation. -/
theorem Sorted.mapValues_eraseIdx (hc : StrictCmp cmp) (hs : Sorted cmp v)
    (hi : v[i]? = some (k, y)) (h : ∀ n ∈ v, n.1 ≠ k → g n.2 = f n.2) :
    mapValues g (v.eraseIdx i) = (mapValues f v).eraseIdx i := by
  have he : mapValues g (v.eraseIdx i) = mapValues f (v.eraseIdx i) := by
    apply mapValues_congr
    intro n hn
    obtain ⟨hm, hk⟩ := (hs.mem_eraseIdx hc hi).mp hn
    exact h n hm hk
  rw [he]
  apply List.ext_getElem?
  intro j
  simp only [getElem?_mapValues, List.getElem?_eraseIdx]
  split <;> rfl

/-- Inserting one node translates to inserting its translation. -/
theorem mapValues_insert (h : ∀ n ∈ v, g n.2 = f n.2) :
    mapValues g (v.insertIdx (lower cmp k v) (k, x)) =
      (mapValues f v).insertIdx (lower cmp k v) (k, g x) := by
  induction v with
  | nil => rfl
  | cons n v ih =>
    have hm : mapValues f (n :: v) = (n.1, f n.2) :: mapValues f v := rfl
    rw [insertIdx_lower_cons, hm]
    by_cases hlt : cmp n.1 k = true
    · have htail := ih fun m hm => h m (List.mem_cons_of_mem n hm)
      simp only [lower, hlt, ite_true, List.insertIdx_succ_cons]
      rw [← htail, ← h n List.mem_cons_self]
      rfl
    · have htail := mapValues_congr h
      simp only [lower, hlt, Bool.false_eq_true, ite_false, List.insertIdx_zero]
      rw [← hm, ← htail]
      rfl

end Map

section Keys

variable {κ' : Type*} [DecidableEq κ] [DecidableEq κ'] {cmp' : κ' → κ' → Bool} {f : κ → κ'}

/-- Translate every key. -/
def mapKeys (f : κ → κ') (v : List (κ × V)) : List (κ' × V) := v.map fun n => (f n.1, n.2)

omit [DecidableEq κ] [DecidableEq κ'] in
/-- Writing an entry is writing it at its mapped key. -/
theorem mapKeys_set (i : Nat) (n : κ × V) :
    mapKeys f (v.set i n) = (mapKeys f v).set i (f n.1, n.2) := by
  unfold mapKeys
  rw [List.map_set]

omit [DecidableEq κ] [DecidableEq κ'] in
/-- Erasing an entry by its place. -/
theorem mapKeys_eraseIdx (i : Nat) : mapKeys f (v.eraseIdx i) = (mapKeys f v).eraseIdx i := by
  unfold mapKeys
  rw [List.eraseIdx_map]

section Order

variable (hcmp : ∀ a b, cmp' (f a) (f b) = cmp a b)
include hcmp

omit [DecidableEq κ] [DecidableEq κ'] in
/-- A translation that keeps the order keeps the positions. -/
theorem lower_mapKeys (k : κ) (v : List (κ × V)) :
    lower cmp' (f k) (mapKeys f v) = lower cmp k v := by
  unfold mapKeys
  induction v with
  | nil => rfl
  | cons n v ih => simp only [List.map_cons, lower, hcmp, ih]

variable (hinj : Function.Injective f)
include hinj

/-- A mapped key is found at the place of the key. -/
theorem find_mapKeys (k : κ) (v : List (κ × V)) :
    find cmp' (f k) (mapKeys f v) = find cmp k v := by
  unfold find
  rw [lower_mapKeys hcmp, mapKeys, List.getElem?_map]
  cases v[lower cmp k v]? with
  | none => rfl
  | some n => simp only [Option.map_some, hinj.eq_iff]

/-- A mapped key is found or made at the place of the key. -/
theorem findOrEmplace_mapKeys (k : κ) (fresh : V) (v : List (κ × V)) :
    findOrEmplace cmp' (f k) fresh (mapKeys f v) =
      (mapKeys f (findOrEmplace cmp k fresh v).1, (findOrEmplace cmp k fresh v).2) := by
  unfold findOrEmplace
  rw [find_mapKeys hcmp hinj, lower_mapKeys hcmp]
  cases find cmp k v with
  | some r => rfl
  | none =>
    unfold mapKeys
    rw [List.map_insertIdx]

/-- A mapped key is erased where the key is. -/
theorem eraseKey_mapKeys (k : κ) (v : List (κ × V)) :
    eraseKey cmp' (f k) (mapKeys f v) = mapKeys f (eraseKey cmp k v) := by
  unfold eraseKey
  rw [find_mapKeys hcmp hinj]
  cases find cmp k v with
  | some r => exact (mapKeys_eraseIdx r.1).symm
  | none => rfl

end Order

end Keys

end Ladder
