import Mathlib.Data.List.GetD
import Mathlib.Data.List.Perm.Basic

/-!
# Lists drawn from without order

An element is taken out of a list by putting the last one in its place. What is
taken out and what stays are a permutation of the list.
-/

namespace Bag

variable {α : Type*} [Inhabited α]

/-- Overwrite the element at `i` with the last one, and drop the last one. -/
def remove (xs : List α) (i : Nat) : List α := (xs.set i (xs.getLastD default)).dropLast

/-- The elements that `k` draws take out, the first of them being the draw numbered `n`. -/
def drawn (pick : Nat → Nat) : Nat → Nat → List α → List α
  | 0, _, _ => []
  | k + 1, n, xs =>
    if xs.length = 0 then []
    else xs.getD (pick n % xs.length) default ::
      drawn pick k (n + 1) (remove xs (pick n % xs.length))

variable {pick : Nat → Nat} {k n i : Nat} {xs : List α}

/-- The element that is taken out and those that stay. -/
theorem perm_remove (h : i < xs.length) : (xs.getD i default :: remove xs i).Perm xs := by
  have hset : xs.set i (xs.getLastD default) ≠ [] := by
    rw [← List.length_pos_iff, List.length_set]
    omega
  have hlast : (xs.set i (xs.getLastD default)).getLast hset = xs.getLastD default := by
    have hne : xs ≠ [] := List.ne_nil_of_length_pos (by omega)
    have hback : xs.getLastD default = xs[xs.length - 1] := by
      rw [List.getLastD_eq_getLast?, List.getLast?_eq_some_getLast hne, Option.getD_some,
        List.getLast_eq_getElem]
    rw [List.getLast_eq_getElem, List.getElem_set]
    simp only [List.length_set, hback, ite_self]
  have hstay : (remove xs i).Perm (xs.eraseIdx i) := by
    have happ := List.dropLast_append_getLast hset
    rw [hlast] at happ
    have hperm := List.set_perm_cons_eraseIdx h (xs.getLastD default)
    rw [← happ] at hperm
    exact ((List.perm_append_singleton _ _).symm.trans hperm).cons_inv
  rw [List.getD_eq_getElem _ _ h]
  exact (hstay.cons _).trans (List.getElem_cons_eraseIdx_perm h)

end Bag
