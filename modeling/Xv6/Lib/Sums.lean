import Mathlib.Algebra.BigOperators.Group.Finset.Basic
import Mathlib.Algebra.Order.BigOperators.Group.Finset
import Mathlib.Tactic.Common

/-!
# Sums over a table

A table is a function on the numbers below `n`, and what is counted in it is a sum over its entries. When one entry is
rewritten, the sum changes by what the old entry and the new one count.
-/

/-- One term of a sum is replaced. -/
theorem sum_range_update {α : Type} (f : α → ℕ) (g : ℕ → α) {n i : ℕ} (hi : i < n) (a : α) :
    ∑ j ∈ Finset.range n, f (Function.update g i a j) + f (g i) =
      ∑ j ∈ Finset.range n, f (g j) + f a := by
  have hmem := Finset.mem_range.2 hi
  have hrest : ∑ j ∈ (Finset.range n).erase i, f (Function.update g i a j) =
      ∑ j ∈ (Finset.range n).erase i, f (g j) :=
    Finset.sum_congr rfl fun j hj ↦ by rw [Function.update_of_ne (Finset.ne_of_mem_erase hj)]
  rw [← Finset.add_sum_erase _ _ hmem, ← Finset.add_sum_erase _ (fun j ↦ f (g j)) hmem, hrest,
    Function.update_self]
  omega

