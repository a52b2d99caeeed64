import Mathlib.Algebra.BigOperators.Group.Finset.Basic
import Mathlib.Algebra.BigOperators.Group.Finset.Piecewise
import Mathlib.Data.Fintype.Card

/-!
# Counting references

A finite table `e : ι → Option α` of references, each entry empty or naming some `a : α`. How often `a` is
named is `count e a`; setting an empty entry adds one for the name that is written, and clearing an entry
takes one away for the name that it held. With these two rules a reference count that is kept beside
the table is compared with the table one assignment at a time.
-/

namespace RefCount

open Function

variable {ι α : Type} [Fintype ι] [DecidableEq α]

/-- How many entries of the table name `a`. -/
def count (e : ι → Option α) (a : α) : ℤ := ((Finset.univ.filter fun i ↦ e i = some a).card : ℤ)

variable {e : ι → Option α} {i : ι} {a b : α}

theorem count_nonneg : 0 ≤ count e a := Int.natCast_nonneg _

theorem count_pos : 0 < count e a ↔ ∃ i, e i = some a := by
  rw [count, Int.natCast_pos, Finset.card_pos]
  constructor
  · intro ⟨i, hi⟩
    exact ⟨i, (Finset.mem_filter.1 hi).2⟩
  · intro ⟨i, hi⟩
    exact ⟨i, Finset.mem_filter.2 ⟨Finset.mem_univ i, hi⟩⟩

variable [DecidableEq ι]

/-- The entries that name `a`, after a name has been written into an empty entry. -/
theorem count_set (h : e i = none) :
    count (update e i (some a)) b = count e b + if b = a then 1 else 0 := by
  have hi : i ∉ Finset.univ.filter fun j ↦ e j = some b := by
    rw [Finset.mem_filter, h]
    exact nofun
  split
  next hba =>
    have hset : (Finset.univ.filter fun j ↦ update e i (some a) j = some b) =
        insert i (Finset.univ.filter fun j ↦ e j = some b) := by
      ext j
      rcases eq_or_ne j i with rfl | hj
      · simp [hba]
      · simp [hj]
    rw [count, count, hset, Finset.card_insert_of_notMem hi]
    omega
  next hba =>
    have hset : (Finset.univ.filter fun j ↦ update e i (some a) j = some b) =
        Finset.univ.filter fun j ↦ e j = some b := by
      ext j
      rcases eq_or_ne j i with rfl | hj
      · simp [h, Ne.symm hba]
      · simp [hj]
    rw [count, count, hset]
    omega

/-- The entries that name `b`, after an entry that named `a` has been cleared. -/
theorem count_clear (h : e i = some a) :
    count (update e i none) b = count e b - if b = a then 1 else 0 := by
  -- Writing the name back gives the old table.
  have hback := count_set (e := update e i none) (i := i) (a := a) (b := b)
    (update_self ..)
  rw [update_idem, ← h, update_eq_self] at hback
  omega

end RefCount
