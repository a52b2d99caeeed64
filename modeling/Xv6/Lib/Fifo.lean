import Mathlib.Data.List.Basic
import Mathlib.Data.Nat.ModEq
import Mathlib.Logic.Function.Basic
import Mathlib.Tactic.Common

/-!
# First-in first-out buffers with free-running counters

A ring of `N` cells with two counters of `w` bits that count the elements taken out and put in, and that
are never reset: the counters wrap around at `2 ^ w`, and an element lies in the cell that its number
has modulo `N`. Since `N` divides `2 ^ w`, wrapping does not move the elements.

`contents` is what the buffer holds, oldest element first. A reader of the results does not see the
counters: `push` adds at the end, `pop` takes the head, and the two tests that code makes on the counters
are tests on the length.
-/

/-- A ring of `N` cells with counters of `w` bits. -/
structure Fifo (α : Type) (N w : ℕ) where
  /-- The cells. -/
  data : Fin N → α
  /-- How many elements have been taken out. -/
  nread : BitVec w
  /-- How many elements have been put in. -/
  nwrite : BitVec w

namespace Fifo

open Function

variable {α : Type} {N w : ℕ}

/-- How many elements the buffer holds. -/
def count (q : Fifo α N w) : ℕ := (q.nwrite - q.nread).toNat

/-- The cell of an element. -/
def cell [NeZero N] (c : BitVec w) : Fin N := Fin.ofNat N c.toNat

/-- The elements in the buffer, the oldest one first. -/
def contents [NeZero N] (q : Fifo α N w) : List α :=
  (List.range q.count).map fun k ↦ q.data (cell (q.nread + BitVec.ofNat w k))

/-- Put an element in. -/
def push [NeZero N] (q : Fifo α N w) (x : α) : Fifo α N w :=
  ⟨update q.data (cell q.nwrite) x, q.nread, q.nwrite + 1#w⟩

/-- The oldest element. -/
def front [NeZero N] (q : Fifo α N w) : α := q.data (cell q.nread)

/-- Take the oldest element out. -/
def pop (q : Fifo α N w) : Fifo α N w := ⟨q.data, q.nread + 1#w, q.nwrite⟩

/-! ### The counters -/

theorem nwrite_eq (q : Fifo α N w) : q.nwrite = q.nread + BitVec.ofNat w q.count := by
  rw [count, BitVec.ofNat_toNat, BitVec.setWidth_eq, BitVec.add_comm, BitVec.sub_add_cancel]

theorem nread_eq_nwrite_iff (q : Fifo α N w) : q.nread = q.nwrite ↔ q.count = 0 := by
  rw [count, ← BitVec.toNat_zero (w := w), BitVec.toNat_inj]
  constructor
  · intro h
    rw [h, BitVec.sub_self]
  · intro h
    rw [← BitVec.sub_add_cancel q.nwrite q.nread, h, BitVec.zero_add]

theorem nwrite_eq_add_iff (q : Fifo α N w) (hlt : N < 2 ^ w) :
    q.nwrite = q.nread + BitVec.ofNat w N ↔ q.count = N := by
  have hN : (BitVec.ofNat w N).toNat = N := by
    rw [BitVec.toNat_ofNat, Nat.mod_eq_of_lt hlt]
  constructor
  · intro h
    rw [count, h, BitVec.add_comm, BitVec.add_sub_cancel, hN]
  · intro h
    rw [nwrite_eq, h]

theorem add_one_add (c : BitVec w) (k : ℕ) :
    c + 1#w + BitVec.ofNat w k = c + BitVec.ofNat w (k + 1) := by
  rw [BitVec.ofNat_add, BitVec.add_assoc, BitVec.add_comm 1#w]

theorem count_push [NeZero N] (q : Fifo α N w) (x : α) (hlt : N < 2 ^ w) (h : q.count < N) :
    (q.push x).count = q.count + 1 := by
  have hsub : q.nwrite + 1#w - q.nread = BitVec.ofNat w (q.count + 1) := by
    rw [nwrite_eq, BitVec.add_assoc, ← BitVec.ofNat_add, BitVec.add_comm, BitVec.add_sub_cancel]
  rw [count, push]
  rw [hsub, BitVec.toNat_ofNat, Nat.mod_eq_of_lt (by omega)]

theorem count_pop (q : Fifo α N w) (h : q.count ≠ 0) : q.pop.count + 1 = q.count := by
  have hle : q.count < 2 ^ w := BitVec.isLt _
  have hsub : q.nwrite - (q.nread + 1#w) = BitVec.ofNat w (q.count - 1) := by
    have hnwrite : q.nwrite = q.nread + 1#w + BitVec.ofNat w (q.count - 1) := by
      rw [add_one_add, Nat.sub_add_cancel (Nat.pos_of_ne_zero h), ← nwrite_eq]
    rw [hnwrite, BitVec.add_comm, BitVec.add_sub_cancel]
  rw [count, pop]
  rw [hsub, BitVec.toNat_ofNat, Nat.mod_eq_of_lt (by omega)]
  omega

/-! ### The elements -/

variable [NeZero N]

theorem cell_add (hN : N ∣ 2 ^ w) (c : BitVec w) (k : ℕ) :
    (cell (c + BitVec.ofNat w k) : Fin N) = Fin.ofNat N (c.toNat + k) := by
  refine Fin.ext ?_
  show (c + BitVec.ofNat w k).toNat % N = (c.toNat + k) % N
  rw [BitVec.toNat_add, BitVec.toNat_ofNat, Nat.mod_mod_of_dvd _ hN, Nat.add_mod,
    Nat.mod_mod_of_dvd _ hN, ← Nat.add_mod]

/-- The cell that is written next is not one of those in use. -/
theorem cell_ne (q : Fifo α N w) (hN : N ∣ 2 ^ w) (h : q.count < N) {k : ℕ} (hk : k < q.count) :
    (cell (q.nread + BitVec.ofNat w k) : Fin N) ≠ cell q.nwrite := by
  rw [nwrite_eq, cell_add hN, cell_add hN]
  intro heq
  have hmod : q.nread.toNat + k ≡ q.nread.toNat + q.count [MOD N] := congrArg Fin.val heq
  have hmod' := Nat.ModEq.add_left_cancel' _ hmod
  rw [Nat.ModEq, Nat.mod_eq_of_lt (hk.trans h), Nat.mod_eq_of_lt h] at hmod'
  exact hk.ne hmod'

/-- An element that is put in comes last. -/
theorem contents_push (q : Fifo α N w) (x : α) (hN : N ∣ 2 ^ w) (hlt : N < 2 ^ w)
    (h : q.count < N) : (q.push x).contents = q.contents ++ [x] := by
  rw [contents, count_push q x hlt h, List.range_succ, List.map_append, contents]
  congr 1
  · refine List.map_congr_left fun k hk ↦ ?_
    exact update_of_ne (q.cell_ne hN h (List.mem_range.1 hk)) ..
  · show [update q.data (cell q.nwrite) x (cell (q.nread + BitVec.ofNat w q.count))] = [x]
    rw [← nwrite_eq, update_self]

/-- The element that is taken out was the first. -/
theorem contents_eq_front_cons (q : Fifo α N w) (h : q.count ≠ 0) :
    q.contents = q.front :: q.pop.contents := by
  rw [contents, ← q.count_pop h, List.range_succ_eq_map, List.map_cons, List.map_map, contents]
  congr 1
  · show q.data (cell (q.nread + 0#w)) = q.front
    rw [BitVec.add_zero, front]
  · refine List.map_congr_left fun k _ ↦ ?_
    show q.data (cell (q.nread + BitVec.ofNat w (k + 1))) =
      q.data (cell (q.nread + 1#w + BitVec.ofNat w k))
    rw [add_one_add]

theorem length_contents (q : Fifo α N w) : q.contents.length = q.count := by
  rw [contents, List.length_map, List.length_range]

theorem contents_eq_nil (q : Fifo α N w) (h : q.count = 0) : q.contents = [] := by
  rw [contents, h, List.range_zero, List.map_nil]

end Fifo
