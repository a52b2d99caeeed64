import Mathlib.Data.Finset.Card
import Xv6.Block
import Xv6.Panic

/-!
# The in-memory log

The state that `log.c` keeps in memory, and the three operations on it that run under `log.lock`:
`beginOp` (the admission test of `begin_op`), `logWrite` and `endOp`. The header `log.lh` is the list
of its block numbers, so that `log.lh.n` is the length of the list.

A block number is recorded at most once between commits: this is what the code calls log
absorption, and here it is `absorb`.
-/

namespace Xv6

/-- `struct log`. -/
structure Log where
  /-- Size of the on-disk log in blocks, header included. -/
  size : ℤ
  /-- How many FS sys calls are executing. -/
  outstanding : ℤ
  /-- In `commit()`, please wait. -/
  committing : Bool
  /-- The block numbers recorded in the header, `lh.block[0..lh.n)`. -/
  lh : List ℕ

namespace Log

/-- The log after `initlog` has found nothing to recover. -/
def init (sb : Superblock) : Log where
  size := sb.nlog
  outstanding := 0
  committing := false
  lh := []

/-- One turn of the loop in `begin_op`: `none` when the caller has to sleep. -/
def beginOp (log : Log) : Option Log :=
  if log.committing then
    none
  else if (log.lh.length : ℤ) + (log.outstanding + 1) * MAXOPBLOCKS > LOGSIZE then
    -- this op might exhaust log space; wait for commit.
    none
  else
    some { log with outstanding := log.outstanding + 1 }

/-- The loop of `log_write`: store `b` over its earlier occurrence, or at the end. -/
def absorb : List ℕ → ℕ → List ℕ
  | [], b => [b]
  | x :: xs, b => if x = b then b :: xs else x :: absorb xs b

/-- `log_write(b)`. -/
def logWrite (log : Log) (b : ℕ) : Except Panic Log :=
  if (log.lh.length : ℤ) ≥ LOGSIZE ∨ (log.lh.length : ℤ) ≥ log.size - 1 then
    .error .tooBigTransaction
  else if log.outstanding < 1 then
    .error .logWriteOutsideTrans
  else
    .ok { log with lh := absorb log.lh b }

/-- The part of `end_op` under the lock. The log is `committing` afterwards exactly when the caller
has to commit. -/
def endOp (log : Log) : Except Panic Log :=
  if log.committing then
    .error .logCommitting
  else if log.outstanding - 1 = 0 then
    .ok { log with outstanding := log.outstanding - 1, committing := true }
  else
    .ok { log with outstanding := log.outstanding - 1 }

variable {xs : List ℕ} {b : ℕ} {log log' : Log}

/-! ### Absorption -/

theorem mem_absorb {x : ℕ} : x ∈ absorb xs b ↔ x ∈ xs ∨ x = b := by
  induction xs with
  | nil => simp [absorb]
  | cons y ys ih =>
    rw [absorb]
    split
    next hy =>
      simp only [List.mem_cons, hy]
      tauto
    next hy =>
      simp only [List.mem_cons, ih]
      tauto

/-- A block that is recorded already is not recorded again. -/
theorem absorb_of_mem (h : b ∈ xs) : absorb xs b = xs := by
  induction xs with
  | nil => cases h
  | cons y ys ih =>
    rw [absorb]
    split
    next hy => rw [hy]
    next hy =>
      rcases List.mem_cons.1 h with rfl | h
      · exact absurd rfl hy
      · rw [ih h]

/-- A block that is not recorded yet goes to the end. -/
theorem absorb_of_not_mem (h : b ∉ xs) : absorb xs b = xs ++ [b] := by
  induction xs with
  | nil => rfl
  | cons y ys ih =>
    rw [List.mem_cons, not_or] at h
    rw [absorb, if_neg (Ne.symm h.1), ih h.2, List.cons_append]

theorem length_absorb_le (xs : List ℕ) (b : ℕ) : (absorb xs b).length ≤ xs.length + 1 := by
  by_cases hb : b ∈ xs
  · rw [absorb_of_mem hb]
    exact Nat.le_succ _
  · rw [absorb_of_not_mem hb, List.length_append, List.length_singleton]

theorem nodup_absorb (h : xs.Nodup) : (absorb xs b).Nodup := by
  by_cases hb : b ∈ xs
  · rwa [absorb_of_mem hb]
  · rw [absorb_of_not_mem hb]
    refine List.Nodup.append h (List.nodup_singleton b) ?_
    intro x hx hxb
    rw [List.mem_singleton] at hxb
    exact hb (hxb ▸ hx)

theorem toFinset_absorb (xs : List ℕ) (b : ℕ) : (absorb xs b).toFinset = insert b xs.toFinset := by
  ext x
  rw [List.mem_toFinset, mem_absorb, Finset.mem_insert, List.mem_toFinset, or_comm]

/-! ### What the operations do -/

theorem beginOp_eq_some (h : log.beginOp = some log') : log.committing = false ∧
      (log.lh.length : ℤ) + (log.outstanding + 1) * MAXOPBLOCKS ≤ LOGSIZE ∧
      log' = { log with outstanding := log.outstanding + 1 } := by
  unfold beginOp at h
  split at h
  · cases h
  · split at h
    · cases h
    · next hc hn => exact ⟨by simpa using hc, by omega, (Option.some.inj h).symm⟩

theorem logWrite_eq_ok (h : log.logWrite b = .ok log') :
    (log.lh.length : ℤ) < LOGSIZE ∧ (log.lh.length : ℤ) < log.size - 1 ∧ 1 ≤ log.outstanding ∧
      log' = { log with lh := absorb log.lh b } := by
  unfold logWrite at h
  split at h
  · cases h
  · split at h
    · cases h
    · next hs ho => exact ⟨by omega, by omega, by omega, (Except.ok.inj h).symm⟩

theorem logWrite_eq_error {e : Panic} (h : log.logWrite b = .error e) : (e = .tooBigTransaction ∧
        ((log.lh.length : ℤ) ≥ LOGSIZE ∨ (log.lh.length : ℤ) ≥ log.size - 1)) ∨
      (e = .logWriteOutsideTrans ∧ log.outstanding < 1) := by
  unfold logWrite at h
  split at h
  · next hs => exact .inl ⟨(Except.error.inj h).symm, hs⟩
  · split at h
    · next ho => exact .inr ⟨(Except.error.inj h).symm, ho⟩
    · cases h

theorem endOp_eq_ok (h : log.endOp = .ok log') : log.committing = false ∧
      log' = { log with
        outstanding := log.outstanding - 1, committing := decide (log.outstanding = 1) } := by
  unfold endOp at h
  split at h
  · cases h
  · next hc =>
    have hc : log.committing = false := by simpa using hc
    split at h
    · next ho =>
      rw [decide_eq_true (by omega)]
      exact ⟨hc, (Except.ok.inj h).symm⟩
    · next ho =>
      rw [decide_eq_false (by omega)]
      exact ⟨hc, by rw [← Except.ok.inj h, hc]⟩

end Log

end Xv6
