import Mathlib.Data.Finset.Card
import Mathlib.Data.Int.Order.Basic
import Xv6.Lib.Machine
import Xv6.Proc.Basic

/-!
# Semaphores in user memory

`proc.c`: `xem_init`, `xem_wait` and `xem_unlock`. A semaphore lies in user memory. It counts the
threads that have gone to sleep (`count`) and those that have been woken up (`dcount`), and a thread
sleeps on the address of the entry of `arr` with its number. The entries themselves are not used.

The numbers are `int`s that are incremented without bound, and the index is their remainder by `SIZE`,
which is negative when they have wrapped around; so the numbers are 32 bits here. `value` and `end` stay
between bounds, and are integers.

`Sys` is the process table with the semaphores of all address spaces. Between two points at which a
thread can be interrupted it holds `semaphore->lk`, so the steps are the parts of `xem_wait` before and
after `sleep`, and `xem_unlock`. Which semaphores a thread is in or has taken is recorded beside the
table. The scheduler does not matter: a thread whose state is `RUNNABLE` or `RUNNING` may take its next
step. The queue `semaphore->q` is set up by `xem_init` and not used afterwards; it is left out here.
-/

namespace Xv6

open Vm Function

/-- The number of entries of `arr`. -/
def SIZE : ℕ := 9991

/-- `struct xem`. -/
structure Xem where
  /-- What is left, or with a minus sign the number of threads that wait. -/
  value : ℤ
  /-- Threads that have been woken up and have not returned yet. -/
  ended : ℤ
  /-- How many threads have gone to sleep. -/
  count : BitVec 32
  /-- How many have been woken up. -/
  dcount : BitVec 32

namespace Xem

/-- `sizeof(xem_t)`. -/
def size : ℕ := 72 + 4 * SIZE

/-- `xem_init`, and then the value. -/
def init (value : ℤ) : Xem := ⟨value, 0, 0, 0⟩

/-- `n % SIZE`, for an `int`. -/
def index (n : BitVec 32) : ℤ := n.toInt.tmod SIZE

/-- `&semaphore->arr[n % SIZE]`, for a semaphore at address `a`: `arr` comes after `value`, `end`, the
spin lock and `q`. -/
def chanAt (a : ℕ) (n : BitVec 32) : ℕ := uint (a + 64 + 4 * index n)

/-- `xem_wait` up to `sleep`. It returns the number with which the caller goes to sleep, if it does. -/
def wait (x : Xem) : Xem × Option (BitVec 32) :=
  if x.value - 1 < 0 then
    ({ x with value := x.value - 1, count := x.count + 1 }, some x.count)
  else
    ({ x with value := x.value - 1 }, none)

/-- `xem_wait` after `sleep`. -/
def resume (x : Xem) : Xem := { x with ended := x.ended - 1 }

/-- `xem_unlock`. It returns the number that is woken up, if there is one. -/
def unlock (x : Xem) : Xem × Option (BitVec 32) :=
  if x.value + 1 ≤ 0 then
    ({ x with value := x.value + 1, ended := x.ended + 1, dcount := x.dcount + 1 }, some x.dcount)
  else
    ({ x with value := x.value + 1 }, none)

end Xem

/-- The table after `wakeup1(chan)`. -/
def Ptable.wake (s : Ptable) (chan : Chan) : Ptable :=
  s.mapProcs (fun _ p ↦ p.state = .SLEEPING && p.chan = some chan) fun p ↦ p.setState .RUNNABLE

/-- What a thread does with a semaphore, or what is done to it. -/
inductive XemOp where
  /-- `xem_wait`, up to `sleep`. -/
  | wait (a : ℕ)
  /-- `xem_wait`, after `sleep`. -/
  | resume
  /-- `xem_unlock`. -/
  | unlock (a : ℕ)
  /-- `kill`. -/
  | kill (pid : ℤ)
  /-- `exit`, from `trap`, of a thread that has been killed. -/
  | exit
  deriving DecidableEq

/-- The process table and the semaphores. -/
structure XemSys where
  /-- The process table. -/
  table : Ptable
  /-- The semaphore at an address of an address space. -/
  sem : ℕ → ℕ → Xem
  /-- The semaphore in whose `xem_wait` a thread is, from its first part to its second. -/
  call : Slot → Option ℕ
  /-- The semaphores for which a thread has returned from `xem_wait`, and not called `xem_unlock`. -/
  held : Slot → List ℕ

/-- A function of two arguments, changed at one place. -/
def update₂ {α : Type} (f : ℕ → ℕ → α) (d a : ℕ) (x : α) : ℕ → ℕ → α :=
  update f d (update (f d) a x)

@[simp]
theorem update₂_self {α : Type} (f : ℕ → ℕ → α) (d a : ℕ) (x : α) : update₂ f d a x d a = x := by
  rw [update₂, update_self, update_self]

theorem update₂_of_ne {α : Type} (f : ℕ → ℕ → α) {d a d' a' : ℕ} (x : α)
    (h : (d', a') ≠ (d, a)) : update₂ f d a x d' a' = f d' a' := by
  rw [update₂]
  rcases eq_or_ne d' d with rfl | hd
  · rw [update_self, update_of_ne]
    rintro rfl
    exact h rfl
  · rw [update_of_ne hd]

@[simp]
theorem update₂_idem {α : Type} (f : ℕ → ℕ → α) (d a : ℕ) (x y : α) :
    update₂ (update₂ f d a x) d a y = update₂ f d a y := by
  rw [update₂, update₂, update_idem, update_self, update_idem, update₂]

namespace XemSys

/-- Rewrite a semaphore. -/
@[simps -fullyApplied]
def setSem (s : XemSys) (d a : ℕ) (x : Xem) : XemSys := { s with sem := update₂ s.sem d a x }

/-- Rewrite the table. -/
@[simps -fullyApplied]
def setTable (s : XemSys) (table : Ptable) : XemSys := { s with table := table }

/-- A thread enters or leaves `xem_wait`. -/
@[simps -fullyApplied]
def setCall (s : XemSys) (t : Slot) (call : Option ℕ) : XemSys :=
  { s with call := update s.call t call }

/-- A thread takes or gives back a semaphore. -/
@[simps -fullyApplied]
def setHeld (s : XemSys) (t : Slot) (held : List ℕ) : XemSys :=
  { s with held := update s.held t held }

/-- A thread can take a step. -/
def CanRun (s : XemSys) (t : Slot) : Prop :=
  (s.table.proc t).state = .RUNNABLE ∨ (s.table.proc t).state = .RUNNING

/-- A thread can make a system call: it is in none, and `trap` lets it do nothing but `exit` when it has
been killed. -/
def MayCall (s : XemSys) (t : Slot) : Prop :=
  s.CanRun t ∧ s.call t = none ∧ (s.table.proc t).killed = false

/-- A thread is asleep on a channel. -/
def AsleepOn (s : XemSys) (t : Slot) (chan : ℕ) : Prop :=
  (s.table.proc t).state = .SLEEPING ∧ (s.table.proc t).chan = some (.addr chan)

instance (s : XemSys) (t : Slot) : Decidable (s.CanRun t) := inferInstanceAs (Decidable (_ ∨ _))

instance (s : XemSys) (t : Slot) : Decidable (s.MayCall t) := inferInstanceAs (Decidable (_ ∧ _))

instance (s : XemSys) (t : Slot) (chan : ℕ) : Decidable (s.AsleepOn t chan) :=
  inferInstanceAs (Decidable (_ ∧ _))

/-- `xem_wait` by `t` on the semaphore `a` of its address space `d`, up to `sleep`. -/
def wait (s : XemSys) (t : Slot) (d a : ℕ) : XemSys :=
  match (s.sem d a).wait with
  | (x, some n) =>
    ((s.setSem d a x).setTable (s.table.setProc t (((s.table.proc t).setChan
      (some (.addr (Xem.chanAt a n)))).setState .SLEEPING))).setCall t (some a)
  | (x, none) => (s.setSem d a x).setHeld t (a :: s.held t)

/-- `xem_wait` by `t` on the semaphore `a` of its address space `d`, after `sleep`. -/
def resume (s : XemSys) (t : Slot) (d a : ℕ) : XemSys :=
  (((s.setSem d a (s.sem d a).resume).setTable (s.table.setProc t
    ((s.table.proc t).setChan none))).setCall t none).setHeld t (a :: s.held t)

/-- `xem_unlock` by `t` on the semaphore `a` of its address space `d`. -/
def unlock (s : XemSys) (t : Slot) (d a : ℕ) : XemSys :=
  match (s.sem d a).unlock with
  | (x, some n) =>
    ((s.setSem d a x).setTable (s.table.wake (.addr (Xem.chanAt a n)))).setHeld t
      ((s.held t).erase a)
  | (x, none) => (s.setSem d a x).setHeld t ((s.held t).erase a)

/-- One step. A thread calls `xem_unlock` only for a semaphore that it has taken. -/
def step (s : XemSys) : Slot × XemOp → Option (Except Fault XemSys)
  | (t, .wait a) =>
    match (s.table.proc t).pgdir with
    | some d => if s.MayCall t then some (.ok (s.wait t d a)) else none
    | none => none
  | (t, .resume) =>
    match (s.table.proc t).pgdir, s.call t with
    | some d, some a => if s.CanRun t then some (.ok (s.resume t d a)) else none
    | _, _ => none
  | (t, .unlock a) =>
    match (s.table.proc t).pgdir with
    | some d => if s.MayCall t ∧ a ∈ s.held t then some (.ok (s.unlock t d a)) else none
    | none => none
  | (_, .kill pid) => some (((Ptable.kill pid).exec s.table).map s.setTable)
  | (t, .exit) =>
    if s.CanRun t ∧ s.call t = none ∧ (s.table.proc t).killed = true then
      some (((Ptable.exit t).exec s.table).map s.setTable)
    else
      none

end XemSys

end Xv6
