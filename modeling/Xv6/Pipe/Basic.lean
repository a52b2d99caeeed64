import Mathlib.Tactic.Simps.Basic
import Xv6.Block
import Xv6.Lib.Fifo
import Xv6.Lib.Machine
import Xv6.Lib.Prog

/-!
# Pipes

`pipe.c`: `pipewrite`, `piperead` and `pipeclose` on one pipe, for any number of processes that write to it,
read from it, close its ends and are killed.

A call holds `p->lock` from `acquire` to `release` or to `sleep`, which gives the lock up and takes it again
when the process has been woken up. What a call does while it holds the lock is one step, and between two
steps any other process can come in. `sleep` gets hold of `ptable.lock` before it releases `p->lock`, and
`wakeup` takes `ptable.lock`, so a process that has decided to sleep is asleep before anybody can try to
wake it up. The calls look at `killed` once in a step, after which they return or sleep. A process that is killed
earlier in the step might as well have been killed before it. One that is killed between the test and `sleep` is not
woken up by that, and looks at `killed` again when somebody else wakes it up: the kill can be put off until then.

The bytes that have been put into the pipe and those that `piperead` has returned are kept in the order in
which this has happened (`stored`, `delivered`); the code does not have these two fields. When both ends
are closed the page of the pipe is freed, and there are no more steps.
-/

namespace Xv6

open Function

/-- The number of bytes that a pipe can hold. -/
def PIPESIZE : ℕ := 512

instance : NeZero PIPESIZE := ⟨by decide⟩

/-- What a process in a call on a pipe sleeps on. -/
inductive PipeChan where
  /-- `&p->nread`. -/
  | nread
  /-- `&p->nwrite`. -/
  | nwrite
  deriving DecidableEq

/-- Where a process is. -/
inductive PipePc where
  /-- In user mode, after a call that has returned `r`. -/
  | user (r : ℤ)
  /-- In `pipewrite(p, addr, n)`, about to write the byte `i`. -/
  | write (addr : ℕ → Byte) (n : ℤ) (i : ℕ)
  /-- In `piperead(p, addr, n)`, before the loop that copies. -/
  | read (n : ℤ)

/-- A pipe, and the processes `ι` that use it. -/
structure PipeSys (ι : Type) where
  /-- `p->data`, `p->nread` and `p->nwrite`. -/
  fifo : Fifo Byte PIPESIZE 32
  /-- Read fd is still open. -/
  readopen : Bool
  /-- Write fd is still open. -/
  writeopen : Bool
  /-- The page of the pipe has been freed. -/
  freed : Bool
  /-- Where the processes are. -/
  pc : ι → PipePc
  /-- What the processes that are `SLEEPING` sleep on. -/
  chan : ι → Option PipeChan
  /-- Whether the processes have been killed. -/
  killed : ι → Bool
  /-- The bytes that have been stored in the pipe. -/
  stored : List Byte
  /-- The bytes that `piperead` has returned. -/
  delivered : List Byte

/-- Code that holds the lock of the pipe. -/
abbrev PipeM (ι α : Type) : Type := Prog (PipeSys ι) Empty α

namespace PipeSys

variable {ι : Type}

/-- The pipe that `pipealloc` makes. It does not clear the page. -/
def fresh (data : Fin PIPESIZE → Byte) (killed : ι → Bool) : PipeSys ι where
  fifo := ⟨data, 0, 0⟩
  readopen := true
  writeopen := true
  freed := false
  pc := fun _ ↦ .user 0
  chan := fun _ ↦ none
  killed := killed
  stored := []
  delivered := []

/-- Who is asleep when those that sleep on `c` have been woken up. -/
def awake (s : PipeSys ι) (c : PipeChan) (j : ι) : Option PipeChan :=
  if s.chan j = some c then none else s.chan j

/-- Rewrite the channels. -/
@[simps]
def setChan (s : PipeSys ι) (chan : ι → Option PipeChan) : PipeSys ι := { s with chan := chan }

/-- `p->data[p->nwrite++ % PIPESIZE] = b`. -/
@[simps]
def store (s : PipeSys ι) (b : Byte) : PipeSys ι :=
  { s with fifo := s.fifo.push b, stored := s.stored ++ [b] }

/-- `addr[i] = p->data[p->nread++ % PIPESIZE]`. -/
@[simps]
def deliver (s : PipeSys ι) : PipeSys ι :=
  { s with fifo := s.fifo.pop, delivered := s.delivered ++ [s.fifo.front] }

/-- `p->nwrite == p->nread + PIPESIZE`. -/
def IsFull (s : PipeSys ι) : Prop := s.fifo.nwrite = s.fifo.nread + BitVec.ofNat 32 PIPESIZE

/-- `p->nread == p->nwrite`. -/
def IsEmpty (s : PipeSys ι) : Prop := s.fifo.nread = s.fifo.nwrite

instance (s : PipeSys ι) : Decidable s.IsFull := inferInstanceAs (Decidable (_ = _))

instance (s : PipeSys ι) : Decidable s.IsEmpty := inferInstanceAs (Decidable (_ = _))

/-- Wake up all processes sleeping on `c`. -/
def wakeup (c : PipeChan) : PipeM ι Unit := Prog.modify fun s ↦ s.setChan (s.awake c)

section Calls

variable [DecidableEq ι]

/-- `sleep(c, &p->lock)` by `j`. -/
def sleep (j : ι) (c : PipeChan) : PipeM ι Unit :=
  Prog.modify fun s ↦ s.setChan (update s.chan j (some c))

/-- The loop of `pipewrite` by `j` from the byte `i` on, with `n - i` bytes to write, which is the first
argument. It returns where the process is then. -/
def writeLoop (j : ι) (addr : ℕ → Byte) (n : ℤ) : ℕ → ℕ → PipeM ι PipePc
  | 0, _ => do
    wakeup .nread
    return .user n
  | rest + 1, i => do
    let s ← Prog.get
    if s.IsFull then
      if s.readopen = false ∨ s.killed j = true then
        return .user (-1)
      else
        wakeup .nread
        sleep j .nwrite
        return .write addr n i
    else
      Prog.modify fun s ↦ s.store (addr i)
      writeLoop j addr n rest (i + 1)

/-- What `pipewrite` by `j` does with the lock, from the byte `i` on. -/
def pipewrite (j : ι) (addr : ℕ → Byte) (n : ℤ) (i : ℕ) : PipeM ι PipePc :=
  writeLoop j addr n (n - i).toNat i

/-- The loop of `piperead` that copies, with `n - i` bytes still wanted. It returns how many there were. -/
def readLoop : ℕ → PipeM ι ℕ
  | 0 => return 0
  | rest + 1 => do
    let s ← Prog.get
    if s.IsEmpty then
      return 0
    else
      Prog.modify deliver
      return (← readLoop rest) + 1

/-- What `piperead` by `j` does with the lock. -/
def piperead (j : ι) (n : ℤ) : PipeM ι PipePc := do
  let s ← Prog.get
  if s.IsEmpty ∧ s.writeopen = true then
    if s.killed j = true then
      return .user (-1)
    else
      sleep j .nread
      return .read n
  else
    let i ← readLoop n.toNat
    wakeup .nwrite
    return .user i

/-- Close one end. -/
def pipeclose (writable : Bool) : PipeM ι Unit := do
  if writable then
    Prog.modify fun s ↦ { s with writeopen := false }
    wakeup .nread
  else
    Prog.modify fun s ↦ { s with readopen := false }
    wakeup .nwrite
  Prog.modify fun s ↦ { s with freed := !s.readopen && !s.writeopen }

/-- What `kill` does to the process `j`. -/
def kill (j : ι) : PipeM ι Unit :=
  Prog.modify fun s ↦
    { s with killed := update s.killed j true, chan := update s.chan j none }

/-- What a process is about to do with the lock. -/
def next (j : ι) : PipePc → Option (PipeM ι PipePc)
  | .user _ => none
  | .write addr n i => some (pipewrite j addr n i)
  | .read n => some (piperead j n)

end Calls

end PipeSys

/-- A step of the machine. -/
inductive PipeStep (ι : Type) where
  /-- `j` calls `pipewrite`. -/
  | write (j : ι) (addr : ℕ → Byte) (n : ℤ)
  /-- `j` calls `piperead`. -/
  | read (j : ι) (n : ℤ)
  /-- `j` takes the lock and goes on until it gives it up. -/
  | run (j : ι)
  /-- Somebody calls `pipeclose`. -/
  | close (writable : Bool)
  /-- Somebody kills `j`. -/
  | kill (j : ι)

namespace PipeSys

variable {ι : Type} [DecidableEq ι]

/-- The process `j` comes to `p`. -/
@[simps]
def setPc (s : PipeSys ι) (j : ι) (p : PipePc) : PipeSys ι := { s with pc := update s.pc j p }

/-- `j` calls `pipewrite` or `piperead`. -/
def enter (s : PipeSys ι) (j : ι) (p : PipePc) : Option (Except Empty (PipeSys ι)) :=
  match s.pc j with
  | .user _ => some (.ok (s.setPc j p))
  | _ => none

/-- `j` runs while it holds the lock. -/
def advance (s : PipeSys ι) (j : ι) (m : PipeM ι PipePc) : Except Empty (PipeSys ι) :=
  match m.run s with
  | .ok (p, t) => .ok (t.setPc j p)
  | .error e => .error e

/-- A step on a pipe that has not been freed. A process that sleeps does not run. -/
def move (s : PipeSys ι) : PipeStep ι → Option (Except Empty (PipeSys ι))
  | .write j addr n => s.enter j (.write addr n 0)
  | .read j n => s.enter j (.read n)
  | .run j => if s.chan j = none then (next j (s.pc j)).map (s.advance j) else none
  | .close writable => some ((pipeclose writable).exec s)
  | .kill j => some ((kill j).exec s)

/-- One step. -/
def step (s : PipeSys ι) (l : PipeStep ι) : Option (Except Empty (PipeSys ι)) :=
  if s.freed then none else s.move l

end PipeSys

end Xv6
