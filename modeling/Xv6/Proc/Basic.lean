import Mathlib.Algebra.GroupWithZero.Nat
import Mathlib.Data.List.FinRange
import Mathlib.Tactic.Simps.Basic
import Xv6.Vm.Basic

/-!
# The process table

`proc.c`: processes and threads. A thread is a slot of the process table like a process; it shares
the page directory of the process that made it, and `t_flag`, `main_thread`, `ptid`, `start` and `end`
tie it to its group.

The system calls are cut where the code takes and releases `ptable.lock`. Each piece between two
cuts is a program of its own (`allocSlot`, `forkCopy`, `createFill`, `exitFinal`, …), and the calls of
the source are these pieces in a row (`fork`, `threadCreate`, `wait`, …).

Open files, current directories, names, trap frames and the fields of the stride and feedback
schedulers, which the scheduler of the source no longer reads, are left out. Process identifiers and
thread identifiers are integers without a bound.
-/

namespace Xv6

open Vm

/-- Maximum number of processes. -/
def NPROC : ℕ := 64

instance : NeZero NPROC := ⟨by decide⟩

/-- A pointer to an entry of `ptable.proc`. -/
abbrev Slot : Type := Fin NPROC

/-- `enum procstate`. -/
inductive ProcState where
  | UNUSED
  | EMBRYO
  | SLEEPING
  | RUNNABLE
  | RUNNING
  | ZOMBIE
  deriving DecidableEq, Repr

/-- What a process sleeps on. -/
inductive Chan where
  /-- The address of an entry of `ptable.proc`: in `wait` and `thread_join`. -/
  | proc (p : Slot)
  /-- Another address. -/
  | addr (a : ℕ)
  deriving DecidableEq

/-- What a system call has returned. -/
inductive Ret where
  /-- The value in `%eax`. -/
  | code (n : ℤ)
  /-- `thread_join` has returned 0 and stored a value through its second argument. -/
  | join (retval : ℕ)
  deriving DecidableEq

/-- `struct proc`. -/
structure Proc where
  /-- Size of process memory (bytes). -/
  sz : ℕ
  /-- Page table. -/
  pgdir : Option ℕ
  /-- Bottom of kernel stack for this process. -/
  kstack : Option ℕ
  /-- Process state. -/
  state : ProcState
  /-- Process ID. -/
  pid : ℤ
  /-- Parent process. -/
  parent : Option Slot
  /-- If non-zero, sleeping on `chan`. -/
  chan : Option Chan
  /-- If non-zero, have been killed. -/
  killed : Bool
  /-- The creator of a thread. -/
  mainThread : Option Slot
  /-- If thread 1, if process 0. -/
  tFlag : Bool
  /-- Thread id. -/
  tid : ℤ
  /-- Return value. -/
  retval : ℕ
  /-- The pid of the process that a thread belongs to. -/
  ptid : ℤ
  /-- Thread stack memory start: its upper end. -/
  start : ℕ
  /-- Thread stack memory end: its lower end, or that of freed stacks below it. -/
  stop : ℕ

/-- An entry of `ptable.proc` as the loader leaves it. -/
def Proc.zero : Proc where
  sz := 0
  pgdir := none
  kstack := none
  state := .UNUSED
  pid := 0
  parent := none
  chan := none
  killed := false
  mainThread := none
  tFlag := false
  tid := 0
  retval := 0
  ptid := 0
  start := 0
  stop := 0

namespace Proc

/-! ### Assignments to a slot -/

/-- `p->state = st`. -/
@[simps]
def setState (q : Proc) (st : ProcState) : Proc := { q with state := st }

/-- `p->sz = sz`. -/
@[simps]
def setSz (q : Proc) (sz : ℕ) : Proc := { q with sz := sz }

/-- `p->pgdir = d`. -/
@[simps]
def setPgdir (q : Proc) (d : Option ℕ) : Proc := { q with pgdir := d }

/-- `p->kstack = v`. -/
@[simps]
def setKstack (q : Proc) (v : Option ℕ) : Proc := { q with kstack := v }

/-- `p->parent = k`. -/
@[simps]
def setParent (q : Proc) (k : Option Slot) : Proc := { q with parent := k }

/-- `p->chan = chan`. -/
@[simps]
def setChan (q : Proc) (chan : Option Chan) : Proc := { q with chan := chan }

/-- `p->killed = 1`. -/
@[simps]
def setKilled (q : Proc) : Proc := { q with killed := true }

/-- `p->main_thread = k`. -/
@[simps]
def setMainThread (q : Proc) (k : Option Slot) : Proc := { q with mainThread := k }

/-- `p->retval = v`. -/
@[simps]
def setRetval (q : Proc) (v : ℕ) : Proc := { q with retval := v }

/-- `p->end = a`. -/
@[simps]
def setStop (q : Proc) (a : ℕ) : Proc := { q with stop := a }

/-- `p->start = a; p->end = b;` -/
@[simps]
def setStack (q : Proc) (a b : ℕ) : Proc := { q with start := a, stop := b }

/-- The fields that `allocproc` sets under the lock. It does not set `main_thread`, `tid`, `start` and
`end`. -/
@[simps]
def embryo (q : Proc) (pid : ℤ) : Proc :=
  { q with state := .EMBRYO, pid := pid, tFlag := false, ptid := pid }

/-- The fields that `thread_create` sets to tie a thread to its group. -/
@[simps]
def setThread (q : Proc) (ptid : ℤ) (main : Slot) (tid : ℤ) (pgdir : Option ℕ) : Proc :=
  { q with ptid := ptid, tFlag := true, mainThread := some main, tid := tid, pgdir := pgdir }

/-- The fields that `wait` resets in a thread of the child it reaps, before `sz`. -/
@[simps]
def freeThread (q : Proc) : Proc :=
  { q with
    kstack := none, pid := 0, parent := none, killed := false, state := .UNUSED, tFlag := false,
    tid := 0 }

/-- The fields that `wait` resets in the child it reaps, after `kstack`. -/
@[simps]
def freeChild (q : Proc) : Proc :=
  { q with pid := 0, parent := none, killed := false, state := .UNUSED }

/-- The fields that `thread_join` resets in the thread it reaps, after `kstack` and before `start` and
`end`. -/
@[simps]
def joined (q : Proc) : Proc :=
  { q with
    pid := 0, parent := none, killed := false, state := .UNUSED, tFlag := false, tid := 0, sz := 0 }

end Proc

/-- The process table and what goes with it. -/
structure Ptable where
  /-- `ptable.proc`. -/
  proc : Slot → Proc
  /-- The next process ID. -/
  nextpid : ℤ
  /-- The next thread ID. -/
  nexttid : ℤ
  /-- The first process. -/
  initproc : Slot
  /-- Physical memory. -/
  mem : Mem

/-- Code of `proc.c`. -/
abbrev Kern (α : Type) : Type := Prog Ptable Fault α

/-- The outcome of a scan of the table in `wait` or `thread_join`. -/
inductive Scan (α : Type) where
  /-- One was found, and the call returns. -/
  | found (a : α)
  /-- There is none, and the call returns -1. -/
  | none
  /-- The caller goes to sleep. -/
  | sleep
  deriving DecidableEq

namespace Ptable

/-- `for(p = ptable.proc; p < &ptable.proc[NPROC]; p++)`. -/
def slots : List Slot := List.finRange NPROC

/-- Rewrite one slot. -/
@[simps -fullyApplied]
def setProc (s : Ptable) (k : Slot) (p : Proc) : Ptable :=
  { s with proc := Function.update s.proc k p }

/-- Rewrite physical memory. -/
@[simps -fullyApplied]
def setMem (s : Ptable) (m : Mem) : Ptable := { s with mem := m }

/-- Rewrite every slot that satisfies a condition: a loop over the table whose body only uses the
slot it has come to. -/
@[simps]
def mapProcs (s : Ptable) (c : Slot → Proc → Bool) (f : Proc → Proc) : Ptable :=
  { s with proc := fun k ↦ if c k (s.proc k) then f (s.proc k) else s.proc k }

/-- Rewrite one slot. -/
def update (k : Slot) (f : Proc → Proc) : Kern Unit :=
  Prog.modify fun s ↦ s.setProc k (f (s.proc k))

/-- Rewrite every slot that satisfies a condition. -/
def updateAll (c : Slot → Proc → Bool) (f : Proc → Proc) : Kern Unit :=
  Prog.modify fun s ↦ s.mapProcs c f

/-- Code on page directories. -/
def vm {α : Type} (m : VM α) : Kern α :=
  m.zoom mem setMem

/-- The page directory of a slot, which the code takes to be there. -/
def pgdirOf (p : Slot) : Kern ℕ := do
  match ((← Prog.get).proc p).pgdir with
  | some d => return d
  | none => Prog.fail .dangling

/-- `kfree(p->kstack); p->kstack = 0;` -/
def freeStack (p : Slot) : Kern Unit := do
  match ((← Prog.get).proc p).kstack with
  | some v =>
    vm (kfree v)
    update p fun q ↦ q.setKstack none
  | none => Prog.fail (.panic .kfree)

/-- The scan of the table that `wait` and `thread_join` share, for the caller `c`: the slots still to
come, and `havekids`. The first slot that is `mine` and has exited is reaped. -/
def scanLoop {α : Type} (c : Slot) (mine : Proc → Bool) (reap : Slot → Kern α) :
    List Slot → Bool → Kern (Scan α)
  | [], havekids => do
    -- No point waiting if there is nobody to wait for.
    if !havekids || ((← Prog.get).proc c).killed then
      return .none
    else
      return .sleep
  | p :: ps, havekids => do
    let q := (← Prog.get).proc p
    if mine q then
      if q.state = .ZOMBIE then
        return .found (← reap p)
      else
        scanLoop c mine reap ps true
    else
      scanLoop c mine reap ps havekids

/-! ### `allocproc` -/

/-- The part of `allocproc` under `ptable.lock`: look in the process table for an `UNUSED` slot. -/
def allocSlot : Kern (Option Slot) := do
  let s ← Prog.get
  match slots.find? fun p ↦ (s.proc p).state = .UNUSED with
  | none => return none
  | some p =>
    update p fun q ↦ q.embryo s.nextpid
    Prog.modify fun s ↦ { s with nextpid := s.nextpid + 1 }
    return some p

/-- The rest of `allocproc`: allocate kernel stack. -/
def allocStack (p : Slot) : Kern Bool := do
  match ← vm kalloc with
  | none =>
    update p fun q ↦ (q.setKstack none).setState .UNUSED
    return false
  | some v =>
    update p fun q ↦ q.setKstack (some v)
    return true

/-- Look in the process table for an `UNUSED` slot, and initialize state required to run in the
kernel. -/
def allocproc : Kern (Option Slot) := do
  match ← allocSlot with
  | none => return none
  | some p =>
    if ← allocStack p then
      return some p
    else
      return none

/-! ### `userinit` -/

/-- Set up first user process. -/
def userinit : Kern Unit := do
  match ← allocproc with
  | none => Prog.fail .dangling
  | some p =>
    Prog.modify fun s ↦ { s with initproc := p }
    match ← vm setupkvm with
    | none => Prog.fail (.panic .userinit)
    | some d =>
      -- `inituvm`
      match ← vm kalloc with
      | none => Prog.fail .dangling
      | some page =>
        let _ ← vm (mappages d 0 page true true)
        update p fun q ↦ ((q.setPgdir (some d)).setSz PGSIZE).setState .RUNNABLE

/-- The table before `userinit`, with some pages to allocate. -/
def zero (freelist : List ℕ) : Ptable where
  proc := fun _ ↦ Proc.zero
  nextpid := 1
  nexttid := 0
  initproc := 0
  -- `kinit1` and `kinit2` have freed the pages from `end` on.
  mem := ⟨freelist, 0, fun _ ↦ none, fun _ _ ↦ 1, freelist.min?.getD 1 - 1⟩

/-! ### `growproc` -/

/-- `switchuvm`: it only checks. -/
def switchuvm (p : Slot) : Kern Unit := do
  let q := (← Prog.get).proc p
  if q.kstack = none then
    Prog.fail (.panic .switchuvmNoKstack)
  else if q.pgdir = none then
    Prog.fail (.panic .switchuvmNoPgdir)
  else
    return ()

/-- Grow current process's memory by `n` bytes. It returns 0 on success, -1 on failure. -/
def growproc (c : Slot) (n : ℤ) : Kern ℤ := do
  let sz := ((← Prog.get).proc c).sz
  if 0 < n then
    let sz' ← vm (allocuvm (← pgdirOf c) sz (uint (sz + n)))
    if sz' = 0 then
      return -1
    else
      update c fun q ↦ q.setSz sz'
      switchuvm c
      return 0
  else if n < 0 then
    let sz' ← vm (deallocuvm (← pgdirOf c) sz (uint (sz + n)))
    if sz' = 0 then
      return -1
    else
      update c fun q ↦ q.setSz sz'
      switchuvm c
      return 0
  else
    switchuvm c
    return 0

/-! ### `fork` -/

/-- Copy the address space of `c` for `np`, or give `np` back. -/
def forkCopy (c np : Slot) : Kern Bool := do
  let sz := ((← Prog.get).proc c).sz
  match ← vm (copyuvm (← pgdirOf c) sz) with
  | none =>
    update np fun q ↦ q.setPgdir none
    freeStack np
    update np fun q ↦ q.setState .UNUSED
    return false
  | some d =>
    update np fun q ↦ q.setPgdir (some d)
    return true

/-- The fields that `fork` fills in. -/
def forkFill (c np : Slot) : Kern Unit := do
  let s ← Prog.get
  update np fun q ↦ (q.setSz (s.proc c).sz).setParent (some c)

/-- `np->state = RUNNABLE`. -/
def publish (np : Slot) : Kern Unit :=
  update np fun q ↦ q.setState .RUNNABLE

/-- Create a new process copying `c` as the parent. -/
def fork (c : Slot) : Kern ℤ := do
  match ← allocproc with
  | none => return -1
  | some np =>
    if ← forkCopy c np then
      forkFill c np
      let pid := ((← Prog.get).proc np).pid
      publish np
      return pid
    else
      return -1

/-! ### `sleep`, `wakeup` and `kill` -/

/-- Wake up all processes sleeping on `chan`. -/
def wakeup1 (chan : Option Chan) : Kern Unit :=
  updateAll (fun _ p ↦ p.state = .SLEEPING && p.chan = chan) fun p ↦ p.setState .RUNNABLE

/-- `wakeup1(initproc)`, which the loops over abandoned children and threads call for each one that has
exited. -/
def wakeInit (orphans : Bool) : Kern Unit := do
  if orphans then
    wakeup1 (some (.proc (← Prog.get).initproc))
  else
    return ()

/-- Kill the process with the given pid. -/
def kill (pid : ℤ) : Kern ℤ := do
  let s ← Prog.get
  match slots.find? fun p ↦ (s.proc p).pid = pid with
  | some p =>
    update p fun q ↦
      q.setKilled.setState (if q.state = .SLEEPING then .RUNNABLE else q.state)
    return 0
  | none => return -1

/-! ### `exit` and `wait` -/

/-- The part of `exit` under `ptable.lock`, up to `sched`. -/
def exitFinal (c : Slot) : Kern Unit := do
  let s ← Prog.get
  -- Parent might be sleeping in wait().
  wakeup1 ((s.proc c).parent.map .proc)
  -- Pass abandoned children to init.
  let orphans := slots.any fun p ↦ (s.proc p).parent = some c && (s.proc p).state = .ZOMBIE
  updateAll (fun _ p ↦ p.parent = some c) fun p ↦ p.setParent (some s.initproc)
  wakeInit orphans
  -- process call for thread
  updateAll (fun _ p ↦ p.ptid = (s.proc c).pid && p.state ≠ .UNUSED) fun p ↦
    p.setState .ZOMBIE
  -- thread call for exit
  updateAll (fun j p ↦ (s.proc c).tFlag &&
      ((s.proc c).ptid = p.ptid || (s.proc c).mainThread = some j)) fun p ↦ p.setKilled
  update c fun q ↦ q.setState .ZOMBIE

/-- Exit the current process. -/
def exit (c : Slot) : Kern Unit := do
  if c = (← Prog.get).initproc then
    Prog.fail (.panic .initExiting)
  else
    exitFinal c

/-- The body of the first inner loop of `wait`: free the slot `k` of a thread of `p`. -/
def freeThread (p k : Slot) : Kern Unit := do
  if ((← Prog.get).proc k).mainThread = some p then
    update k Proc.freeThread
    let start := ((← Prog.get).proc p).start
    let sz ← vm (deallocuvm (← pgdirOf p) start (uint (start - 2 * PGSIZE)))
    update k fun q ↦ q.setSz sz

/-- What `wait` does with a child that has exited. It returns its pid. -/
def reapChild (p : Slot) : Kern ℤ := do
  Prog.forEach slots fun k ↦ freeThread p k
  let pid := ((← Prog.get).proc p).pid
  freeStack p
  vm (freevm ((← Prog.get).proc p).pgdir)
  update p Proc.freeChild
  return pid

/-- One scan of `wait`. -/
def wait (c : Slot) : Kern (Scan ℤ) :=
  scanLoop c (fun q ↦ q.parent = some c) reapChild slots false

/-! ### Threads -/

/-- The stack of a new thread, for which `sz` has been read before. It returns the new size, or 0. -/
def createSpace (c : Slot) (sz : ℕ) : Kern ℕ := do
  let sz' ← vm (allocuvm (← pgdirOf c) sz (sz + 2 * PGSIZE))
  if sz' = 0 then
    return 0
  else
    -- `p->sz` is still the old size.
    vm (clearpteu (← pgdirOf c) (uint (((← Prog.get).proc c).sz - 2 * PGSIZE)))
    return sz'

/-- `if(update->ptid == p->ptid) update->sz = sz;` for all slots. -/
def setSizes (c : Slot) (sz : ℕ) : Kern Unit := do
  let ptid := ((← Prog.get).proc c).ptid
  updateAll (fun _ p ↦ p.ptid = ptid) fun p ↦ p.setSz sz

/-- Fill in the slot of a new thread. It returns its id. -/
def createFill (c np : Slot) (sz : ℕ) : Kern ℤ := do
  let s ← Prog.get
  let p := s.proc c
  let sp := p.sz
  update np fun q ↦ q.setStack sp (uint (sp - 2 * PGSIZE))
  -- push pc and argument
  if ← vm (copyout (← pgdirOf c) (uint (sp - 8)) 8) then
    -- process or thread?
    let ptid := if p.tFlag then p.ptid else p.pid
    update np fun q ↦ q.setThread ptid c s.nexttid p.pgdir
    Prog.modify fun s ↦ { s with nexttid := s.nexttid + 1 }
    setSizes c sz
    return s.nexttid
  else
    -- `return -1` without `release(&ptable.lock)`.
    Prog.fail .lockHeld

/-- `thread_create`: the id of the new thread, or none where the code returns -1. The slot that has
been allocated is then not given back. -/
def threadCreate (c : Slot) : Kern (Option ℤ) := do
  let sz := ((← Prog.get).proc c).sz
  match ← allocproc with
  | none => return none
  | some np =>
    let sz' ← createSpace c sz
    if sz' = 0 then
      return none
    else
      setSizes c sz'
      let tid ← createFill c np sz'
      publish np
      return some tid

/-- The part of `thread_exit` under `ptable.lock`, up to `sched`. -/
def threadExit (c : Slot) (retval : ℕ) : Kern Unit := do
  let s ← Prog.get
  -- wake up main_thread, not parent!
  wakeup1 ((s.proc c).mainThread.map .proc)
  let orphans := slots.any fun p ↦ (s.proc p).mainThread = some c && (s.proc p).state = .ZOMBIE
  updateAll (fun _ p ↦ p.mainThread = some c) fun p ↦ p.setMainThread (some s.initproc)
  wakeInit orphans
  update c fun q ↦ (q.setRetval retval).setState .ZOMBIE

/-- The first slot whose `end` is the given address takes over another one. -/
def mergeStacks (start stop : ℕ) : Kern Unit := do
  let s ← Prog.get
  match slots.find? fun k ↦ (s.proc k).stop = start with
  | some k => update k fun q ↦ q.setStop stop
  | none => return ()

/-- If this thread is located at edge of memory, lower the size of the group. `p->main_thread` is the
caller `c`. -/
def lowerSizes (c p : Slot) : Kern Unit := do
  let s ← Prog.get
  if (s.proc p).start = (s.proc c).sz then
    updateAll (fun _ k ↦ k.state ≠ .UNUSED && k.ptid = (s.proc c).ptid) fun k ↦
      k.setSz (s.proc p).stop
  else
    return ()

/-- What `thread_join` does with a thread `p` of the caller `c` that has exited. It returns what the
thread has left in `retval`. -/
def reapThread (c p : Slot) : Kern ℕ := do
  freeStack p
  update p Proc.joined
  let q := (← Prog.get).proc p
  mergeStacks q.start q.stop
  lowerSizes c p
  let _ ← vm (deallocuvm (← pgdirOf p) q.start (uint (q.start - 2 * PGSIZE)))
  update p fun q ↦ q.setStack 0 0
  return q.retval

/-- One scan of `thread_join`. -/
def threadJoin (c : Slot) (thread : ℤ) : Kern (Scan ℕ) :=
  scanLoop c (fun q ↦ q.mainThread = some c && q.tid = thread) (reapThread c) slots false

end Ptable

end Xv6
