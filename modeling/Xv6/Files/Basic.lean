import Xv6.Fs.State
import Xv6.Proc.Effect

/-!
# Open files

`file.c`, `pipe.c` and the system calls of `sysfile.c` on descriptors, next to the process table. Each slot of
the table, a process or a thread, has descriptors of its own, which are entries of `ftable`; `fork` and
`thread_create` duplicate those of the caller, and `exit` and `thread_exit` close those of the caller.

Whether `open` finds its inode is an argument of it. What `fileclose` does with the inode is not modelled,
and neither is `wakeup` in `pipeclose`: between system calls nobody waits for a pipe. A pipe is named
by the number of the `pipealloc` call that made it.
-/

namespace Xv6

open Vm Function

instance : NeZero NFILE := ⟨by decide⟩

instance : NeZero NOFILE := ⟨by decide⟩

/-- A pointer to an entry of `ftable.file`. -/
abbrev FileId : Type := Fin NFILE

/-- A file descriptor. -/
abbrev Fd : Type := Fin NOFILE

/-- `struct pipe`, without its data. -/
structure Pipe where
  /-- The page it lies in. -/
  page : ℕ
  /-- Read fd is still open. -/
  readopen : Bool
  /-- Write fd is still open. -/
  writeopen : Bool
  deriving DecidableEq

/-- Whether an end of a pipe is open. -/
def Pipe.isOpen (q : Pipe) (writable : Bool) : Bool := if writable then q.writeopen else q.readopen

/-- Close an end of a pipe. -/
def Pipe.close (q : Pipe) (writable : Bool) : Pipe :=
  if writable then ⟨q.page, q.readopen, false⟩ else ⟨q.page, false, q.writeopen⟩

/-- The process table and the open files. -/
structure Files where
  /-- The process table. -/
  table : Ptable
  /-- `ftable.file`. -/
  ftable : FileId → File
  /-- `p->ofile[fd]`. -/
  ofile : Slot × Fd → Option FileId
  /-- The pipes that have not been freed. -/
  pipe : ℕ → Option Pipe
  /-- How many pipes have been made. -/
  npipes : ℕ

/-- Why code on files does not return. -/
inductive FileFault where
  /-- A call on processes and threads stops. -/
  | call (e : Fault)
  /-- `panic("filedup")`. -/
  | filedup
  /-- `panic("fileclose")`. -/
  | fileclose
  /-- It goes on with a pipe that has been freed. -/
  | dangling
  deriving DecidableEq

/-- Code on files. -/
abbrev Desc (α : Type) : Type := Prog Files FileFault α

/-- An entry of `ftable.file` as the loader leaves it. -/
def File.zero : File := ⟨.none, 0, false, false, 0, 0, 0⟩

/-- `f->ref = n`. -/
@[simps]
def File.setRef (f : File) (n : ℤ) : File := { f with ref := n }

/-- `f->type = t`. -/
@[simps]
def File.setType (f : File) (t : FileType) : File := { f with type := t }

/-- The fields that `pipealloc` sets. -/
@[simps]
def File.setPipe (f : File) (writable : Bool) (p : ℕ) : File :=
  { f with type := .pipe, readable := !writable, writable := writable, pipe := p }

/-- The fields that `open` sets. -/
@[simps]
def File.setInode (f : File) (ip : ℕ) (readable writable : Bool) : File :=
  { f with type := .inode, ip := ip, off := 0, readable := readable, writable := writable }

namespace Files

/-- Rewrite the process table. -/
@[simps]
def setTable (σ : Files) (t : Ptable) : Files := { σ with table := t }

/-- Rewrite an entry of `ftable.file`. -/
@[simps -fullyApplied]
def setFile (σ : Files) (f : FileId) (x : File) : Files :=
  { σ with ftable := update σ.ftable f x }

/-- `p->ofile[fd] = f`. -/
@[simps -fullyApplied]
def setOfile (σ : Files) (i : Slot × Fd) (f : Option FileId) : Files :=
  { σ with ofile := update σ.ofile i f }

/-- Rewrite a pipe. -/
@[simps -fullyApplied]
def setPipe (σ : Files) (p : ℕ) (q : Option Pipe) : Files :=
  { σ with pipe := update σ.pipe p q }

/-- A pipe has been made. -/
@[simps -fullyApplied]
def addPipe (σ : Files) (q : Pipe) : Files :=
  { σ with pipe := update σ.pipe σ.npipes (some q), npipes := σ.npipes + 1 }

/-- Code on pages. -/
def vm {α : Type} (m : VM α) : Desc α := ⟨fun σ ↦
  match m.run σ.table.mem with
  | .ok (a, m') => .ok (a, σ.setTable (σ.table.setMem m'))
  | .error e => .error (.call e)⟩

/-! ### `file.c` and `pipe.c` -/

/-- Allocate a file structure. -/
def filealloc : Desc (Option FileId) := do
  let σ ← Prog.get
  match (List.finRange NFILE).find? fun f ↦ (σ.ftable f).ref = 0 with
  | none => return none
  | some f =>
    Prog.modify fun σ ↦ σ.setFile f ((σ.ftable f).setRef 1)
    return some f

/-- Increment ref count for file `f`. -/
def filedup (f : FileId) : Desc Unit := do
  let x := (← Prog.get).ftable f
  if x.ref < 1 then
    Prog.fail .filedup
  else
    Prog.modify fun σ ↦ σ.setFile f (x.setRef (x.ref + 1))

/-- Close one end of a pipe, and free it when both are closed. -/
def pipeclose (p : ℕ) (writable : Bool) : Desc Unit := do
  match (← Prog.get).pipe p with
  | none => Prog.fail .dangling
  | some q =>
    if (q.close writable).readopen = false ∧ (q.close writable).writeopen = false then
      Prog.modify fun σ ↦ σ.setPipe p none
      vm (kfree q.page)
    else
      Prog.modify fun σ ↦ σ.setPipe p (some (q.close writable))

/-- Close file `f`. -/
def fileclose (f : FileId) : Desc Unit := do
  let ff := (← Prog.get).ftable f
  if ff.ref < 1 then
    Prog.fail .fileclose
  else if 0 < ff.ref - 1 then
    Prog.modify fun σ ↦ σ.setFile f (ff.setRef (ff.ref - 1))
  else
    Prog.modify fun σ ↦ σ.setFile f ((ff.setRef 0).setType .none)
    if ff.type = .pipe then
      pipeclose ff.pipe ff.writable
    else
      return ()

/-- The end of `pipealloc`, once both files and the page are there. -/
def makePipe (f0 f1 : FileId) (page : ℕ) : Desc Unit := do
  let p := (← Prog.get).npipes
  Prog.modify fun σ ↦ σ.addPipe ⟨page, true, true⟩
  Prog.modify fun σ ↦ σ.setFile f0 ((σ.ftable f0).setPipe false p)
  Prog.modify fun σ ↦ σ.setFile f1 ((σ.ftable f1).setPipe true p)

/-- Allocate a pipe and the files for its two ends. -/
def pipealloc : Desc (Option (FileId × FileId)) := do
  match ← filealloc with
  | none => return none
  | some f0 =>
    match ← filealloc with
    | none =>
      fileclose f0
      return none
    | some f1 =>
      match ← vm kalloc with
      | none =>
        fileclose f0
        fileclose f1
        return none
      | some page =>
        makePipe f0 f1 page
        return some (f0, f1)

/-! ### `sysfile.c` -/

/-- Allocate a file descriptor for the given file. -/
def fdalloc (c : Slot) (f : FileId) : Desc (Option Fd) := do
  let σ ← Prog.get
  match (List.finRange NOFILE).find? fun fd ↦ σ.ofile (c, fd) = none with
  | none => return none
  | some fd =>
    Prog.modify fun σ ↦ σ.setOfile (c, fd) (some f)
    return some fd

/-- `sys_dup`, for a descriptor below `NOFILE`. -/
def sysDup (c : Slot) (fd : Fd) : Desc ℤ := do
  match (← Prog.get).ofile (c, fd) with
  | none => return -1
  | some f =>
    match ← fdalloc c f with
    | none => return -1
    | some fd' =>
      filedup f
      return fd'.val

/-- `sys_close`, for a descriptor below `NOFILE`. -/
def sysClose (c : Slot) (fd : Fd) : Desc ℤ := do
  match (← Prog.get).ofile (c, fd) with
  | none => return -1
  | some f =>
    Prog.modify fun σ ↦ σ.setOfile (c, fd) none
    fileclose f
    return 0

/-- `sys_open`, with the inode that is found or created, if there is one that may be opened. -/
def sysOpen (c : Slot) (ip : Option ℕ) (readable writable : Bool) : Desc ℤ := do
  match ip with
  | none => return -1
  | some ip =>
    match ← filealloc with
    | none => return -1
    | some f =>
      match ← fdalloc c f with
      | none =>
        fileclose f
        return -1
      | some fd =>
        Prog.modify fun σ ↦ σ.setFile f ((σ.ftable f).setInode ip readable writable)
        return fd.val

/-- `sys_pipe`, once its argument has been checked. -/
def sysPipe (c : Slot) : Desc ℤ := do
  match ← pipealloc with
  | none => return -1
  | some (rf, wf) =>
    match ← fdalloc c rf with
    | none =>
      fileclose rf
      fileclose wf
      return -1
    | some fd0 =>
      match ← fdalloc c wf with
      | none =>
        Prog.modify fun σ ↦ σ.setOfile (c, fd0) none
        fileclose rf
        fileclose wf
        return -1
      | some _ => return 0

/-! ### `proc.c` -/

/-- Close all open files, in `exit` and `thread_exit`. -/
def closeFiles (c : Slot) : Desc Unit :=
  Prog.forEach (List.finRange NOFILE) fun fd ↦ do
    match (← Prog.get).ofile (c, fd) with
    | none => return ()
    | some f =>
      fileclose f
      Prog.modify fun σ ↦ σ.setOfile (c, fd) none

/-- Duplicate the open files of `c` for `np`, in `fork` and `thread_create`. -/
def dupFiles (c np : Slot) : Desc Unit :=
  Prog.forEach (List.finRange NOFILE) fun fd ↦ do
    match (← Prog.get).ofile (c, fd) with
    | none => return ()
    | some f =>
      filedup f
      Prog.modify fun σ ↦ σ.setOfile (np, fd) (some f)

/-- A call on the process table. -/
def onTable (c : Slot) (a : Call) : Desc (Option Ret) := ⟨fun σ ↦
  match (Ptable.call c a).run σ.table with
  | .ok (r, t) => .ok (r, σ.setTable t)
  | .error e => .error (.call e)⟩

/-- What a call does to files before it takes `ptable.lock`. -/
def closeBefore (c : Slot) : Call → Desc Unit
  | .exit | .threadExit _ => closeFiles c
  | _ => return ()

/-- What a call that may have made a process or thread of the slot `free` does to files. -/
def dupAfter (c : Slot) (a : Call) (free : Option Slot) : Desc Unit := do
  match free with
  | none => return ()
  | some np =>
    if a.allocates = true ∧ ((← Prog.get).table.proc np).state = .RUNNABLE then
      dupFiles c np
    else
      return ()

/-- A call on processes and threads, with what it does to files. -/
def procCall (c : Slot) (a : Call) : Desc (Option Ret) := do
  closeBefore c a
  let free := (← Prog.get).table.freeSlot
  let r ← onTable c a
  dupAfter c a free
  return r

/-! ### Steps -/

/-- A system call on files, processes and threads. -/
inductive FileOp where
  | openFile (ip : Option ℕ) (readable writable : Bool)
  | pipe
  | dup (fd : Fd)
  | close (fd : Fd)
  | call (a : Call)
  deriving DecidableEq

/-- Run a system call for `c`. A call that sleeps returns nothing. -/
def run (c : Slot) : FileOp → Desc (Option Ret)
  | .openFile ip readable writable => return some (.code (← sysOpen c ip readable writable))
  | .pipe => return some (.code (← sysPipe c))
  | .dup fd => return some (.code (← sysDup c fd))
  | .close fd => return some (.code (← sysClose c fd))
  | .call a => procCall c a

/-- A system call by a process that can make it. -/
def step (σ : Files) (l : Slot × FileOp) : Option (Except FileFault Files) :=
  if σ.table.MayCall l.1 then
    match (run l.1 l.2).run σ with
    | .ok (some _, σ') => some (.ok σ')
    | .ok (none, _) => none
    | .error e => some (.error e)
  else
    none

/-- No file is open. -/
def start (s : Ptable) : Files := ⟨s, fun _ ↦ File.zero, fun _ ↦ none, fun _ ↦ none, 0⟩

end Files

end Xv6
