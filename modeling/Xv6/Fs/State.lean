import Xv6.Lib.Prog
import Xv6.Log.Basic

/-!
# The state of the file system

The state that `fs.c`, `file.c` and `log.c` work on, and the primitives they share: `bread`,
`log_write`, `begin_op` and `end_op`.

A block is what the buffer cache shows of it. The number of buffers is not bounded here, and a
commit, which moves blocks to the disk without changing what the cache shows, is one step at the end
of the operation that causes it. There is one device, so device numbers are left out.

A kernel program either returns, panics, or goes to sleep (`Stop`): nobody else runs until it
returns, so a program that sleeps has no next state. Where several processes run, each program of
this module is one step of one of them.
-/

namespace Xv6

open Function

/-- In-memory copy of an inode. The fields that are a copy of the disk inode are inherited. -/
structure Inode extends Dinode where
  /-- Inode number. -/
  inum : ℕ
  /-- Reference count. -/
  ref : ℤ
  /-- The sleep lock is held. -/
  locked : Bool
  /-- Inode has been read from disk? -/
  valid : Bool

/-- The type of an open file. -/
inductive FileType where
  /-- `FD_NONE`. -/
  | none
  /-- `FD_PIPE`. -/
  | pipe
  /-- `FD_INODE`. -/
  | inode
  deriving DecidableEq

/-- `struct file`. -/
structure File where
  /-- What is open. -/
  type : FileType
  /-- Reference count. -/
  ref : ℤ
  /-- It may be read. -/
  readable : Bool
  /-- It may be written. -/
  writable : Bool
  /-- The pipe, of a pipe. -/
  pipe : ℕ
  /-- The entry of the inode cache, of a file. -/
  ip : ℕ
  /-- The current offset. -/
  off : Word

/-- The state of the file system. -/
structure FsState where
  /-- The blocks of the disk, as the buffer cache shows them. -/
  blocks : ℕ → Block
  /-- The in-memory log. -/
  log : Log
  /-- The blocks passed to `log_write` so far. The code does not keep this. -/
  trace : List ℕ
  /-- The inode cache: `icache.inode[]`. -/
  icache : ℕ → Inode
  /-- The open files: `ftable.file[]`. -/
  ftable : ℕ → File

/-- Why a kernel program does not return. -/
inductive Stop where
  /-- It panics. -/
  | panic (p : Panic)
  /-- It waits for another process. -/
  | sleep
  deriving DecidableEq

/-- What the modelled code does not determine. -/
structure Env where
  /-- The super block. -/
  sb : Superblock
  /-- What is found behind the data of a buffer: `a[i]` with `a = (uint*)bp->data` for the buffer of
  the given block and an index beyond the block. -/
  stray : FsState → ℕ → ℕ → Word
  /-- `devsw[major].read`: the result for a byte count, and the bytes delivered. -/
  devRead : ℕ → Option (Word → ℤ × List Byte)
  /-- `devsw[major].write`: the result for the bytes given. -/
  devWrite : ℕ → Option (List Byte → ℤ)
  /-- `piperead` on a pipe, for a byte count. -/
  piperead : ℕ → ℤ → ℤ × List Byte
  /-- `pipewrite` on a pipe, for the bytes given. -/
  pipewrite : ℕ → List Byte → ℤ

/-- A kernel program on the file system. -/
abbrev FS (α : Type) : Type := Prog FsState Stop α

/-! ### Block addresses of an inode -/

namespace Dinode

/-- `addrs[k]`. -/
def addr (d : Dinode) (k : ℕ) : Word :=
  if h : k < NADDRS then d.addrs ⟨k, h⟩ else 0

/-- `addrs[k] = w`. -/
def setAddr (d : Dinode) (k : ℕ) (w : Word) : Dinode :=
  { d with addrs := fun j ↦ if j = k then w else d.addrs j }

theorem addr_setAddr {d : Dinode} {k : ℕ} {w : Word} (hk : k < NADDRS) (j : ℕ) :
    (d.setAddr k w).addr j = if j = k then w else d.addr j := by
  unfold addr setAddr
  by_cases hj : j < NADDRS
  · rw [dif_pos hj, dif_pos hj]
  · rw [dif_neg hj, dif_neg hj, if_neg (by omega)]

theorem addr_of_ge {d : Dinode} {k : ℕ} (hk : NADDRS ≤ k) : d.addr k = 0 :=
  dif_neg (by omega)

end Dinode

namespace FsState

/-- Change the entry of the inode cache that `ip` points to. -/
def setInode (s : FsState) (ip : ℕ) (i : Inode) : FsState :=
  { s with icache := update s.icache ip i }

/-- Change the open file that `f` points to. -/
def setFile (s : FsState) (f : ℕ) (file : File) : FsState :=
  { s with ftable := update s.ftable f file }

@[simp]
theorem icache_setInode_self (s : FsState) (ip : ℕ) (i : Inode) : (s.setInode ip i).icache ip = i :=
  update_self ..

theorem icache_setInode_of_ne {s : FsState} {ip jp : ℕ} {i : Inode} (h : jp ≠ ip) :
    (s.setInode ip i).icache jp = s.icache jp :=
  update_of_ne h ..

@[simp]
theorem setInode_setInode (s : FsState) (ip : ℕ) (i j : Inode) :
    (s.setInode ip i).setInode ip j = s.setInode ip j := by
  simp [setInode]

@[simp]
theorem setInode_eq_self (s : FsState) (ip : ℕ) : s.setInode ip (s.icache ip) = s := by
  simp [setInode]

@[simp]
theorem ftable_setFile_self (s : FsState) (f : ℕ) (file : File) : (s.setFile f file).ftable f = file :=
  update_self ..

end FsState

namespace Fs

/-- `panic`. -/
def panic {α : Type} (p : Panic) : FS α := Prog.fail (.panic p)

/-! ### Inodes and files in memory -/

/-- The fields of `*ip`. -/
def inode (ip : ℕ) : FS Inode := do
  let s ← Prog.get
  return s.icache ip

/-- Change the fields of `*ip`. -/
def modifyInode (ip : ℕ) (f : Inode → Inode) : FS Unit :=
  Prog.modify fun s ↦ s.setInode ip (f (s.icache ip))

/-- The fields of `*f`. -/
def file (f : ℕ) : FS File := do
  let s ← Prog.get
  return s.ftable f

/-- Change the fields of `*f`. -/
def modifyFile (f : ℕ) (g : File → File) : FS Unit :=
  Prog.modify fun s ↦ s.setFile f (g (s.ftable f))

/-! ### Blocks -/

/-- `bread`. The disk driver panics on a block that is not on the disk. -/
def bread (b : ℕ) : FS Block := do
  if b < FSSIZE then
    let s ← Prog.get
    return s.blocks b
  else
    panic .incorrectBlockno

/-- Store `v` into the buffer of block `b` and pass it to `log_write`. -/
def logWrite (b : ℕ) (v : Block) : FS Unit := do
  let s ← Prog.get
  match s.log.logWrite b with
  | .error e => panic e
  | .ok log =>
    Prog.modify fun s ↦ { s with
      blocks := update s.blocks b v
      log := log
      trace := s.trace ++ [b] }

/-! ### Operations -/

/-- `begin_op`. -/
def beginOp : FS Unit := do
  let s ← Prog.get
  match s.log.beginOp with
  | none => Prog.fail .sleep
  | some log => Prog.modify fun s ↦ { s with log := log }

/-- The in-memory log once `end_op` has committed, if it had to. -/
def afterCommit (log : Log) : Log :=
  if log.committing then { log with lh := [], committing := false } else log

/-- `end_op`. -/
def endOp : FS Unit := do
  let s ← Prog.get
  match s.log.endOp with
  | .error e => panic e
  | .ok log => Prog.modify fun s ↦ { s with log := afterCommit log }

/-! ### What the primitives do -/

variable {s : FsState} {E : Stop → Prop}

theorem sat_inode {ip : ℕ} {Q : Inode → FsState → Prop} :
    (inode ip).Sat s Q E ↔ Q (s.icache ip) s := Iff.rfl

theorem sat_bread {b : ℕ} {Q : Block → FsState → Prop} (hb : b < FSSIZE) :
    (bread b).Sat s Q E ↔ Q (s.blocks b) s := by
  rw [bread, if_pos hb]
  rfl

theorem beginOp_sat : beginOp.Sat s (fun _ t ↦ s.log.committing = false ∧
    (s.log.lh.length : ℤ) + (s.log.outstanding + 1) * MAXOPBLOCKS ≤ LOGSIZE ∧
      t = { s with log := { s.log with outstanding := s.log.outstanding + 1 } })
    fun e ↦ e = .sleep := by
  rw [beginOp, Prog.sat_get_bind]
  split
  · rfl
  next log hlog =>
    obtain ⟨hc, hroom, rfl⟩ := Log.beginOp_eq_some hlog
    exact ⟨hc, hroom, rfl⟩

/-- With room in the log an operation begins at once. -/
theorem beginOp_sat_of_room (hcommitting : s.log.committing = false)
    (hroom : (s.log.lh.length : ℤ) + (s.log.outstanding + 1) * MAXOPBLOCKS ≤ LOGSIZE) : beginOp.Sat s
      (fun _ t ↦ t = { s with log := { s.log with outstanding := s.log.outstanding + 1 } })
      fun _ ↦ False := by
  have hbegin : s.log.beginOp = some { s.log with outstanding := s.log.outstanding + 1 } := by
    rw [Log.beginOp, if_neg (by rw [hcommitting]; exact Bool.false_ne_true), if_neg (by omega)]
  rw [beginOp, Prog.sat_get_bind, hbegin]
  rfl

theorem nodup_afterEnd (h : s.log.lh.Nodup) : (if s.log.outstanding = 1 then [] else s.log.lh).Nodup := by
  split
  · exact List.nodup_nil
  · exact h

/-- The last operation to end commits, and the log is empty then. -/
theorem endOp_sat : endOp.Sat s (fun _ t ↦ t = { s with log := { s.log with
    outstanding := s.log.outstanding - 1
    lh := if s.log.outstanding = 1 then [] else s.log.lh } })
    fun e ↦ s.log.committing = true ∧ e = .panic .logCommitting := by
  rw [endOp, Prog.sat_get_bind]
  split
  next e he =>
    unfold Log.endOp at he
    split at he
    next hc => exact ⟨hc, by rw [Except.error.inj he]⟩
    · split at he <;> cases he
  next log hlog =>
    obtain ⟨hc, rfl⟩ := Log.endOp_eq_ok hlog
    rw [Prog.sat_modify, afterCommit]
    by_cases ho : s.log.outstanding = 1
    all_goals simp [ho, hc]

end Fs

end Xv6
