import Xv6.Lib.Ring
import Xv6.Log.Machine

/-!
# The buffer cache

`bio.c` over a disk, with the log's pinning. A call of `bread` or of `brelse` takes several critical
sections, and between them other processes go on; `Bio.Op` has one constructor for each:

* `bread` looks the block up, or recycles a buffer, under `bcache.lock` (`bget`), waits for the sleep
  lock of the buffer (`acquiresleep`), and reads the block if the buffer is not valid (`fill`);
* the caller may then change the data (`modify`), pass the buffer to `bwrite` or, for `log_write`,
  mark it dirty (`pin`);
* `brelse` releases the sleep lock (`releasesleep`) and then, under `bcache.lock`, drops the reference
  (`relink`).

Who has which buffer is not recorded by the code except in `refcnt`. Here `refs` has an entry for
each call of `bread` whose buffer has not been given back, with how far it has come. The fields
`edit` and `sections` are not in the code either: `edit` says of a buffer that is held whether its
data have been changed, and whether the changed data have been passed on, and `sections` lists what
each holder has left in its buffer when it released the lock, the last one first.

The machine `Bio.Sys` adds `begin_op`, `log_write`, `end_op` and `commit` of `log.c`. The process that
commits works through the calls of `write_log`, `write_head` and `install_trans` one by one
(`Bio.commit`), like any other user of the cache.
-/

namespace Xv6

open Function

/-- `struct buf`, without the links. -/
structure Buf where
  /-- `B_VALID`: buffer has been read from disk. -/
  valid : Bool
  /-- `B_DIRTY`: buffer needs to be written to disk. -/
  dirty : Bool
  /-- The device. -/
  dev : ℕ
  /-- The block. -/
  blockno : ℕ
  /-- The process that holds the sleep lock. -/
  lock : Option ℕ
  /-- How many refer to the buffer. -/
  refcnt : ℕ
  /-- The contents. -/
  data : Block

namespace Bio

/-- Who calls: a process, for itself or in `commit`. -/
structure Caller where
  /-- The process. -/
  proc : ℕ
  /-- It is in `commit`. -/
  commit : Bool
  deriving DecidableEq

/-- How far a user of a buffer has come. -/
inductive Stage where
  /-- In `bread`, before `acquiresleep` returns. -/
  | waiting
  /-- In `bread`, with the lock. -/
  | locked
  /-- `bread` has returned. -/
  | ready
  /-- In `brelse`, without the lock. -/
  | released
  deriving DecidableEq

/-- The use of a buffer, from `bread` to `brelse`. -/
structure Ref where
  /-- Who has called `bread`. -/
  caller : Caller
  /-- For which device. -/
  dev : ℕ
  /-- For which block. -/
  blockno : ℕ
  /-- The buffer. -/
  buf : Fin NBUF
  /-- How far it has come. -/
  stage : Stage
  deriving DecidableEq

/-- What the holder of a buffer has done with the data. -/
inductive Edit where
  /-- Nothing. -/
  | none
  /-- It has changed them. -/
  | unsaved
  /-- It has changed them and passed the buffer to `bwrite` or `log_write`. -/
  | saved
  deriving DecidableEq

/-- The use of a block that has been completed. -/
structure Section where
  /-- By whom. -/
  caller : Caller
  /-- On which device. -/
  dev : ℕ
  /-- On which block. -/
  blockno : ℕ
  /-- What it has left in the buffer. -/
  data : Block

/-- What the driver checks. -/
structure Driver where
  /-- Requests for this device are accepted. -/
  serves : ℕ → Bool
  /-- The size of the disk in blocks. -/
  disksize : ℕ

/-- `memide.c`: only disk 1. -/
def memide (disksize : ℕ) : Driver := ⟨fun dev ↦ dev == 1, disksize⟩

/-- The links: `none` is `bcache.head`. -/
abbrev BufLinks : Type := Links (Option (Fin NBUF))

/-- The buffer cache and the disk. -/
structure Cache where
  /-- `bcache.buf`. -/
  buf : Fin NBUF → Buf
  /-- The fields `prev` and `next`. -/
  links : BufLinks
  /-- The disk, by device and block. -/
  disk : ℕ → ℕ → Block
  /-- The uses of buffers. -/
  refs : List Ref
  /-- What the holder of a buffer has done with the data. -/
  edit : Fin NBUF → Edit
  /-- The uses of blocks that have been completed, the last one first. -/
  sections : List Section

/-- `binit`, whatever the links are before. -/
def binit (L : BufLinks) : BufLinks :=
  (List.finRange NBUF).foldl (fun L i ↦ L.insertAfter none (some i))
    ((L.setPrev none none).setNext none none)

/-- What the last completed use of a block has left, or else what was on the disk at first. -/
def contents (disk : ℕ → ℕ → Block) : List Section → ℕ → ℕ → Block
  | [], dev, b => disk dev b
  | c :: l, dev, b => if c.dev = dev ∧ c.blockno = b then c.data else contents disk l dev b

namespace Cache

/-- After `binit`. All other fields of the buffers are zero. -/
def init (L : BufLinks) (disk : ℕ → ℕ → Block) : Cache where
  buf := fun _ ↦ ⟨false, false, 0, 0, none, 0, Block.zero⟩
  links := binit L
  disk := disk
  refs := []
  edit := fun _ ↦ .none
  sections := []

/-- Change a buffer. -/
def setBuf (s : Cache) (i : Fin NBUF) (b : Buf) : Cache :=
  { s with buf := update s.buf i b }

theorem buf_setBuf (s : Cache) (i j : Fin NBUF) (b : Buf) :
    (s.setBuf i b).buf j = if j = i then b else s.buf j :=
  update_apply ..

/-- A use of a buffer goes on. -/
def move (s : Cache) (r : Ref) (stage : Stage) : Cache :=
  { s with refs := { r with stage := stage } :: s.refs.erase r }

/-- Record what the holder has done with the data. -/
def setEdit (s : Cache) (i : Fin NBUF) (e : Edit) : Cache :=
  { s with edit := update s.edit i e }

/-! ### `bget` -/

/-- The first loop of `bget`: is the block already cached? -/
def cached (s : Cache) (dev blockno : ℕ) : Option (Option (Option (Fin NBUF))) :=
  Links.walk s.links.next none
    (fun n ↦ n.any fun i ↦ (s.buf i).dev == dev && (s.buf i).blockno == blockno)
    (NBUF + 1) (s.links.next none)

/-- The second loop: an unused buffer. Even if `refcnt == 0`, `B_DIRTY` indicates a buffer is in
use. -/
def unused (s : Cache) : Option (Option (Option (Fin NBUF))) :=
  Links.walk s.links.prev none
    (fun n ↦ n.any fun i ↦ (s.buf i).refcnt == 0 && !(s.buf i).dirty)
    (NBUF + 1) (s.links.prev none)

/-- A new use of a buffer. -/
def addRef (s : Cache) (c : Caller) (dev blockno : ℕ) (i : Fin NBUF) : Cache :=
  { s with refs := ⟨c, dev, blockno, i, .waiting⟩ :: s.refs }

/-- The block is cached in buffer `i`. -/
def hit (s : Cache) (c : Caller) (dev blockno : ℕ) (i : Fin NBUF) : Cache :=
  (s.setBuf i { s.buf i with refcnt := (s.buf i).refcnt + 1 }).addRef c dev blockno i

/-- Recycle buffer `i`. -/
def recycle (s : Cache) (c : Caller) (dev blockno : ℕ) (i : Fin NBUF) : Cache :=
  (s.setBuf i { s.buf i with
    dev := dev, blockno := blockno, valid := false, dirty := false, refcnt := 1 }).addRef
      c dev blockno i

/-- `bget`, as far as it runs under `bcache.lock`. There is no result when a loop does not end. -/
def bget (s : Cache) (c : Caller) (dev blockno : ℕ) : Option (Except Panic Cache) :=
  match s.cached dev blockno with
  | none => none
  | some (some (some i)) => some (.ok (s.hit c dev blockno i))
  | some _ =>
    match s.unused with
    | none => none
    | some (some (some i)) => some (.ok (s.recycle c dev blockno i))
    | some _ => some (.error .bgetNoBuffers)

/-! ### The other functions -/

/-- Write buffer `i` to the disk. -/
def writeBack (s : Cache) (i : Fin NBUF) : Cache :=
  let b := s.buf i
  { s.setBuf i { b with dirty := false, valid := true } with
    disk := fun dev blockno ↦
      if dev = b.dev ∧ blockno = b.blockno then b.data else s.disk dev blockno }

/-- Read buffer `i` from the disk. -/
def readIn (s : Cache) (i : Fin NBUF) : Cache :=
  let b := s.buf i
  s.setBuf i { b with valid := true, data := s.disk b.dev b.blockno }

/-- `iderw`. -/
def iderw (d : Driver) (s : Cache) (proc : ℕ) (i : Fin NBUF) : Except Panic Cache :=
  let b := s.buf i
  if b.lock ≠ some proc then .error .iderwNotLocked
  else if b.valid ∧ ¬b.dirty then .error .iderwNothingToDo
  else if ¬d.serves b.dev then .error .iderwNotDisk1
  else if b.blockno ≥ d.disksize then .error .iderwOutOfRange
  else if b.dirty then .ok (s.writeBack i)
  else .ok (s.readIn i)

/-- The last lines of `bread`. -/
def fill (d : Driver) (s : Cache) (r : Ref) : Except Panic Cache :=
  if (s.buf r.buf).valid then .ok (s.move r .ready)
  else (s.iderw d r.caller.proc r.buf).map fun s ↦ s.move r .ready

/-- `b->flags |= B_DIRTY`. -/
def setDirty (s : Cache) (i : Fin NBUF) : Cache := s.setBuf i { s.buf i with dirty := true }

/-- The changes, if any, have been passed on. -/
def saveEdit (s : Cache) (i : Fin NBUF) : Cache :=
  s.setEdit i (if s.edit i = .none then .none else .saved)

/-- `bwrite`. -/
def bwrite (d : Driver) (s : Cache) (r : Ref) : Except Panic Cache :=
  if (s.buf r.buf).lock ≠ some r.caller.proc then .error .bwrite
  else ((s.setDirty r.buf).iderw d r.caller.proc r.buf).map fun t ↦ t.saveEdit r.buf

/-- What `log_write` does to the buffer. -/
def pin (s : Cache) (r : Ref) : Cache := (s.setDirty r.buf).saveEdit r.buf

/-- The first half of `brelse`. -/
def releasesleep (s : Cache) (r : Ref) : Except Panic Cache :=
  let b := s.buf r.buf
  if b.lock ≠ some r.caller.proc then .error .brelse
  else .ok { ((s.setBuf r.buf { b with lock := none }).setEdit r.buf .none).move r .released with
    sections := ⟨r.caller, b.dev, b.blockno, b.data⟩ :: s.sections }

/-- `b->refcnt--`. -/
def dropRef (s : Cache) (r : Ref) : Cache :=
  { s.setBuf r.buf { s.buf r.buf with refcnt := (s.buf r.buf).refcnt - 1 } with
    refs := s.refs.erase r }

/-- The second half of `brelse`: the buffer moves to the head of the list when no one refers to it
any more. -/
def relink (s : Cache) (r : Ref) : Cache :=
  let t := s.dropRef r
  if (t.buf r.buf).refcnt = 0 then
    { t with links := (t.links.unlink (some r.buf)).insertAfter none (some r.buf) }
  else
    t

end Cache

/-- What a user of the cache does next. -/
inductive Op where
  /-- `bget`, up to `acquiresleep`. -/
  | bget (c : Caller) (dev blockno : ℕ)
  /-- `acquiresleep` returns. -/
  | acquiresleep (r : Ref)
  /-- `bread` returns. -/
  | fill (r : Ref)
  /-- The holder changes the data. -/
  | modify (r : Ref) (v : Block)
  /-- `bwrite`. -/
  | bwrite (r : Ref)
  /-- The assignment to `flags` in `log_write`. -/
  | pin (r : Ref)
  /-- `brelse`, up to the release of the sleep lock. -/
  | releasesleep (r : Ref)
  /-- `brelse` returns. -/
  | relink (r : Ref)

/-- The user that takes the step. -/
def Op.caller : Op → Caller
  | bget c _ _ => c
  | acquiresleep r | fill r | modify r _ | bwrite r | pin r | releasesleep r | relink r => r.caller

namespace Cache

/-- One step of a user. A changed buffer is not released before it has been passed to `bwrite` or
`log_write`. -/
def exec (d : Driver) (s : Cache) : Op → Option (Except Panic Cache)
  | .bget c dev blockno => s.bget c dev blockno
  | .acquiresleep r =>
    if r ∈ s.refs ∧ r.stage = .waiting ∧ (s.buf r.buf).lock = none then
      some (.ok ((s.setBuf r.buf { s.buf r.buf with lock := some r.caller.proc }).move r .locked))
    else
      none
  | .fill r => if r ∈ s.refs ∧ r.stage = .locked then some (s.fill d r) else none
  | .modify r v =>
    if r ∈ s.refs ∧ r.stage = .ready then
      some (.ok ((s.setBuf r.buf { s.buf r.buf with data := v }).setEdit r.buf .unsaved))
    else
      none
  | .bwrite r => if r ∈ s.refs ∧ r.stage = .ready then some (s.bwrite d r) else none
  | .pin r => if r ∈ s.refs ∧ r.stage = .ready then some (.ok (s.pin r)) else none
  | .releasesleep r =>
    if r ∈ s.refs ∧ r.stage = .ready ∧ s.edit r.buf ≠ .unsaved then some (s.releasesleep r)
    else none
  | .relink r => if r ∈ s.refs ∧ r.stage = .released then some (.ok (s.relink r)) else none

end Cache

/-! ### The log -/

/-- One statement of `commit`. A variable that points to a buffer is named by the block that was
read into it. -/
inductive Instr where
  /-- `bread(log.dev, b)`. -/
  | bread (b : ℕ)
  /-- `memmove(dst->data, src->data, BSIZE)`. -/
  | memmove (dst src : ℕ)
  /-- Store `log.lh` into the header block. -/
  | storeHead (b : ℕ)
  /-- `bwrite`. -/
  | bwrite (b : ℕ)
  /-- `brelse`. -/
  | brelse (b : ℕ)
  /-- `log.lh.n = 0`. -/
  | clear

/-- `write_log`, from entry `tail` on. -/
def writeLog (sb : Superblock) (tail : ℕ) : List ℕ → List Instr
  | [] => []
  | b :: lh =>
    let dst := sb.logstart + tail + 1
    [.bread dst, .bread b, .memmove dst b, .bwrite dst, .brelse b, .brelse dst] ++
      writeLog sb (tail + 1) lh

/-- `install_trans`, from entry `tail` on. -/
def installTrans (sb : Superblock) (tail : ℕ) : List ℕ → List Instr
  | [] => []
  | b :: lh =>
    let lbuf := sb.logstart + tail + 1
    [.bread lbuf, .bread b, .memmove b lbuf, .bwrite b, .brelse lbuf, .brelse b] ++
      installTrans sb (tail + 1) lh

/-- `write_head`. -/
def writeHead (sb : Superblock) : List Instr :=
  [.bread sb.logstart, .storeHead sb.logstart, .bwrite sb.logstart, .brelse sb.logstart]

/-- `commit`. -/
def commit (sb : Superblock) (lh : List ℕ) : List Instr :=
  if lh.length > 0 then
    writeLog sb 0 lh ++ writeHead sb ++ installTrans sb 0 lh ++ [.clear] ++ writeHead sb
  else
    []

/-- The kernel that runs on the cache. -/
structure Sys where
  /-- The buffer cache. -/
  cache : Cache
  /-- The log. -/
  log : Log
  /-- The processes between `begin_op` and `end_op`. -/
  ops : List ℕ
  /-- The process that commits, and what it still has to do. -/
  committer : Option (ℕ × List Instr)

/-- What can happen next. -/
inductive Label where
  /-- A process takes a step in a call of `bread`, `bwrite` or `brelse`, or changes data. -/
  | op (o : Op)
  /-- `log_write`. -/
  | logWrite (r : Ref)
  /-- A process enters `begin_op` and is admitted. -/
  | beginOp (proc : ℕ)
  /-- A process enters `end_op`. -/
  | endOp (proc : ℕ)
  /-- The process that commits goes on. -/
  | commit

namespace Sys

/-- After `binit` and `initlog`, with nothing to recover. -/
def init (sb : Superblock) (L : BufLinks) (disk : ℕ → ℕ → Block) : Sys :=
  ⟨Cache.init L disk, Log.init sb, [], none⟩

/-- The process is not in the middle of a call. -/
def Idle (s : Sys) (c : Caller) : Prop := ∀ r ∈ s.cache.refs, r.caller = c → r.stage = .ready

instance (s : Sys) (c : Caller) : Decidable (s.Idle c) :=
  inferInstanceAs (Decidable (∀ _, _))

/-- The process is not in `commit`. -/
def Free (s : Sys) (proc : ℕ) : Prop := ∀ c ∈ s.committer, c.1 ≠ proc

instance (s : Sys) (proc : ℕ) : Decidable (s.Free proc) :=
  inferInstanceAs (Decidable (∀ _, _))

/-- The step begins a call. -/
def starts : Op → Bool
  | .acquiresleep _ | .fill _ | .relink _ => false
  | _ => true

/-- The step is not the one that occurs only in `log_write`. -/
def plain : Op → Bool
  | .pin _ => false
  | _ => true

/-- A step of a user of the cache. -/
def use (d : Driver) (s : Sys) (o : Op) : Option (Except Panic Sys) :=
  (s.cache.exec d o).map fun x ↦ x.map fun t ↦ { s with cache := t }

/-- The buffer of the committing process that holds block `b`. -/
def refOf (s : Sys) (dev proc b : ℕ) : Option Ref :=
  s.cache.refs.find? fun r ↦
    decide (r.caller = ⟨proc, true⟩ ∧ r.dev = dev ∧ r.blockno = b ∧ r.stage = .ready)

/-- One statement of `commit`. -/
def runInstr (d : Driver) (dev proc : ℕ) (s : Sys) : Instr → Option (Except Panic Sys)
  | .bread b => s.use d (.bget ⟨proc, true⟩ dev b)
  | .memmove dst src => do
    let r ← s.refOf dev proc dst
    let q ← s.refOf dev proc src
    s.use d (.modify r (s.cache.buf q.buf).data)
  | .storeHead b => do
    let r ← s.refOf dev proc b
    s.use d (.modify r (Log.writeHead (s.cache.buf r.buf).data s.log.lh))
  | .bwrite b => do
    let r ← s.refOf dev proc b
    s.use d (.bwrite r)
  | .brelse b => do
    let r ← s.refOf dev proc b
    s.use d (.releasesleep r)
  | .clear => some (.ok { s with log := { s.log with lh := [] } })

/-- One step. The log is on device `dev`. -/
def step (sb : Superblock) (d : Driver) (dev : ℕ) (s : Sys) : Label → Option (Except Panic Sys)
  | .op o =>
    -- the calls of a committing process are those of `commit`, but it finishes them like any other
    if plain o ∧ (starts o → o.caller.commit = false ∧ s.Free o.caller.proc ∧ s.Idle o.caller) then
      s.use d o
    else
      none
  | .logWrite r =>
    if r.caller.commit = false ∧ s.Free r.caller.proc ∧ s.Idle r.caller then
      (s.cache.exec d (.pin r)).map fun x ↦ do
        let log ← s.log.logWrite (s.cache.buf r.buf).blockno
        let t ← x
        return { s with cache := t, log := log }
    else
      none
  | .beginOp p =>
    if p ∉ s.ops ∧ s.Free p ∧ s.Idle ⟨p, false⟩ then
      s.log.beginOp.map fun log ↦ .ok { s with log := log, ops := p :: s.ops }
    else
      none
  | .endOp p =>
    if p ∈ s.ops ∧ s.Free p ∧ s.Idle ⟨p, false⟩ then
      some (s.log.endOp.map fun log ↦ { s with
        log := log
        ops := s.ops.erase p
        committer := if log.committing then some (p, commit sb log.lh) else s.committer })
    else
      none
  | .commit =>
    match s.committer with
    | none => none
    | some (p, []) =>
      if s.Idle ⟨p, true⟩ then
        some (.ok { s with log := { s.log with committing := false }, committer := none })
      else
        none
    | some (p, i :: todo) =>
      if s.Idle ⟨p, true⟩ then
        (s.runInstr d dev p i).map fun x ↦ x.map fun t ↦ { t with committer := some (p, todo) }
      else
        none

end Sys

end Bio

end Xv6
