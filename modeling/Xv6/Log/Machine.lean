import Xv6.Lib.Machine
import Xv6.Lib.Overlay
import Xv6.Log.Basic

/-!
# The log as a machine

`log.c` over a disk, a buffer cache and any number of processes, as a labelled machine
(`Log.Sys.step`). The labels are what can happen next:

* a process enters `begin_op` and is admitted, changes a cached block, passes a block to
  `log_write`, or enters `end_op`;
* the committing process, or the process that recovers at boot, performs its next disk write
  (`tick`), in program order: `write_log`, `write_head`, `install_trans`, `write_head`;
* the buffer cache drops a buffer that is neither pinned nor in use (`evict`);
* the machine crashes, loses everything but the disk, and boots into `recover_from_log`.

A process that sleeps in `begin_op` has no label until it is admitted.

The fields `nextId`, `current`, `groups` and `history` are not in the source. They record, for the
statements about crashes, which operation wrote what: `current` collects the writes since the last
commit, `groups` the writes of each group commit, and `history` all writes ever.
-/

namespace Xv6

open Function

namespace Log

/-- The contents of a disk. -/
abbrev Disk : Type := ℕ → Block

/-- A change of a cached block by an operation. -/
structure Write where
  /-- The operation that made it. -/
  op : ℕ
  /-- The block that was changed. -/
  block : ℕ
  /-- What the block holds afterwards. -/
  data : Block

/-- Where the machine is in `commit` or in `recover_from_log`. -/
inductive Phase where
  /-- Neither. -/
  | running
  /-- In `write_log`, about to copy entry `tail`; past the last entry, about to `write_head`. -/
  | writeLog (tail : ℕ)
  /-- In `install_trans` of `commit`, about to install entry `tail`; past the last entry, about to
  erase the header. -/
  | install (tail : ℕ)
  /-- Back from `commit`, about to clear `log.committing`. -/
  | committed
  /-- In `install_trans` of `recover_from_log`; past the last entry, about to erase the header. -/
  | recover (tail : ℕ)
  deriving DecidableEq

/-- The state of the machine. -/
structure Sys where
  /-- What is on the disk. -/
  disk : Disk
  /-- The buffers of the buffer cache. -/
  cache : ℕ → Option Block
  /-- The in-memory log. -/
  log : Log
  /-- The operation each process is in, between its `begin_op` and its `end_op`. -/
  op : ℕ → Option ℕ
  /-- Processes and the blocks they have changed and not yet passed to `log_write`. -/
  pending : List (ℕ × ℕ)
  /-- Progress of a commit or of recovery. -/
  phase : Phase
  /-- The identity of the next operation. -/
  nextId : ℕ
  /-- The writes since the last commit. -/
  current : List Write
  /-- The writes of each group commit. -/
  groups : List (List Write)
  /-- All writes. -/
  history : List Write

/-- What can happen next. -/
inductive Label where
  /-- Process `p` enters `begin_op` and is admitted. -/
  | beginOp (p : ℕ)
  /-- Process `p` changes the cached copy of block `b` to `v`. -/
  | modify (p b : ℕ) (v : Block)
  /-- Process `p` calls `log_write` on block `b`. -/
  | logWrite (p b : ℕ)
  /-- Process `p` enters `end_op`. -/
  | endOp (p : ℕ)
  /-- The next disk write of a commit or of recovery. -/
  | tick
  /-- The buffer of block `b` is recycled. -/
  | evict (b : ℕ)
  /-- The machine crashes and boots. -/
  | crash

/-! ### The log header on disk -/

/-- `read_head`: the block numbers in the header block. -/
def readHead (hb : Block) : List ℕ :=
  (List.range (hb.word 0).toInt.toNat).map fun i ↦ (hb.word (i + 1)).toNat

/-- The loop of `write_head`, from entry `i` on. -/
def writeEntries (hb : Block) (i : ℕ) : List ℕ → Block
  | [] => hb
  | b :: bs => writeEntries (hb.setWord (i + 1) (BitVec.ofNat 32 b)) (i + 1) bs

/-- `write_head`: store the block numbers into the header block. -/
def writeHead (hb : Block) (lh : List ℕ) : Block :=
  writeEntries (hb.setWord 0 (BitVec.ofNat 32 lh.length)) 0 lh

/-! ### Disk and cache -/

variable (sb : Superblock)

/-- A block that operations may change: on the disk and outside the log area. -/
def Home (b : ℕ) : Prop :=
  b < sb.size ∧ ¬(sb.logstart ≤ b ∧ b < sb.logstart + sb.nlog)

instance (b : ℕ) : Decidable (Home sb b) :=
  inferInstanceAs (Decidable (_ ∧ _))

namespace Sys

/-- What `bread` returns for block `b`. -/
def bread (s : Sys) (b : ℕ) : Block :=
  (s.cache b).getD (s.disk b)

/-- `bwrite`: block `b` with contents `v` goes to the disk and stays in the cache. -/
def bwrite (s : Sys) (b : ℕ) (v : Block) : Sys :=
  { s with
    disk := update s.disk b v
    cache := update s.cache b (some v) }

/-- The blocks whose buffers are marked `B_DIRTY`: those in the log, until `install_trans` has
written them home. Recovery marks none. -/
def dirty (s : Sys) : List ℕ :=
  match s.phase with
  | .install tail => s.log.lh.drop tail
  | .recover _ => []
  | _ => s.log.lh

/-- Block `b` is pinned by the log, or some process is changing it. -/
def InUse (s : Sys) (b : ℕ) : Prop :=
  b ∈ s.dirty ∨ ∃ w ∈ s.pending, w.2 = b

instance (s : Sys) (b : ℕ) : Decidable (s.InUse b) :=
  inferInstanceAs (Decidable (_ ∨ _))

/-- The machine after a crash, at the point where `recover_from_log` has read the header. -/
def boot (s : Sys) : Sys where
  disk := s.disk
  cache := fun _ ↦ none
  log := { Log.init sb with lh := readHead (s.disk sb.logstart) }
  op := fun _ ↦ none
  pending := []
  phase := .recover 0
  nextId := s.nextId
  current := []
  groups := s.groups
  history := s.history

/-- The machine that boots for the first time, on the disk `d`. -/
def initial (d : Disk) : Sys :=
  boot sb
    { disk := d
      cache := fun _ ↦ none
      log := Log.init sb
      op := fun _ ↦ none
      pending := []
      phase := .running
      nextId := 0
      current := []
      groups := []
      history := [] }

/-- The next disk write of `commit` or of `recover_from_log`. -/
def tick (s : Sys) : Option Sys :=
  match s.phase with
  | .running => none
  | .writeLog tail =>
    match s.log.lh[tail]? with
    | some b =>
      some { s.bwrite (sb.logstart + tail + 1) (s.bread b) with phase := .writeLog (tail + 1) }
    | none =>
      -- the true point at which the current transaction commits
      some { s.bwrite sb.logstart (writeHead (s.bread sb.logstart) s.log.lh) with
        phase := .install 0
        current := []
        groups := s.groups ++ [s.current] }
  | .install tail =>
    match s.log.lh[tail]? with
    | some b =>
      some { s.bwrite b (s.bread (sb.logstart + tail + 1)) with phase := .install (tail + 1) }
    | none =>
      some { s.bwrite sb.logstart (writeHead (s.bread sb.logstart) []) with
        phase := .committed
        log := { s.log with lh := [] } }
  | .committed =>
    some { s with phase := .running, log := { s.log with committing := false } }
  | .recover tail =>
    match s.log.lh[tail]? with
    | some b =>
      some { s.bwrite b (s.bread (sb.logstart + tail + 1)) with phase := .recover (tail + 1) }
    | none =>
      some { s.bwrite sb.logstart (writeHead (s.bread sb.logstart) []) with
        phase := .running
        log := { s.log with lh := [] } }

/-- Where `end_op` leaves the machine: in `commit` if this was the last outstanding operation, and
there past `write_log` and `install_trans` at once if nothing was logged. -/
def phaseAfterEnd (log : Log) : Phase :=
  if log.committing then
    if log.lh.length > 0 then .writeLog 0 else .committed
  else
    .running

/-- One step of the machine. -/
def step (s : Sys) : Label → Option (Except Panic Sys)
  | .beginOp p =>
    match s.op p, s.phase with
    | some _, _ | none, .recover _ => none
    | none, _ =>
      s.log.beginOp.map fun log ↦ .ok { s with
        log := log
        op := update s.op p (some s.nextId)
        nextId := s.nextId + 1 }
  | .modify p b v =>
    match s.op p with
    | none => none
    | some o =>
      if Home sb b then
        some (.ok { s with
          cache := update s.cache b (some v)
          pending := (p, b) :: s.pending
          current := s.current ++ [⟨o, b, v⟩]
          history := s.history ++ [⟨o, b, v⟩] })
      else
        none
  | .logWrite p b =>
    match s.op p with
    | none => none
    | some _ =>
      if Home sb b then
        some ((s.log.logWrite b).map fun log ↦ { s with
          log := log
          pending := s.pending.filter fun w ↦ w ≠ (p, b) })
      else
        none
  | .endOp p =>
    match s.op p with
    | none => none
    | some _ =>
      if ∃ w ∈ s.pending, w.1 = p then
        none
      else
        some (s.log.endOp.map fun log ↦ { s with
          log := log
          op := update s.op p none
          phase := phaseAfterEnd log })
  | .tick => (s.tick sb).map .ok
  | .evict b =>
    if s.InUse b then none else some (.ok { s with cache := update s.cache b none })
  | .crash => some (.ok (s.boot sb))

/-- What `modify` leaves. -/
def modified (s : Sys) (p o b : ℕ) (v : Block) : Sys :=
  { s with
    cache := update s.cache b (some v)
    pending := (p, b) :: s.pending
    current := s.current ++ [⟨o, b, v⟩]
    history := s.history ++ [⟨o, b, v⟩] }

/-- Everything a step can do, label by label. -/
theorem step_eq_ok {s t : Sys} {l : Label} (h : s.step sb l = some (.ok t)) :
    match l with
    | .beginOp p =>
      ∃ log, s.op p = none ∧ (∀ tail, s.phase ≠ .recover tail) ∧ s.log.beginOp = some log ∧
        t = { s with
          log := log
          op := update s.op p (some s.nextId)
          nextId := s.nextId + 1 }
    | .modify p b v =>
      ∃ o, s.op p = some o ∧ Home sb b ∧ t = s.modified p o b v
    | .logWrite p b =>
      ∃ o log, s.op p = some o ∧ Home sb b ∧ s.log.logWrite b = .ok log ∧
        t = { s with log := log, pending := s.pending.filter fun w ↦ w ≠ (p, b) }
    | .endOp p =>
      ∃ o log, s.op p = some o ∧ (¬∃ w ∈ s.pending, w.1 = p) ∧ s.log.endOp = .ok log ∧
        t = { s with
          log := log
          op := update s.op p none
          phase := phaseAfterEnd log }
    | .tick => s.tick sb = some t
    | .evict b => ¬s.InUse b ∧ t = { s with cache := update s.cache b none }
    | .crash => t = s.boot sb := by
  cases l with
  | beginOp p =>
    simp only [step] at h ⊢
    split at h
    · cases h
    · cases h
    next hp hrec =>
      obtain ⟨log, hlog, ht⟩ := Option.map_eq_some_iff.1 h
      exact ⟨log, hp, hrec, hlog, (Except.ok.inj ht).symm⟩
  | modify p b v =>
    simp only [step] at h ⊢
    split at h
    · cases h
    next o hp =>
      split at h
      next hb => exact ⟨o, hp, hb, (Except.ok.inj (Option.some.inj h)).symm⟩
      · cases h
  | logWrite p b =>
    simp only [step] at h ⊢
    split at h
    · cases h
    next o hp =>
      split at h
      next hb =>
        cases hlog : s.log.logWrite b with
        | error e => rw [hlog] at h; cases h
        | ok log =>
          rw [hlog] at h
          exact ⟨o, log, hp, hb, rfl, (Except.ok.inj (Option.some.inj h)).symm⟩
      · cases h
  | endOp p =>
    simp only [step] at h ⊢
    split at h
    · cases h
    next o hp =>
      split at h
      · cases h
      next hpend =>
        cases hlog : s.log.endOp with
        | error e => rw [hlog] at h; cases h
        | ok log =>
          rw [hlog] at h
          exact ⟨o, log, hp, hpend, rfl, (Except.ok.inj (Option.some.inj h)).symm⟩
  | tick =>
    obtain ⟨u, hu, ht⟩ := Option.map_eq_some_iff.1 h
    exact Except.ok.inj ht ▸ hu
  | evict b =>
    simp only [step] at h ⊢
    split at h
    · cases h
    next hb => exact ⟨hb, (Except.ok.inj (Option.some.inj h)).symm⟩
  | crash => exact (Except.ok.inj (Option.some.inj h)).symm

end Sys

end Log

end Xv6
