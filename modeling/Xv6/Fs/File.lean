import Xv6.Fs.ReadWrite

/-!
# Reading and writing an open file

`ilock` and `iunlock` of `fs.c`, and `fileread`, `filewrite`, `pread` and `pwrite` of `file.c`.

`fileread` and `pread` differ in one thing: where the offset is kept. The same holds for `filewrite`
and `pwrite`. So each pair is one function here, with a parameter that says where the offset is:
`none` for `f->off`, `some off` for the argument of the call.

The part of a call between `ilock` and `iunlock` is a function of its own (`lockedRead`,
`lockedWrite`). A write is a loop of such parts, each in an operation of the log; where several
processes run, another process can come in between.
-/

namespace Xv6

open Function FsState Prog

namespace Fs

variable (env : Env)

/-! ### Locks -/

/-- Lock the given inode. Reads the inode from disk if necessary. -/
def ilock (ip : ℕ) : FS Unit := do
  let i ← inode ip
  if i.ref < 1 then
    panic .ilock
  else if i.locked then
    Prog.fail .sleep
  else
    modifyInode ip fun i ↦ { i with locked := true }
    if i.valid = false then
      let bp ← bread (env.sb.IBLOCK i.inum)
      let dip := bp.dinode (i.inum % IPB)
      modifyInode ip fun i ↦ { i with toDinode := dip, valid := true }
      if dip.type = 0 then
        panic .ilockNoType

/-- Unlock the given inode. -/
def iunlock (ip : ℕ) : FS Unit := do
  let i ← inode ip
  if i.locked = false ∨ i.ref < 1 then
    panic .iunlock
  else
    modifyInode ip fun i ↦ { i with locked := false }

/-- The end of the part of a call that holds the lock: `if(r > 0) f->off += r; iunlock(f->ip);` -/
def unlockAfter (f ip : ℕ) (pos : Option Word) (r : ℤ) : FS Unit := do
  if 0 < r ∧ pos = none then
    modifyFile f fun file ↦ { file with off := file.off + BitVec.ofInt 32 r }
  iunlock ip

/-! ### `fileread` and `pread` -/

/-- The part of a read between `ilock` and `iunlock`. -/
def lockedRead (f : ℕ) (n : ℤ) (pos : Option Word) : FS (ℤ × List Byte) := do
  let file₀ ← file f
  ilock env file₀.ip
  let (r, bytes) ← readi env file₀.ip (pos.getD file₀.off) (BitVec.ofInt 32 n)
  unlockAfter f file₀.ip pos r
  return (r, bytes)

/-- Read from file `f`, at `f->off` or at a given offset: the result, and the bytes delivered. -/
def readFile (f : ℕ) (n : ℤ) (pos : Option Word) : FS (ℤ × List Byte) := do
  let file ← file f
  if file.readable = false then
    return (-1, [])
  else
    match file.type with
    | .pipe => return env.piperead file.pipe n
    | .inode => lockedRead env f n pos
    | .none => panic .fileread

/-- `fileread`. -/
def fileread (f : ℕ) (n : ℤ) : FS (ℤ × List Byte) := readFile env f n none

/-- `pread`. -/
def pread (f : ℕ) (n : ℤ) (off : Word) : FS (ℤ × List Byte) := readFile env f n (some off)

/-! ### `filewrite` and `pwrite` -/

/-- `max`: how much is written in one operation. -/
def maxChunk : ℤ := (MAXOPBLOCKS - 1 - 1 - 2) / 2 * 512

/-- The part of a write between `ilock` and `iunlock`. -/
def lockedWrite (f : ℕ) (src : ℕ → Byte) (n1 : ℤ) (pos : Option Word) : FS ℤ := do
  let file₀ ← file f
  ilock env file₀.ip
  let r ← writei env file₀.ip src (pos.getD file₀.off) (BitVec.ofInt 32 n1)
  unlockAfter f file₀.ip pos r
  return r

/-- The operation in the loop of a write. -/
def writeChunk (f : ℕ) (src : ℕ → Byte) (n1 : ℤ) (pos : Option Word) : FS ℤ := do
  beginOp
  let r ← lockedWrite env f src n1 pos
  endOp
  return r

/-- The loop of a write, from `i` on. -/
def writeChunks (f : ℕ) (addr : ℕ → Byte) (n i : ℤ) (pos : Option Word) : FS ℤ :=
  if i < n then do
    let n1 := min (n - i) maxChunk
    let r ← writeChunk env f (fun j ↦ addr (i.toNat + j)) n1 pos
    if r < 0 then
      return if i = n then n else -1
    else if r ≠ n1 then
      panic .shortFilewrite
    else
      writeChunks f addr n (i + n1) (pos.map (· + BitVec.ofInt 32 r))
  else
    return if i = n then n else -1
termination_by (n - i).toNat
decreasing_by
  have hmax : maxChunk = 1536 := rfl
  omega

/-- Write to file `f`, at `f->off` or at a given offset. -/
def writeFile (f : ℕ) (addr : ℕ → Byte) (n : ℤ) (pos : Option Word) : FS ℤ := do
  let file ← file f
  if file.writable = false then
    return -1
  else
    match file.type with
    | .pipe => return env.pipewrite file.pipe ((List.range n.toNat).map addr)
    | .inode => writeChunks env f addr n 0 pos
    | .none => panic .filewrite

/-- `filewrite`. -/
def filewrite (f : ℕ) (addr : ℕ → Byte) (n : ℤ) : FS ℤ := writeFile env f addr n none

end Fs

/-- A call on an open file. -/
inductive FileCall where
  /-- `fileread(f, addr, n)`, or `pread(f, addr, n, off)`. -/
  | read (f : ℕ) (n : ℤ) (pos : Option Word)
  /-- `filewrite(f, addr, n)`, or `pwrite(f, addr, n, off)`. -/
  | write (f : ℕ) (addr : ℕ → Byte) (n : ℤ) (pos : Option Word)

/-! ### Taking and releasing a lock -/

namespace FsState

/-- Change whether an inode is locked. -/
def setLocked (s : FsState) (ip : ℕ) (b : Bool) : FsState :=
  s.setInode ip { s.icache ip with locked := b }

/-- Advance the offset of an open file by the result of a call, if that is where the offset is
kept. -/
def advance (s : FsState) (f : ℕ) (pos : Option Word) (r : ℤ) : FsState :=
  if 0 < r ∧ pos = none then
    s.setFile f { s.ftable f with off := (s.ftable f).off + BitVec.ofInt 32 r }
  else
    s

variable (s : FsState) (ip f : ℕ) (pos : Option Word) (r : ℤ)

theorem icache_setLocked_of_ne {jp : ℕ} (b : Bool) (h : jp ≠ ip) :
    (s.setLocked ip b).icache jp = s.icache jp :=
  icache_setInode_of_ne h

@[simp]
theorem icache_setLocked_self (b : Bool) :
    (s.setLocked ip b).icache ip = { s.icache ip with locked := b } :=
  icache_setInode_self ..

@[simp]
theorem addrs_setLocked (b : Bool) : (s.setLocked ip b).addrs = s.addrs := by
  funext jp k
  rcases eq_or_ne jp ip with rfl | hjp
  · rw [addrs, icache_setLocked_self]
    rfl
  · rw [addrs, icache_setLocked_of_ne s ip b hjp]
    rfl

@[simp]
theorem ptr_setLocked (b : Bool) : (s.setLocked ip b).ptr = s.ptr := by
  funext jp q
  rw [ptr, addrs_setLocked]
  rfl

@[simp]
theorem needed_setLocked (b : Bool) : (s.setLocked ip b).needed = s.needed := by
  funext jp off n
  rw [needed, ptr_setLocked]
  rfl

@[simp]
theorem dataBlocks_setLocked (b : Bool) : (s.setLocked ip b).dataBlocks = s.dataBlocks := by
  funext jp off n
  rw [dataBlocks, ptr_setLocked]
  rfl

/-- Unlocking an inode that has been locked. -/
theorem setLocked_setLocked (h : (s.icache ip).locked = false) :
    (s.setLocked ip true).setLocked ip false = s := by
  rw [setLocked, icache_setLocked_self, setLocked, setInode_setInode, ← h]
  exact setInode_eq_self s ip

variable {r} in
/-- A call that fails does not advance the offset. -/
theorem advance_of_nonpos (h : r ≤ 0) : s.advance f pos r = s :=
  if_neg fun hr ↦ absurd hr.1 (by omega)

/-- Nor does one that has an offset of its own. -/
theorem advance_some (off : Word) : s.advance f (some off) r = s :=
  if_neg fun hr ↦ nomatch hr.2

@[simp]
theorem blocks_advance : (s.advance f pos r).blocks = s.blocks := by
  unfold advance
  split <;> rfl

@[simp]
theorem log_advance : (s.advance f pos r).log = s.log := by
  unfold advance
  split <;> rfl

@[simp]
theorem trace_advance : (s.advance f pos r).trace = s.trace := by
  unfold advance
  split <;> rfl

@[simp]
theorem icache_advance : (s.advance f pos r).icache = s.icache := by
  unfold advance
  split <;> rfl

@[simp]
theorem addrs_advance : (s.advance f pos r).addrs = s.addrs := by
  unfold advance
  split <;> rfl

@[simp]
theorem ptr_advance : (s.advance f pos r).ptr = s.ptr := by
  unfold advance
  split <;> rfl

@[simp]
theorem byteAt_advance : (s.advance f pos r).byteAt = s.byteAt := by
  unfold advance
  split <;> rfl

/-- Nothing else changes in the open files. -/
theorem ftable_advance (g : ℕ) :
    ∃ off, (s.advance f pos r).ftable g = { s.ftable g with off := off } := by
  rw [advance]
  split
  · rcases eq_or_ne g f with rfl | hg
    · exact ⟨_, ftable_setFile_self ..⟩
    · exact ⟨_, update_of_ne hg ..⟩
  · exact ⟨_, rfl⟩

/-- Where the next part of a call begins. -/
theorem getD_advance (h : 0 < r) :
    (pos.map (· + BitVec.ofInt 32 r)).getD ((s.advance f pos r).ftable f).off =
      pos.getD (s.ftable f).off + BitVec.ofInt 32 r := by
  cases pos with
  | none => rw [advance, if_pos ⟨h, rfl⟩, ftable_setFile_self]; rfl
  | some off => rfl

@[simp]
theorem type_advance (g : ℕ) : ((s.advance f pos r).ftable g).type = (s.ftable g).type := by
  obtain ⟨off, hoff⟩ := s.ftable_advance f pos r g
  rw [hoff]

@[simp]
theorem ip_advance (g : ℕ) : ((s.advance f pos r).ftable g).ip = (s.ftable g).ip := by
  obtain ⟨off, hoff⟩ := s.ftable_advance f pos r g
  rw [hoff]

end FsState

namespace Fs

variable {env} {ι : Type} [DecidableEq ι] {R R' : ι → ℕ → ℕ} {i : ι} {ip f : ℕ} {s t : FsState}

/-- An inode that can be locked at once, and need not be read from disk. -/
structure Ready (s : FsState) (ip : ℕ) : Prop where
  ref_pos : 1 ≤ (s.icache ip).ref
  unlocked : (s.icache ip).locked = false
  valid : (s.icache ip).valid = true

variable {Q : Unit → FsState → Prop} {E : Stop → Prop} {pos : Option Word} {sb : Superblock} {off n : ℕ}

theorem sat_ilock (h : Ready s ip) : (ilock env ip).Sat s Q E ↔ Q () (s.setLocked ip true) := by
  have href := h.ref_pos
  rw [ilock, sat_bind, sat_inode, if_neg (by omega), if_neg (by simp [h.unlocked]), modifyInode,
    sat_modify_bind, if_neg (by simp [h.valid])]
  rfl

theorem sat_iunlock (href : 1 ≤ (s.icache ip).ref) (hlocked : (s.icache ip).locked = true) :
    (iunlock ip).Sat s Q E ↔ Q () (s.setLocked ip false) := by
  rw [iunlock, sat_bind, sat_inode, if_neg]
  · rfl
  · rw [hlocked, not_or]
    exact ⟨Bool.false_ne_true ∘ Eq.symm, by omega⟩

theorem sat_unlockAfter (href : 1 ≤ (s.icache ip).ref) (hlocked : (s.icache ip).locked = true) {r : ℤ} :
    (unlockAfter f ip pos r).Sat s Q E ↔ Q () ((s.setLocked ip false).advance f pos r) := by
  rw [unlockAfter, advance]
  split
  · rw [modifyFile, sat_modify_bind]
    exact sat_iunlock (s := s.setFile f _) href hlocked
  · exact sat_iunlock href hlocked

/-- Locking before a write and unlocking after it does not show. -/
theorem Written.unlock {src : ℕ → Byte} {l : List Growth} (hunlocked : (s.icache ip).locked = false)
    (h : Written sb R i ip (s.setLocked ip true) off src n l R' t) :
    Written sb R i ip s off src n l R' (t.setLocked ip false) where
  toExtended := h.toExtended.congr_blocks rfl rfl
  bytes := h.bytes
  needed := by
    rw [h.needed, needed_setLocked]
  mapped := by
    rw [ptr_setLocked]
    exact h.mapped
  roots := by
    have hroots := h.roots
    rw [addrs_setLocked] at hroots ⊢
    exact hroots
  icache_ne := fun jp hjp ↦ by
    rw [icache_setLocked_of_ne _ _ _ hjp, h.icache_ne jp hjp,
      icache_setLocked_of_ne _ _ _ hjp]
  icache_eq := by
    obtain ⟨a, ha⟩ := h.icache_eq
    refine ⟨a, ?_⟩
    rw [icache_setLocked_self, ha, icache_setLocked_self, ← hunlocked]
  ftable := h.ftable
  logged := by
    have hlogged := h.logged
    rw [icache_setLocked_self] at hlogged
    rw [dataBlocks_setLocked]
    exact { hlogged with }
  inode_eq := by
    have hinode := h.inode_eq
    rw [icache_setLocked_self] at hinode ⊢
    exact hinode
  frame := by
    have hframe := h.frame
    rw [icache_setLocked_self] at hframe
    rw [dataBlocks_setLocked]
    exact hframe

theorem RangeFails.setLocked {e : Stop} {b : Bool} (h : RangeFails sb (s.setLocked ip b) ip off n e) :
    RangeFails sb s ip off n e := by
  rw [RangeFails, needed_setLocked] at h
  exact h

/-- A locked write to a file writes the range. -/
theorem lockedWrite_sat (h : Owned env.sb R s) (hR : R i = s.addrs (s.ftable f).ip) (hnodup : s.log.lh.Nodup)
    (hready : Ready s (s.ftable f).ip) (hinum : (s.icache (s.ftable f).ip).inum < env.sb.ninodes)
    (htype : (s.icache (s.ftable f).ip).type ≠ T_DEV) {src : ℕ → Byte}
    (hsafe : (pos.getD (s.ftable f).off).toNat + n ≤ SAFEBYTES) : (lockedWrite env f src n pos).Sat s
      (fun r t ↦ r = n ∧ ∃ l u, Written env.sb R i (s.ftable f).ip s
        (pos.getD (s.ftable f).off).toNat src n l (update R i (u.addrs (s.ftable f).ip)) u ∧
        t = u.advance f pos n)
      (RangeFails env.sb s (s.ftable f).ip (pos.getD (s.ftable f).off).toNat n) := by
  have hS : SAFEBYTES = 16847872 := rfl
  have hn : (BitVec.ofInt 32 n).toNat = n := by
    rw [BitVec.toNat_ofInt]
    omega
  have hlock : Owned env.sb R (s.setLocked (s.ftable f).ip true) := h.congr_blocks rfl
  have hR' : R i = (s.setLocked (s.ftable f).ip true).addrs (s.ftable f).ip := by
    rw [addrs_setLocked, hR]
  rw [lockedWrite]
  show Prog.Sat (ilock env (s.ftable f).ip >>= _) s _ _
  rw [sat_bind, sat_ilock hready]
  refine Prog.Sat.bind ((writei_sat hlock hR' hnodup ?_ ?_ ?_).imp_error
    fun e he ↦ ?_) ?_
  · rwa [icache_setLocked_self]
  · rwa [icache_setLocked_self]
  · rwa [hn]
  · rw [hn] at he
    exact he.setLocked
  rintro r u ⟨rfl, l, hw⟩
  rw [hn] at hw ⊢
  obtain ⟨a, ha⟩ := hw.icache_eq
  rw [icache_setLocked_self] at ha
  rw [sat_bind, sat_unlockAfter (by rw [ha]; exact hready.ref_pos) (by rw [ha])]
  refine ⟨rfl, l, u.setLocked (s.ftable f).ip false, ?_, rfl⟩
  rw [addrs_setLocked]
  exact hw.unlock hready.unlocked

/-- A read has put blocks where there was none. -/
structure ReadGrown (sb : Superblock) (R : ι → ℕ → ℕ) (i : ι) (ip : ℕ) (s : FsState) (off n : ℕ)
    (l : List Growth) (t : FsState) : Prop
    extends Grown sb R i s l (update R i (t.addrs ip)) t where
  /-- The new blocks are at the positions where there was none. -/
  needed : (l.map Growth.pos).toFinset = s.needed ip off n
  /-- In memory only the block addresses have changed. -/
  memory : SameMemory ip s t
  /-- What has been logged. -/
  logged : Logged s (footprint l) t
  /-- Without new blocks nothing has changed at all. -/
  eq_of_nil : l = [] → t = s
  /-- New blocks can be had within an operation only. -/
  outstanding : l ≠ [] → 1 ≤ s.log.outstanding

theorem ReadGrown.of_locked {l : List Growth} {u : FsState} (h : Owned sb R s) (hR : R i = s.addrs ip)
    (hunlocked : (s.icache ip).locked = false) (hl : Grows sb ip (s.setLocked ip true) l u)
    (hpos : (l.map Growth.pos).toFinset = s.needed ip off n) (hop : l ≠ [] → 1 ≤ s.log.outstanding) :
    ReadGrown sb R i ip s off n l (u.setLocked ip false) := by
  have hR' : R i = (s.setLocked ip true).addrs ip := by rw [addrs_setLocked, hR]
  have hlock : Owned sb R (s.setLocked ip true) := h.congr_blocks rfl
  have hmem := hl.sameMemory
  refine ⟨?_, hpos, ⟨fun jp hjp ↦ ?_, ?_, hmem.ftable⟩, ?_, ?_, hop⟩
  · rw [addrs_setLocked]
    exact (hlock.grows hR' hl).congr_blocks rfl rfl
  · rw [icache_setLocked_of_ne _ _ _ hjp, hmem.icache_ne jp hjp,
      icache_setLocked_of_ne _ _ _ hjp]
  · obtain ⟨a, ha⟩ := hmem.icache_eq
    refine ⟨a, ?_⟩
    rw [icache_setLocked_self, ha, icache_setLocked_self, ← hunlocked]
  · have hlogged := hl.logged
    exact { hlogged with }
  · rintro rfl
    cases hl
    exact s.setLocked_setLocked ip hunlocked

/-- A locked read of a file delivers the bytes of the range, as far as the file goes. -/
theorem lockedRead_sat (h : Owned env.sb R s) (hR : R i = s.addrs (s.ftable f).ip) (hnodup : s.log.lh.Nodup)
    (hready : Ready s (s.ftable f).ip) (htype : (s.icache (s.ftable f).ip).type ≠ T_DEV)
    (hsize : (s.icache (s.ftable f).ip).size.toNat ≤ SAFEBYTES) {n : ℤ} {off : Word}
    (hoff : off = pos.getD (s.ftable f).off) {d : Dinode} (hd : d = (s.icache (s.ftable f).ip).toDinode)
    {m : ℕ} (hm : m = readCount d off (BitVec.ofInt 32 n)) : (lockedRead env f n pos).Sat s (fun out t ↦
        if ReadRefused d off (BitVec.ofInt 32 n) then out = (-1, []) ∧ t = s else out = ((m : ℤ),
            (List.range m).map fun j ↦ s.byteAt (s.addrs (s.ftable f).ip) (off.toNat + j)) ∧
          ∃ l u, ReadGrown env.sb R i (s.ftable f).ip s off.toNat m l u ∧ t = u.advance f pos m)
      fun e ↦ ¬ReadRefused d off (BitVec.ofInt 32 n) ∧ (s.needed (s.ftable f).ip off.toNat m).Nonempty ∧
        RangeFails env.sb s (s.ftable f).ip off.toNat m e := by
  have hlock : Owned env.sb R (s.setLocked (s.ftable f).ip true) := h.congr_blocks rfl
  have hR' : R i = (s.setLocked (s.ftable f).ip true).addrs (s.ftable f).ip := by
    rw [addrs_setLocked, hR]
  have hinode := s.icache_setLocked_self (s.ftable f).ip true
  have hd' : d = ((s.setLocked (s.ftable f).ip true).icache (s.ftable f).ip).toDinode := by
    rw [hinode, hd]
  rw [lockedRead]
  show Prog.Sat (ilock env (s.ftable f).ip >>= _) s _ _
  rw [sat_bind, sat_ilock hready]
  refine Prog.Sat.bind ((readi_sat hlock hR' hnodup (by rwa [hinode]) (by rwa [hinode])
    _ _).imp_error fun e he ↦ ?_) ?_
  · rw [← hd', ← hoff, ← hm, needed_setLocked] at he
    exact ⟨he.1, he.2.1, he.2.2.rangeFails.setLocked⟩
  · intro out u hu
    rw [← hd', ← hoff, ← hm] at hu
    split at hu
    next href =>
      obtain ⟨rfl, rfl⟩ := hu
      rw [sat_bind, sat_unlockAfter (by rw [hinode]; exact hready.ref_pos) (by rw [hinode]),
        sat_pure, if_pos href, s.setLocked_setLocked _ hready.unlocked]
      exact ⟨rfl, advance_of_nonpos s f pos (by omega)⟩
    next hok =>
      obtain ⟨rfl, l, hl, hpos, hop⟩ := hu
      rw [needed_setLocked] at hpos
      obtain ⟨a, ha⟩ := hl.sameMemory.icache_eq
      rw [hinode] at ha
      rw [sat_bind, sat_unlockAfter (by rw [ha]; exact hready.ref_pos) (by rw [ha]),
        sat_pure, if_neg hok, addrs_setLocked]
      exact ⟨rfl, l, _, .of_locked h hR hready.unlocked hl hpos hop, rfl⟩

/-! ### Devices -/

theorem writei_dev (htype : (s.icache ip).type = T_DEV) (src : ℕ → Byte) (off n : Word) :
    (writei env ip src off n).Sat s (fun _ t ↦ t = s) fun _ ↦ False := by
  rw [writei, sat_bind, sat_inode, if_pos htype]
  split
  · rfl
  · split <;> rfl

theorem readi_dev (htype : (s.icache ip).type = T_DEV) (off n : Word) :
    (readi env ip off n).Sat s (fun _ t ↦ t = s) fun _ ↦ False := by
  rw [readi, sat_bind, sat_inode, if_pos htype]
  split
  · rfl
  · split <;> rfl

/-- A write to a device leaves the file system alone. -/
theorem lockedWrite_dev (hready : Ready s (s.ftable f).ip)
    (htype : (s.icache (s.ftable f).ip).type = T_DEV) (src : ℕ → Byte) (n : ℤ) (pos : Option Word) :
    (lockedWrite env f src n pos).Sat s (fun r t ↦ t = s.advance f pos r) fun _ ↦ False := by
  have hinode := s.icache_setLocked_self (s.ftable f).ip true
  rw [lockedWrite]
  show Prog.Sat (ilock env (s.ftable f).ip >>= _) s _ _
  rw [sat_bind, sat_ilock hready]
  refine (writei_dev (by rw [hinode, htype]) _ _ _).bind ?_
  rintro r - rfl
  rw [sat_bind, sat_unlockAfter (by rw [hinode]; exact hready.ref_pos) (by rw [hinode]),
    s.setLocked_setLocked _ hready.unlocked]
  rfl

/-- So does a read. -/
theorem lockedRead_dev (hready : Ready s (s.ftable f).ip)
    (htype : (s.icache (s.ftable f).ip).type = T_DEV) (n : ℤ) (pos : Option Word) :
    (lockedRead env f n pos).Sat s (fun out t ↦ t = s.advance f pos out.1) fun _ ↦ False := by
  have hinode := s.icache_setLocked_self (s.ftable f).ip true
  rw [lockedRead]
  show Prog.Sat (ilock env (s.ftable f).ip >>= _) s _ _
  rw [sat_bind, sat_ilock hready]
  refine (readi_dev (by rw [hinode, htype]) _ _).bind ?_
  rintro out - rfl
  rw [sat_bind, sat_unlockAfter (by rw [hinode]; exact hready.ref_pos) (by rw [hinode]),
    s.setLocked_setLocked _ hready.unlocked]
  rfl

/-! ### The loop of a write -/

/-- The rule for the loop: `P i pos` is what holds before the chunk at `i`, and `Q` is what holds of the result when the
loop is left. -/
theorem writeChunks_rule {P : ℤ → Option Word → FsState → Prop} {Q : ℤ → FsState → Prop} {addr : ℕ → Byte}
    {n i : ℤ} (h : P i pos s) (hP : ∀ {i pos s}, n ≤ i → P i pos s → Q (if i = n then n else -1) s)
    (step : ∀ {i pos s}, i < n → P i pos s →
      (writeChunk env f (fun j ↦ addr (i.toNat + j)) (min (n - i) maxChunk) pos).Sat s
        (fun r t ↦ (r < 0 → Q (-1) t) ∧ (0 ≤ r → r ≠ min (n - i) maxChunk → E (.panic .shortFilewrite)) ∧
          (r = min (n - i) maxChunk →
            P (i + min (n - i) maxChunk) (pos.map (· + BitVec.ofInt 32 r)) t)) E) :
    (writeChunks env f addr n i pos).Sat s Q E := by
  induction hk : (n - i).toNat using Nat.strong_induction_on generalizing i pos s with
  | _ k ih =>
    rw [writeChunks]
    split
    next hi =>
      refine (step hi h).bind fun r t ⟨hQ, hE, hnext⟩ ↦ ?_
      split
      next hr =>
        rw [if_neg (by omega)]
        exact hQ hr
      next hr =>
        split
        next hne => exact hE (by omega) hne
        next heq =>
          rw [ne_eq, not_not] at heq
          have hmax : maxChunk = 1536 := rfl
          exact ih _ (by omega) (hnext heq) rfl
    next hi => exact hP (Int.le_of_not_gt hi) h

end Fs

/-! ### The open files -/

/-- The file is open on an inode. -/
def FsState.OnInode (s : FsState) (f : ℕ) : Prop := (s.ftable f).type = .inode

instance (s : FsState) (f : ℕ) : Decidable (s.OnInode f) := inferInstanceAs (Decidable (_ = _))

/-- The open files are in order: their inodes can be locked and their trees are owned. The trees are
given by `R`, at the index of the inode in the cache; at an index that no open file uses, `R` may
have the tree of any other inode. -/
structure Opened (sb : Superblock) (R : ℕ → ℕ → ℕ) (s : FsState) : Prop where
  owned : Owned sb R s
  nodup : s.log.lh.Nodup
  ready : ∀ f, s.OnInode f → Fs.Ready s (s.ftable f).ip
  inum_lt : ∀ f, s.OnInode f → (s.icache (s.ftable f).ip).inum < sb.ninodes
  roots : ∀ f, s.OnInode f → R (s.ftable f).ip = s.addrs (s.ftable f).ip

namespace Opened

variable {sb : Superblock} {R : ℕ → ℕ → ℕ} {s t : FsState}

theorem advance (h : Opened sb R s) (f : ℕ) (pos : Option Word) (r : ℤ) :
    Opened sb R (s.advance f pos r) := by
  refine ⟨h.owned.congr_blocks (s.blocks_advance f pos r), ?_, fun g hg ↦ ?_, fun g hg ↦ ?_,
    fun g hg ↦ ?_⟩
  · rw [s.log_advance]
    exact h.nodup
  · rw [FsState.OnInode, s.type_advance] at hg
    obtain ⟨href, hlocked, hvalid⟩ := h.ready g hg
    rw [s.ip_advance]
    exact ⟨by rwa [s.icache_advance], by rwa [s.icache_advance], by rwa [s.icache_advance]⟩
  · rw [FsState.OnInode, s.type_advance] at hg
    rw [s.ip_advance, s.icache_advance]
    exact h.inum_lt g hg
  · rw [FsState.OnInode, s.type_advance] at hg
    rw [s.ip_advance, s.addrs_advance]
    exact h.roots g hg

/-- Block addresses and size of one inode change. -/
theorem setInode (h : Opened sb R s) {ip : ℕ} (howned : Owned sb (update R ip (t.addrs ip)) t)
    (hnodup : t.log.lh.Nodup) (hne : ∀ jp ≠ ip, t.icache jp = s.icache jp)
    (heq : ∃ a z, t.icache ip = { s.icache ip with addrs := a, size := z })
    (hft : t.ftable = s.ftable) : Opened sb (update R ip (t.addrs ip)) t := by
  obtain ⟨a, z, heq⟩ := heq
  have hsame (jp : ℕ) : (t.icache jp).ref = (s.icache jp).ref ∧
      (t.icache jp).locked = (s.icache jp).locked ∧ (t.icache jp).valid = (s.icache jp).valid ∧
      (t.icache jp).inum = (s.icache jp).inum := by
    rcases eq_or_ne jp ip with rfl | hjp
    · rw [heq]
      exact ⟨rfl, rfl, rfl, rfl⟩
    · rw [hne jp hjp]
      exact ⟨rfl, rfl, rfl, rfl⟩
  refine ⟨howned, hnodup, fun g hg ↦ ?_, fun g hg ↦ ?_, fun g hg ↦ ?_⟩
  · rw [FsState.OnInode, hft] at hg
    obtain ⟨href, hlocked, hvalid, -⟩ := hsame (s.ftable g).ip
    rw [hft]
    exact ⟨href ▸ (h.ready g hg).ref_pos, hlocked.trans (h.ready g hg).unlocked,
      hvalid.trans (h.ready g hg).valid⟩
  · rw [FsState.OnInode, hft] at hg
    rw [hft, (hsame _).2.2.2]
    exact h.inum_lt g hg
  · rw [FsState.OnInode, hft] at hg
    rw [hft]
    rcases eq_or_ne (s.ftable g).ip ip with hip | hip
    · rw [hip, update_self]
    · rw [update_of_ne hip, h.roots g hg]
      funext k
      rw [addrs, addrs, hne _ hip]

theorem written (h : Opened sb R s) {ip off n : ℕ} {src : ℕ → Byte} {l : List Growth}
    (hw : Fs.Written sb R ip ip s off src n l (update R ip (t.addrs ip)) t) :
    Opened sb (update R ip (t.addrs ip)) t := by
  obtain ⟨a, ha⟩ := hw.icache_eq
  exact h.setInode hw.owned (hw.logged.nodup h.nodup) hw.icache_ne ⟨a, _, ha⟩ hw.ftable

/-- Operations begin and end. -/
theorem setLog (h : Opened sb R s) {log : Log} (hlog : log.lh.Nodup) :
    Opened sb R { s with log := log } where
  owned := h.owned.congr_blocks rfl
  nodup := hlog
  ready := fun f hf ↦ ⟨(h.ready f hf).ref_pos, (h.ready f hf).unlocked, (h.ready f hf).valid⟩
  inum_lt := h.inum_lt
  roots := h.roots

end Opened

/-! ### A file system with one open file -/

/-- The disk of `mkfs` with an empty file, which is open for reading and writing. -/
def oneFile : FsState where
  blocks := update (markedDisk nmeta) (mkfsSuperblock.IBLOCK 2)
    (Block.zero.setDinode 2 { Dinode.zero with type := T_FILE, nlink := 1 })
  log := Log.init mkfsSuperblock
  trace := []
  icache := fun ip ↦
    if ip = 0 then
      { Dinode.zero with
        type := T_FILE, nlink := 1, inum := 2, ref := 1, locked := false, valid := true }
    else
      { Dinode.zero with inum := 0, ref := 0, locked := false, valid := false }
  ftable := fun f ↦
    if f = 0 then ⟨.inode, 1, true, true, 0, 0, 0⟩ else ⟨.none, 0, false, false, 0, 0, 0⟩

theorem blocks_oneFile {c : ℕ} (hc : mkfsSuperblock.bmapstart ≤ c) :
    oneFile.blocks c = markedDisk nmeta c := by
  refine update_of_ne ?_ ..
  have := mkfsSuperblock.IBLOCK_lt_bmapstart (show 2 < mkfsSuperblock.ninodes by decide)
  omega

theorem eq_zero_of_onInode_oneFile {f : ℕ} (hf : oneFile.OnInode f) : f = 0 := by
  by_contra hne
  have htype : (oneFile.ftable f).type = .none := by
    show File.type (if f = 0 then _ else _) = _
    rw [if_neg hne]
  rw [FsState.OnInode, htype] at hf
  cases hf

theorem opened_oneFile : Opened mkfsEnv.sb (fun _ _ ↦ 0) oneFile := by
  refine ⟨.of_null (fun _ _ ↦ rfl) fun b hb ↦ ?_, List.nodup_nil, fun f hf ↦ ?_, fun f hf ↦ ?_, fun f hf ↦ ?_⟩
  · exact (used_markedDisk (fun c ↦ blocks_oneFile) (by decide)).2 (mkfsSuperblock_dataStart ▸ hb)
  · obtain rfl := eq_zero_of_onInode_oneFile hf
    exact ⟨le_refl 1, rfl, rfl⟩
  · obtain rfl := eq_zero_of_onInode_oneFile hf
    show 2 < 200
    omega
  · obtain rfl := eq_zero_of_onInode_oneFile hf
    funext k
    rw [addrs, Dinode.addr]
    split <;> rfl

theorem card_freeBlocks_oneFile : (oneFile.freeBlocks mkfsSuperblock).card = 39932 :=
  card_freeBlocks_markedDisk (fun _ ↦ blocks_oneFile) (by decide)

end Xv6
