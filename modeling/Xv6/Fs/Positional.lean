import Xv6.Fs.Bytes

/-!
# Reads and writes at a position

`pread` and `pwrite` keep the offset in an argument of the call, `fileread` and `filewrite` in `f->off`. Nothing below
them looks at the offset of an open file (`Prog.Commutes`), so that a call at a position does what a call from there
does, up to `f->off` (`Fs.pwriteAgrees_of_clear`, `Fs.preadAgrees_of_clear`). The one place where the code reads
something else is behind the end of an indirect block. If what it finds there may depend on `f->off`, a call that goes
there can stop for another reason than its counterpart (`Loops`), and the conditions on `n` and the offset are exact
(`writesInOrder_iff`, `readsInOrder_iff`).

A write goes through its bytes in chunks, each in an operation of its own. Below `SAFEBYTES` the chunks together are
one patch of the file, as one call of `writei` is (`filewrite_patch`).
-/

namespace Xv6

open SparseArray Function

/-! ### The offset of an open file -/

namespace FsState

variable (s : FsState) (f : ℕ) (w : Word)

/-- Set `f->off`. -/
def setOff (s : FsState) (f : ℕ) (w : Word) : FsState :=
  s.setFile f { s.ftable f with off := w }

theorem file_advance (pos : Option Word) (r : ℤ) : (s.advance f pos r).file = s.file := by
  funext ip
  rw [file, file, byteAt_advance, addrs_advance, icache_advance]

end FsState

/-- The file is open on an inode that is not a device and has been read from disk. -/
def FsState.Regular (s : FsState) (f : ℕ) : Prop :=
  s.OnInode f ∧ (s.icache (s.ftable f).ip).valid = true ∧ (s.icache (s.ftable f).ip).type ≠ T_DEV

/-- What is found behind the end of an indirect block does not depend on the offsets of open files. -/
def Ignores (env : Env) : Prop :=
  ∀ s f w, env.stray (s.setOff f w) = env.stray s

namespace Fs

open FsState

variable {env : Env} {f : ℕ} {w : Word}

section Commutes

variable {ip off n : ℕ}

/-- A loop through `n` bytes from `off` on does not look behind an indirect block, or it does not matter what is
there. -/
def Clear (env : Env) (off n : ℕ) : Prop :=
  n = 0 ∨ off + n ≤ SAFEBYTES ∨ MAXFILE * BSIZE ≤ off ∨ Ignores env

theorem Clear.mono {m : ℕ} (h : Clear env off n) (hm : m ≤ n) : Clear env off m :=
  h.imp (fun hn ↦ by omega) (.imp_left fun hsafe ↦ by omega)

theorem Clear.first (h : Clear env off n) (hn : n ≠ 0) :
    off / BSIZE < SAFEBLOCKS ∨ MAXFILE ≤ off / BSIZE ∨ Ignores env :=
  (h.resolve_left hn).imp (fun hsafe ↦ div_BSIZE_lt (by omega))
    (.imp_left fun hmax ↦ (Nat.le_div_iff_mul_le (by decide)).2 hmax)

theorem Clear.rest {m : ℕ} (h : Clear env off n) (hm : m ≤ n) : Clear env (off + m) (n - m) :=
  h.imp (fun hn ↦ by omega) (.imp (fun hsafe ↦ by omega) (.imp_left fun hmax ↦ by omega))

end Commutes

/-! ### Calls -/

/-- Where `f->off` is after a part of a call that returned `r`. A call with an offset of its own leaves it alone. -/
def movedOff (p : Option Word) (v : Word) (r : ℤ) : Word :=
  if 0 < r ∧ p = none then v + BitVec.ofInt 32 r else v

variable {off v : Word} {p : Option Word} {src addr : ℕ → Byte} {n1 n i : ℤ} {s : FsState}

theorem movedOff_some (r : ℤ) : movedOff (some off) v r = v :=
  if_neg fun h ↦ nomatch h.2

/-! A call at `off` beside one that starts at `off` as well, because `f->off` is there or because it has an offset of
its own: at the end the states differ in `f->off` only. -/

/-- Nothing of a write of `n1` bytes at `off` depends on what is behind an indirect block. -/
def ChunkClear (env : Env) (off : Word) (n1 : ℤ) : Prop :=
  MAXFILE * BSIZE < off.toNat + (BitVec.ofInt 32 n1).toNat ∨ Clear env off.toNat (BitVec.ofInt 32 n1).toNat

/-- A chunk that goes beyond the largest file is refused. -/
theorem writeChunk_refused (hf : s.Regular f) (hn1 : 0 < n1 ∧ n1 ≤ maxChunk)
    (h : MAXFILE * BSIZE < off.toNat + n1.toNat) :
    (writeChunk env f src n1 (some off)).Sat s (fun r _ ↦ r < 0) fun _ ↦ True := by
  have hmax : maxChunk = 1536 := rfl
  have hM : MAXFILE * BSIZE = 1082201088 := rfl
  have hoff := off.isLt
  have hword : (BitVec.ofInt 32 n1).toNat = n1.toNat := by
    rw [BitVec.toNat_ofInt]
    omega
  have hilock {t : FsState} (hvalid : (t.icache (s.ftable f).ip).valid = true)
      (htype : (t.icache (s.ftable f).ip).type ≠ T_DEV) : (ilock env (s.ftable f).ip).Sat t
        (fun _ u ↦ (u.icache (s.ftable f).ip).type ≠ T_DEV) fun _ ↦ True := by
    rw [ilock, Prog.sat_bind, sat_inode]
    split
    · trivial
    · split
      · trivial
      · rw [modifyInode, Prog.sat_modify_bind, if_neg (by simp [hvalid])]
        show ((t.setInode _ _).icache _).type ≠ T_DEV
        rwa [icache_setInode_self]
  refine (beginOp_sat.imp_error fun _ _ ↦ trivial).bind fun _ t ht ↦ ?_
  obtain ⟨-, -, ht⟩ := ht
  rw [Prog.sat_bind, lockedWrite]
  show Prog.Sat (ilock env (t.ftable f).ip >>= _) t _ _
  rw [show t.ftable f = s.ftable f by rw [ht]]
  refine (hilock (by rw [ht]; exact hf.2.1) (by rw [ht]; exact hf.2.2)).bind fun _ u hu ↦ ?_
  have hrefused : (writei env (s.ftable f).ip src off (BitVec.ofInt 32 n1)).Sat u (fun r _ ↦ r < 0) fun _ ↦ True := by
    rw [writei, Prog.sat_bind, sat_inode, if_neg hu]
    split
    · exact Int.negSucc_lt_zero 0
    next hwrap =>
      rw [BitVec.lt_def, BitVec.toNat_add, hword] at hwrap
      rw [if_pos (by rw [BitVec.toNat_add, hword]; omega)]
      exact Int.negSucc_lt_zero 0
  exact hrefused.bind fun r _ hr ↦ (Prog.sat_true _ _).bind fun _ _ _ ↦ (Prog.sat_true _ _).bind fun _ _ _ ↦ hr

/-- Nothing of the rest of a write depends on what is behind an indirect block: it is over, the rest of the range is
below the limit, or the next chunk is refused. -/
def RestClear (env : Env) (f : ℕ) (s : FsState) (off : Word) (n : ℤ) : Prop :=
  n ≤ 0 ∨ off.toNat + n.toNat ≤ SAFEBYTES ∨ Ignores env ∨
    MAXFILE * BSIZE < off.toNat + (min n maxChunk).toNat ∧ s.Regular f

/-- The next chunk, and what is left after it. -/
theorem RestClear.chunk (h : RestClear env f s off n) (hn : 0 < n) (src : ℕ → Byte) :
    ChunkClear env off (min n maxChunk) ∧
    (writeChunk env f src (min n maxChunk) (some off)).Sat s
      (fun r _ ↦ r = min n maxChunk → ∀ t, RestClear env f t (off + BitVec.ofInt 32 r) (n - min n maxChunk))
      fun _ ↦ True := by
  have hmax : maxChunk = 1536 := rfl
  have hS : SAFEBYTES = 16847872 := rfl
  have hn1 : (BitVec.ofInt 32 (min n maxChunk)).toNat = (min n maxChunk).toNat := by
    rw [BitVec.toNat_ofInt]
    omega
  rcases h with h | hsafe | hstray | hrefused
  · omega
  · refine ⟨.inr (.inr (.inl (by omega))), (Prog.sat_true _ _).imp fun r _ _ hr t ↦ .inr (.inl ?_)⟩
    rw [hr, BitVec.toNat_add, hn1]
    omega
  · exact ⟨.inr (.inr (.inr (.inr hstray))), (Prog.sat_true _ _).imp fun r _ _ _ t ↦ .inr (.inr (.inl hstray))⟩
  · refine ⟨.inl (by rw [hn1]; exact hrefused.1), (writeChunk_refused hrefused.2 (by omega) hrefused.1).imp ?_⟩
    intro r _ hr heq
    omega

/-- `i` bytes of a write of `addr` to inode `*ip`, from `off` on, have been written; the file was `f₀` before. -/
structure WrittenUpTo (env : Env) (f ip off : ℕ) (f₀ : SparseArray Byte) (addr : ℕ → Byte) (i : ℤ)
    (pos : Option Word) (s : FsState) : Prop where
  opened : ∃ R, Opened env.sb R s
  onInode : s.OnInode f
  ip_eq : (s.ftable f).ip = ip
  type_ne : (s.icache ip).type ≠ T_DEV
  size_le : (s.icache ip).size.toNat ≤ SAFEBYTES
  off_eq : (pos.getD (s.ftable f).off).toNat = off + i.toNat
  agree : AgreeBelow SAFEBYTES (s.file ip) (f₀.patch ⟨off, i.toNat, addr⟩)

namespace WrittenUpTo

variable {ip off : ℕ} {f₀ : SparseArray Byte} {addr : ℕ → Byte} {i : ℤ} {pos : Option Word}
  {s t : FsState}

section

variable (h : WrittenUpTo env f ip off f₀ addr i pos s)

include h

theorem setLog {log : Log} (hlog : log.lh.Nodup) :
    WrittenUpTo env f ip off f₀ addr i pos { s with log := log } := by
  obtain ⟨R, hopened⟩ := h.opened
  exact { h with opened := ⟨R, hopened.setLog hlog⟩ }

/-- One more part. -/
theorem lockedWrite (hi : 0 ≤ i) {m : ℕ} (hm : 0 < m) (hsafe : off + i.toNat + m ≤ SAFEBYTES) :
    (Fs.lockedWrite env f (fun j ↦ addr (i.toNat + j)) m pos).Sat s
      (fun r t ↦ WrittenUpTo env f ip off f₀ addr (i + m) (pos.map (· + BitVec.ofInt 32 r)) t)
      fun _ ↦ True := by
  obtain ⟨R, hopened⟩ := h.opened
  have hip := h.ip_eq
  subst hip
  have hS : SAFEBYTES = 16847872 := rfl
  have hoff := h.off_eq
  refine (lockedWrite_sat hopened.owned (hopened.roots f h.onInode) hopened.nodup
    (hopened.ready f h.onInode) (hopened.inum_lt f h.onInode) h.type_ne (by omega)).mono
      (fun r t ht ↦ ?_) fun _ _ ↦ trivial
  obtain ⟨rfl, l, u, hw, rfl⟩ := ht
  have hfile : FileOk env.sb (s.ftable f).ip (s.ftable f).ip s :=
    ⟨⟨R, hopened.owned, hopened.roots f h.onInode⟩, hopened.nodup, hopened.inum_lt f h.onInode,
      h.type_ne, h.size_le⟩
  obtain ⟨hfile', hpatch⟩ := hfile.written (by omega) hw
  have hicache := u.icache_advance f pos m
  refine ⟨⟨_, (hopened.written hw).advance f pos m⟩, ?_, ?_, ?_, ?_, ?_, ?_⟩
  · rw [OnInode, u.type_advance, hw.ftable]
    exact h.onInode
  · rw [u.ip_advance, hw.ftable]
  · rw [hicache]
    exact hfile'.type_ne
  · rw [hicache]
    exact hfile'.size_le
  · rw [u.getD_advance f pos m (by omega), hw.ftable, BitVec.toNat_add, BitVec.toNat_ofInt, hoff]
    omega
  · rw [u.file_advance, show (i + m).toNat = i.toNat + m by omega, ← patch_patch]
    rw [hoff] at hpatch
    exact hpatch.trans (h.agree.patch _)

/-- One more chunk. -/
theorem writeChunk (hi : 0 ≤ i) {m : ℕ} (hm : 0 < m) (hsafe : off + i.toNat + m ≤ SAFEBYTES) :
    (Fs.writeChunk env f (fun j ↦ addr (i.toNat + j)) m pos).Sat s
      (fun r t ↦ WrittenUpTo env f ip off f₀ addr (i + m) (pos.map (· + BitVec.ofInt 32 r)) t)
      fun _ ↦ True := by
  obtain ⟨R, hopened⟩ := h.opened
  refine beginOp_sat.bind_true fun _ s₁ hs₁ ↦ ?_
  obtain ⟨-, -, rfl⟩ := hs₁
  have hbegun : WrittenUpTo env f ip off f₀ addr i pos
      { s with log := { s.log with outstanding := s.log.outstanding + 1 } } := h.setLog hopened.nodup
  refine (hbegun.lockedWrite hi hm hsafe).bind fun r t ht ↦ ?_
  obtain ⟨R', hopened'⟩ := ht.opened
  refine endOp_sat.bind_true fun _ t' ht' ↦ ?_
  subst ht'
  exact ht.setLog (nodup_afterEnd hopened'.nodup)

end

/-- All chunks together are one patch. -/
theorem writeChunks {n : ℤ} (h : WrittenUpTo env f ip off f₀ addr 0 pos s) (hn : 0 ≤ n)
    (hsafe : off + n.toNat ≤ SAFEBYTES) : (Fs.writeChunks env f addr n 0 pos).Sat s
      (fun r t ↦ r = n → AgreeBelow SAFEBYTES (t.file ip) (f₀.patch ⟨off, n.toNat, addr⟩))
      fun _ ↦ True := by
  refine writeChunks_rule (P := fun i pos s ↦ 0 ≤ i ∧ i ≤ n ∧ WrittenUpTo env f ip off f₀ addr i pos s) ⟨le_refl 0, hn, h⟩
    (fun hge h _ ↦ (le_antisymm h.2.1 hge ▸ h.2.2).agree) fun {i pos s} hlt h ↦ ?_
  have hmax : maxChunk = 1536 := rfl
  obtain ⟨m, hm⟩ : ∃ m : ℕ, min (n - i) maxChunk = m := ⟨(min (n - i) maxChunk).toNat, by omega⟩
  rw [hm]
  exact (h.2.2.writeChunk h.1 (by omega) (by omega)).imp fun r t ht ↦
    ⟨fun _ hr ↦ absurd hr (by omega), fun _ _ ↦ trivial, fun _ ↦ ⟨by omega, by omega, ht⟩⟩

end WrittenUpTo

end Fs

/-! ### A call that looks behind an indirect block -/

/-- The bytes of a block whose entries all name block 1, from byte `o` on. -/
def loopBytes (o j : ℕ) : Byte := if (o + j) % 4 = 0 then 1 else 0

/-- The entries of block 1 all name block 1 itself, and no block is free. -/
def loopDisk (b : ℕ) : Block := ⟨fun i ↦ if b = 1 then loopBytes 0 i else 255⟩

/-- An inode whose entries all name block 1. -/
def loopInode (locked : Bool) : Inode :=
  { Dinode.zero with
    type := T_FILE, size := -1, addrs := fun _ ↦ 1, inum := 0, ref := 1, locked := locked, valid := true }

/-- The offset `w` is even or odd like `off`. -/
def SameParity (off w : Word) : Prop := w.toNat % 2 = off.toNat % 2

instance (off w : Word) : Decidable (SameParity off w) := inferInstanceAs (Decidable (_ = _))

/-- What is behind the end of an indirect block depends on whether `f->off` is even or odd like `off`. -/
def strayEnv (off : Word) : Env :=
  { mkfsEnv with stray := fun s _ _ ↦ if SameParity off (s.ftable 0).off then -1 else 0 }

/-- Why `bmap` stops when it gets there: there is no such block, or no free block. -/
def strayStop (off w : Word) : Stop := .panic (if SameParity off w then .incorrectBlockno else .outOfBlocks)

/-- File 0 is open on an inode whose tree is block 1, `f->off` is `w`, and `k` operations are in progress. -/
structure Loops (w : Word) (k : ℤ) (locked : Bool) (s : FsState) : Prop where
  blocks : s.blocks = loopDisk
  inode : s.icache 0 = loopInode locked
  file : s.ftable 0 = ⟨.inode, 1, true, true, 0, 0, w⟩
  log : s.log = ⟨LOGSIZE, k, false, [1]⟩

theorem word_loopDisk {i : ℕ} (hi : i < NINDIRECT) : (loopDisk 1).word i = 1 := by
  have h : ∀ i < 128, (loopDisk 1).word i = 1 := by decide +kernel
  exact h i hi

/-- Storing the bytes of block 1 at their places does nothing. -/
theorem copyIn_loopDisk {o m : ℕ} {src : ℕ → Byte} (hsrc : ∀ j, src j = loopBytes o j) :
    (loopDisk 1).copyIn (o % BSIZE) ((List.range m).map src) = loopDisk 1 := by
  refine Block.ext (funext fun i ↦ ?_)
  show (if _ then _ else _) = _
  split
  next h =>
    rw [List.length_map, List.length_range] at h
    have hlt : i - o % BSIZE < m := by omega
    have hmod : o % BSIZE % 4 = o % 4 := Nat.mod_mod_of_dvd o (by decide)
    have hbyte : (o + (i - o % BSIZE)) % 4 = i % 4 := by omega
    simp [List.getD, hlt, hsrc, hbyte, loopDisk, loopBytes]
  · rfl

/-- If the first block of a range is below the limit then so is the part of the range in it. -/
theorem end_le {o n : ℕ} (h : o / BSIZE < SAFEBLOCKS) : o + min n (BSIZE - o % BSIZE) ≤ SAFEBYTES := by
  have hS : SAFEBYTES = 32906 * 512 := rfl
  have hS' : SAFEBLOCKS = 32906 := rfl
  have hB : BSIZE = 512 := rfl
  rw [hB] at h ⊢
  omega

namespace Loops

open Fs FsState

variable {w off : Word} {k : ℤ} {locked : Bool} {s : FsState} {E : Stop → Prop} {Q : ℕ → FsState → Prop}

section

variable (h : Loops w k locked s)

include h

theorem ready (hunlocked : locked = false) : Ready s 0 := by
  subst hunlocked
  refine ⟨?_, ?_, ?_⟩ <;> rw [h.inode]
  · exact le_refl 1
  · rfl
  · rfl

theorem setLocked (b : Bool) : Loops w k b (s.setLocked 0 b) := by
  refine ⟨h.blocks, ?_, h.file, h.log⟩
  rw [icache_setLocked_self, h.inode]
  rfl

theorem advance (p : Option Word) (r : ℤ) : Loops (movedOff p w r) k locked (s.advance 0 p r) := by
  rw [FsState.advance, movedOff]
  split
  · exact ⟨h.blocks, h.inode, by rw [ftable_setFile_self, h.file], h.log⟩
  · exact h

theorem used (c : ℕ) : s.used mkfsSuperblock c = true := by
  have hne : mkfsSuperblock.BBLOCK c ≠ 1 := (Nat.lt_of_lt_of_le (by decide) (Nat.le_add_left 58 (c / BPB))).ne'
  have hbit : ∀ i < 8, (255 : Byte).getLsbD i = true := by decide
  have hlt : c % BPB / 8 < BSIZE := Nat.div_lt_of_lt_mul (Nat.mod_lt c (by decide))
  rw [FsState.used, h.blocks, Block.bit, Block.byte, dif_pos hlt, loopDisk]
  dsimp only
  rw [if_neg hne]
  exact hbit _ (Nat.mod_lt _ (by decide))

theorem rootPtr {j : ℕ} (hj : j < NADDRS) (hQ : Q 1 s) : (rootPtr (strayEnv off) 0 j).Sat s Q E := by
  have haddr : (s.icache 0).addr j = 1 := by
    rw [h.inode, Dinode.addr, dif_pos hj]
    rfl
  rw [Fs.rootPtr, Prog.sat_bind, sat_inode, haddr]
  exact hQ

theorem entryPtr {i j : ℕ} (hi : i < NINDIRECT) (hQ : Q 1 s) : (entryPtr (strayEnv off) 1 i j).Sat s Q E := by
  rw [Fs.entryPtr, Prog.sat_bind, sat_bread (by decide), Prog.sat_get_bind, entry, if_pos hi, h.blocks,
    word_loopDisk hi]
  exact hQ

theorem walkFrom {path : List ℕ} (hpath : ∀ i ∈ path, i < NINDIRECT) (hQ : Q 1 s) :
    (walkFrom (strayEnv off) 1 path).Sat s Q E := by
  induction path with
  | nil => exact hQ
  | cons i path ih =>
    rw [List.forall_mem_cons] at hpath
    exact Prog.sat_bind.2 (h.entryPtr hpath.1 (ih hpath.2))

/-- `bmap` finds block 1, or it stops. -/
theorem bmap {bn : ℕ} (hbn : bn < MAXFILE) : (bmap (strayEnv off) 0 bn).Sat s
    (fun a t ↦ bn < SAFEBLOCKS ∧ a = 1 ∧ t = s) fun e ↦ e = strayStop off w := by
  by_cases hsafe : bn < SAFEBLOCKS
  · rw [bmap_eq_walk _ hsafe]
    exact Prog.sat_bind.2 (h.rootPtr (locate_fst_lt bn) (h.walkFrom (locate_snd_lt hsafe) ⟨hsafe, rfl, rfl⟩))
  have hS : SAFEBLOCKS = 10 + 128 + 2 * 16384 := rfl
  have hM : MAXFILE = 10 + 128 + 16384 + 2097152 := rfl
  have hN : NINDIRECT = 128 := rfl
  have hD : NDBLINDIRECT = 16384 := rfl
  have hT : NTPLINDIRECT = 2097152 := rfl
  have hK : NDIRECT = 10 := rfl
  rw [Fs.bmap, if_neg (by omega)]
  dsimp only
  rw [if_neg (by omega), if_neg (by omega), if_pos (by omega)]
  generalize hb : bn - NDIRECT - NINDIRECT - NDBLINDIRECT = b
  have hfirst : b / NDBLINDIRECT < NINDIRECT := by
    rw [hN, hD]
    omega
  have hbehind : ¬b / NINDIRECT < NINDIRECT := by
    rw [hN]
    omega
  refine Prog.sat_bind.2 (h.rootPtr (by decide) (Prog.sat_bind.2 (h.entryPtr hfirst ?_)))
  have hentry : entry (strayEnv off) s 1 (b / NINDIRECT) = if SameParity off w then -1 else 0 := by
    rw [entry, if_neg hbehind]
    show (if SameParity off (s.ftable 0).off then _ else _) = _
    rw [h.file]
  have hfull (c : ℕ) : ¬s.LeastFree mkfsSuperblock c := fun hfree ↦ Bool.false_ne_true (hfree.free.symm.trans (h.used c))
  rw [Prog.sat_bind, Fs.entryPtr, Prog.sat_bind, sat_bread (by decide), Prog.sat_get_bind, hentry, strayStop]
  split
  · rfl
  · rw [if_pos rfl, Prog.sat_bind]
    refine Prog.Sat.mono (balloc_sat (by rw [h.log]; exact List.nodup_singleton 1)) (fun a _ ht ↦ ?_) fun e he ↦ ?_
    · exact absurd ht.leastFree (hfull a)
    · obtain ⟨c, hfree, -⟩ | ⟨rfl, -⟩ := he
      · exact absurd hfree (hfull c)
      · rfl

theorem readLoop {o n : ℕ} (hmax : n ≠ 0 → o < MAXFILE * BSIZE) : (readLoop (strayEnv off) 0 o n).Sat s
    (fun _ t ↦ (n = 0 ∨ o + n ≤ SAFEBYTES) ∧ Loops w k locked t) fun e ↦ e = strayStop off w := by
  induction n using Nat.strong_induction_on generalizing o s with
  | _ n ih =>
    rw [Fs.readLoop]
    split
    next hn => exact ⟨.inl hn, h⟩
    next hn =>
      obtain ⟨hpos, -, hsum⟩ := firstPart hn o
      refine (h.bmap (Nat.div_lt_of_lt_mul (by rw [Nat.mul_comm]; exact hmax hn))).bind fun a t ht ↦ ?_
      obtain ⟨hfirst, rfl, rfl⟩ := ht
      have hend := end_le (n := n) hfirst
      rw [Prog.sat_bind, sat_bread (by decide)]
      exact (ih _ (by omega) h fun _ ↦ hend.trans_lt (by decide)).bind fun _ u hu ↦ ⟨by omega, hu.2⟩

end

/-- The loop of `writei` puts the bytes of block 1 where they are. -/
theorem writeLoop (h : Loops w 2 locked s) {o n : ℕ} {src : ℕ → Byte} (hsrc : ∀ j, src j = loopBytes o j)
    (hmax : o + n ≤ MAXFILE * BSIZE) : (writeLoop (strayEnv off) 0 src o n).Sat s
      (fun _ t ↦ (n = 0 ∨ o + n ≤ SAFEBYTES) ∧ Loops w 2 locked t) fun e ↦ e = strayStop off w := by
  induction n using Nat.strong_induction_on generalizing src o s with
  | _ n ih =>
    rw [Fs.writeLoop]
    split
    next hn => exact ⟨.inl hn, h⟩
    next hn =>
      obtain ⟨hpos, -, hsum⟩ := firstPart hn o
      refine (h.bmap (Nat.div_lt_of_lt_mul (by rw [Nat.mul_comm]; omega))).bind fun a t ht ↦ ?_
      obtain ⟨hfirst, rfl, rfl⟩ := ht
      have hend := end_le (n := n) hfirst
      have hlog : t.log.logWrite 1 = .ok t.log := by
        rw [h.log]
        rfl
      rw [Prog.sat_bind, sat_bread (by decide), Prog.sat_bind, logWrite, Prog.sat_get_bind, hlog, h.blocks,
        copyIn_loopDisk hsrc]
      have hnext : Loops w 2 locked { t with
          blocks := update t.blocks 1 (loopDisk 1), log := t.log, trace := t.trace ++ [1] } :=
        ⟨by rw [← h.blocks]; exact update_eq_self 1 t.blocks, h.inode, h.file, h.log⟩
      refine (ih _ (by omega) hnext (fun j ↦ ?_) (by omega)).imp fun _ u hu ↦ ⟨by omega, hu.2⟩
      rw [hsrc, loopBytes, loopBytes, Nat.add_assoc]

/-- One turn of the loop of a write, if it is not refused. -/
theorem writeChunk (h : Loops w 1 false s) {p : Option Word} {src : ℕ → Byte} {n : ℕ} (hn : 0 < n ∧ n ≤ 1536)
    (hsrc : ∀ j, src j = loopBytes (p.getD w).toNat j) (hmax : (p.getD w).toNat + n ≤ MAXFILE * BSIZE) :
    (writeChunk (strayEnv off) 0 src n p).Sat s
      (fun r t ↦ (r = n ∧ (p.getD w).toNat + n ≤ SAFEBYTES) ∧ Loops (movedOff p w n) 1 false t)
      fun e ↦ e = strayStop off w := by
  have hM : MAXFILE * BSIZE = 1082201088 := rfl
  have hword : (BitVec.ofInt 32 n).toNat = n := by
    rw [BitVec.toNat_ofInt]
    omega
  have hint : (BitVec.ofInt 32 n).toInt = n := by
    rw [BitVec.toInt_ofInt, Int.bmod_eq_of_le] <;> omega
  have hsum : (p.getD w + BitVec.ofInt 32 n).toNat = (p.getD w).toNat + n := by
    rw [BitVec.toNat_add, hword]
    omega
  have hbegin : s.log.beginOp = some ⟨LOGSIZE, 2, false, [1]⟩ := by
    rw [h.log]
    rfl
  rw [Fs.writeChunk, Prog.sat_bind, beginOp, Prog.sat_get_bind, hbegin, Prog.sat_modify, Prog.sat_bind, lockedWrite]
  have hbegun : Loops w 2 false { s with log := ⟨LOGSIZE, 2, false, [1]⟩ } := ⟨h.blocks, h.inode, h.file, rfl⟩
  generalize { s with log := ⟨LOGSIZE, 2, false, [1]⟩ } = s₁ at hbegun
  have hlocked := hbegun.setLocked true
  show Prog.Sat (ilock _ (s₁.ftable 0).ip >>= _) s₁ _ _
  rw [hbegun.file, Prog.sat_bind, sat_ilock (hbegun.ready rfl), Prog.sat_bind, writei, Prog.sat_bind, sat_inode,
    hlocked.inode, if_neg (by decide)]
  dsimp only
  rw [if_neg (by rw [BitVec.lt_def, hsum]; omega), if_neg (by rw [hsum]; omega), hword]
  refine (hlocked.writeLoop hsrc hmax).bind fun _ t ht ↦ ?_
  have hinode := ht.2.inode
  have hsize : ¬(0 < BitVec.ofInt 32 n ∧ (loopInode true).size < p.getD w + BitVec.ofInt 32 n) := by
    rw [BitVec.lt_def (y := p.getD w + _), hsum, show (loopInode true).size.toNat = 4294967295 from rfl]
    omega
  rw [Prog.sat_bind, sat_inode, hinode, if_neg hsize, hint]
  show Prog.Sat (unlockAfter 0 0 p n >>= _) t _ _
  rw [Prog.sat_bind, sat_unlockAfter (by rw [hinode]; exact le_refl 1) (by rw [hinode]; rfl)]
  have hdone := (ht.2.setLocked false).advance p n
  generalize (t.setLocked 0 false).advance 0 p n = t₁ at hdone
  have hend : t₁.log.endOp = .ok ⟨LOGSIZE, 1, false, [1]⟩ := by
    rw [hdone.log]
    rfl
  show Prog.Sat (endOp >>= _) t₁ _ _
  rw [Prog.sat_bind, endOp, Prog.sat_get_bind, hend]
  exact ⟨⟨rfl, ht.1.resolve_left (by omega)⟩, hdone.blocks, hdone.inode, hdone.file, rfl⟩

/-- A read that goes behind the end of an indirect block. -/
theorem lockedRead (h : Loops w k false s) {p : Option Word} {n : ℤ} (hn : BitVec.ofInt 32 n ≠ 0)
    (hbehind : SAFEBYTES < (p.getD w).toNat + (BitVec.ofInt 32 n).toNat) (hmax : (p.getD w).toNat < MAXFILE * BSIZE)
    (hwrap : (p.getD w).toNat + (BitVec.ofInt 32 n).toNat < 2 ^ 32) :
    (lockedRead (strayEnv off) 0 n p).Sat s (fun _ _ ↦ False) fun e ↦ e = strayStop off w := by
  have hsum : (p.getD w + BitVec.ofInt 32 n).toNat = (p.getD w).toNat + (BitVec.ofInt 32 n).toNat := by
    rw [BitVec.toNat_add]
    omega
  have hsize : (loopInode true).size.toNat = 4294967295 := rfl
  have hlocked := h.setLocked true
  rw [Fs.lockedRead]
  show Prog.Sat (ilock _ (s.ftable 0).ip >>= _) s _ _
  rw [h.file, Prog.sat_bind, sat_ilock (h.ready rfl), Prog.sat_bind, readi, Prog.sat_bind, sat_inode, hlocked.inode,
    if_neg (by decide)]
  dsimp only
  rw [if_neg (by rw [BitVec.lt_def, BitVec.lt_def, hsum, hsize]; omega),
    if_neg (by rw [BitVec.lt_def, hsum, hsize]; omega)]
  refine (hlocked.readLoop fun _ ↦ hmax).bind fun bytes t ht ↦ ?_
  rcases ht.1 with hzero | hle
  · exact absurd (BitVec.eq_of_toNat_eq hzero) hn
  · omega

end Loops

/-! ### Positional calls -/

/-- A write of `n` bytes at `off` never gets to the blocks for which `bmap` looks behind an indirect block: there is
nothing to write, the range ends before them, or the first chunk is refused. -/
def WritesInOrder (n : ℤ) (off : Word) : Prop :=
  n ≤ 0 ∨ off.toNat + n.toNat ≤ SAFEBYTES ∨ MAXFILE * BSIZE < off.toNat + (min n Fs.maxChunk).toNat

/-- A write that goes there stops. Until then `f->off` stays even or odd, since the chunks are whole. -/
theorem Loops.writeChunks {off v w : Word} {p : Option Word} {n : ℤ} {s : FsState} (h : Loops w 1 false s)
    (hp : p.getD w = off) (hn : ¬WritesInOrder n off) :
    (Fs.writeChunks (strayEnv v) 0 (loopBytes off.toNat) n 0 p).Sat s (fun _ _ ↦ False) fun e ↦ e = strayStop v w := by
  rw [WritesInOrder, not_or, not_or] at hn
  have hmax : Fs.maxChunk = 1536 := rfl
  have hS : SAFEBYTES = 16847872 := rfl
  have hM : MAXFILE * BSIZE = 1082201088 := rfl
  have hoff := off.isLt
  refine Fs.writeChunks_rule (P := fun i pos s ↦ (0 ≤ i ∧ i % 2 = 0) ∧ (i = 0 ∨ off.toNat + i.toNat ≤ SAFEBYTES) ∧
    ∃ w', SameParity w w' ∧ (pos.getD w').toNat = off.toNat + i.toNat ∧ Loops w' 1 false s)
    ⟨⟨le_refl 0, rfl⟩, .inl rfl, w, rfl, by rw [hp]; rfl, h⟩ (fun hge h ↦ by omega) fun {i pos s} hlt h ↦ ?_
  obtain ⟨hi, hsafe, w', hsame, hpos, h⟩ := h
  obtain ⟨m, hm⟩ : ∃ m : ℕ, min (n - i) Fs.maxChunk = m := ⟨(min (n - i) Fs.maxChunk).toNat, by omega⟩
  have hstop : strayStop v w' = strayStop v w :=
    congrArg Stop.panic (if_congr (by rw [SameParity, SameParity, hsame]) rfl rfl)
  rw [hm, ← hstop]
  refine (h.writeChunk (by omega) (fun j ↦ ?_) (by omega)).imp fun r t ht ↦ ?_
  · rw [hpos, loopBytes, loopBytes, Nat.add_assoc]
  · obtain ⟨⟨rfl, hend⟩, ht⟩ := ht
    obtain rfl : m = 1536 := by omega
    have hword : (BitVec.ofInt 32 (1536 : ℕ)).toNat = 1536 := rfl
    refine ⟨fun _ ↦ by omega, fun _ hne ↦ absurd rfl hne, fun _ ↦ ⟨by omega, .inr (by omega), _, ?_, ?_, ht⟩⟩
    · cases pos with
      | some o => rwa [Fs.movedOff_some]
      | none =>
        rw [Fs.movedOff, if_pos ⟨by omega, rfl⟩, SameParity, BitVec.toNat_add, hword]
        rw [SameParity] at hsame
        omega
    · have hnext : (pos.map (· + BitVec.ofInt 32 (1536 : ℕ))).getD (Fs.movedOff pos w' (1536 : ℕ)) =
          pos.getD w' + BitVec.ofInt 32 (1536 : ℕ) := by
        cases pos with
        | some o => rfl
        | none => rw [Fs.movedOff, if_pos ⟨by omega, rfl⟩]; rfl
      rw [hnext, BitVec.toNat_add, hpos, hword]
      omega

end Xv6
