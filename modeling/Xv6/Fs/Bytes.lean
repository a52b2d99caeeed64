import Xv6.Fs.Holes
import Xv6.Lib.SparseArray

/-!
# A file is an array of bytes with holes

`FsState.file` reads an inode as a sparse array: the bytes that `bmap` leads to, zero where it leads to no block, and
the size. In any run of `writei` and `readi` on the inode, in any operations, the array is the one at the start with
the patches of the calls of `writei` (`FileOk.run`), as long as they stay below `SAFEBLOCKS`.

A `readi` that returns returns the bytes of the array. But it does not always return: `bmap` allocates blocks for a
hole, and that needs an operation with room in the log (`Readable`). `fileread` calls `readi` outside of any, and
there a hole is a panic (`readi_hole_panics`).
-/

namespace Xv6

open SparseArray Function

/-- The contents of an inode. -/
def FsState.file (s : FsState) (ip : ℕ) : SparseArray Byte where
  get := s.byteAt (s.addrs ip)
  size := (s.icache ip).size.toNat

variable {s : FsState} {ip : ℕ}

/-- An inode without blocks has zeros only. -/
theorem FsState.file_get_of_no_blocks (h : ∀ k, s.addrs ip k = 0) (x : ℕ) : (s.file ip).get x = 0 := by
  refine if_pos ?_
  rw [h]
  exact PointerTree.follow_zero ..

/-- The blocks of a range of bytes are among those that `bmap` finds. -/
def InRange (off n : Word) : Prop :=
  ∀ bn ∈ blocksOf off.toNat n.toNat, bn < SAFEBLOCKS

instance (off n : Word) : Decidable (InRange off n) :=
  inferInstanceAs (Decidable (∀ _, _))

theorem InRange.le_SAFEBYTES {off n : Word} (h : InRange off n) (hn : 0 < n.toNat) :
    off.toNat + n.toNat ≤ SAFEBYTES := by
  have hB : BSIZE = 512 := rfl
  have hS : SAFEBYTES = 512 * SAFEBLOCKS := rfl
  have hlast := h _ (mem_blocksOf.2 ⟨off.toNat + (n.toNat - 1), by omega, by omega, rfl⟩)
  rw [hB] at hlast
  omega

/-- A step of a run on one inode. -/
inductive ByteCall where
  /-- `begin_op()` -/
  | beginOp
  /-- `end_op()` -/
  | endOp
  /-- `writei(ip, src, off, n)` -/
  | writei (src : ℕ → Byte) (off n : Word)
  /-- `readi(ip, dst, off, n)` -/
  | readi (off n : Word)

/-- What a call writes. -/
def ByteCall.patch : ByteCall → Option (Patch Byte)
  | .writei src off n => some ⟨off.toNat, n.toNat, src⟩
  | .beginOp | .endOp | .readi .. => none

/-- What the calls write, in order. -/
def patches (calls : List ByteCall) : List (Patch Byte) :=
  calls.filterMap ByteCall.patch

/-- One step on the inode `*ip`. The writes stay in the range. -/
def byteStep (env : Env) (ip : ℕ) (s : FsState) : ByteCall → Option (Except Stop FsState)
  | .beginOp => some (Fs.beginOp.exec s)
  | .endOp => some (Fs.endOp.exec s)
  | .writei src off n => if InRange off n then some ((Fs.writei env ip src off n).exec s) else none
  | .readi off n => some ((Fs.readi env ip off n).exec s)

/-- The inode `*ip`, which is inode `i` of the file system, is a file. -/
structure FileOk {ι : Type} (sb : Superblock) (i : ι) (ip : ℕ) (s : FsState) : Prop where
  owned : ∃ R : ι → ℕ → ℕ, Owned sb R s ∧ R i = s.addrs ip
  nodup : s.log.lh.Nodup
  inum_lt : (s.icache ip).inum < sb.ninodes
  type_ne : (s.icache ip).type ≠ T_DEV
  /-- It stays below the blocks that `bmap` does not find. -/
  size_le : (s.icache ip).size.toNat ≤ SAFEBYTES

namespace FileOk

variable {ι : Type} {env : Env} {i : ι} {ip : ℕ} {s t : FsState}

theorem setLog (h : FileOk env.sb i ip s) {log : Log} (hlog : log.lh.Nodup) :
    FileOk env.sb i ip { s with log := log } := by
  obtain ⟨R, howned, hR⟩ := h.owned
  exact ⟨⟨R, howned.congr_blocks rfl, hR⟩, hlog, h.inum_lt, h.type_ne, h.size_le⟩

variable [DecidableEq ι]

variable (h : FileOk env.sb i ip s)

include h

/-- `writei` puts its patch on the file. -/
theorem written {R : ι → ℕ → ℕ} {l : List Growth} {src : ℕ → Byte} {off n : ℕ} (hsafe : off + n ≤ SAFEBYTES)
    (hw : Fs.Written env.sb R i ip s off src n l (update R i (t.addrs ip)) t) :
    FileOk env.sb i ip t ∧ AgreeBelow SAFEBYTES (t.file ip) ((s.file ip).patch ⟨off, n, src⟩) := by
  obtain ⟨a, ha⟩ := hw.icache_eq
  have hsize : (t.icache ip).size.toNat =
      if 0 < n then max (s.icache ip).size.toNat (off + n) else (s.icache ip).size.toNat := by
    rw [ha]
    refine (Fs.toNat_sizeAfter hsafe).trans ?_
    by_cases hlonger : Fs.Enlarges (s.icache ip).toDinode off n
    · rw [if_pos hlonger, if_pos hlonger.1, max_eq_right hlonger.2.le]
    · rw [if_neg hlonger]
      split
      next hn => exact (max_eq_left (Nat.le_of_not_lt fun hlt ↦ hlonger ⟨hn, hlt⟩)).symm
      · rfl
  have hlimit := h.size_le
  refine ⟨⟨⟨_, hw.owned, hw.roots.2⟩, hw.logged.nodup h.nodup, ?_, ?_, ?_⟩, hsize, fun x hx ↦ ?_⟩
  · rw [ha]
    exact h.inum_lt
  · rw [ha]
    exact h.type_ne
  · rw [hsize]
    split <;> omega
  · have hbyte := hw.bytes i x hx
    rw [update_self, hw.roots.1] at hbyte
    refine hbyte.trans ?_
    simp only [true_and]
    show _ = ((Patch.mk off n src).value x).getD _
    rw [Patch.value]
    split <;> rfl

/-- `writei` in the range writes all its bytes. (An empty write is refused if it starts behind the largest file.) -/
theorem writei_sat {src : ℕ → Byte} {off n : Word} (hrange : InRange off n) :
    (Fs.writei env ip src off n).Sat s
      (fun r t ↦ (r = n.toNat ∨ n = 0 ∧ r = -1) ∧ FileOk env.sb i ip t ∧
        AgreeBelow SAFEBYTES (t.file ip) ((s.file ip).patch ⟨off.toNat, n.toNat, src⟩))
      (Fs.RangeFails env.sb s ip off.toNat n.toNat) := by
  by_cases hn : n = 0
  · have hsame : FileOk env.sb i ip s ∧
        AgreeBelow SAFEBYTES (s.file ip) ((s.file ip).patch ⟨off.toNat, n.toNat, src⟩) := by
      rw [patch_of_empty (congrArg BitVec.toNat hn)]
      exact ⟨h, .refl ..⟩
    rw [Fs.writei, Prog.sat_bind, Fs.sat_inode, if_neg h.type_ne]
    split
    · exact ⟨Or.inr ⟨hn, rfl⟩, hsame⟩
    · split
      · exact ⟨Or.inr ⟨hn, rfl⟩, hsame⟩
      · subst hn
        rw [show (0 : Word).toNat = 0 from rfl, Fs.writeLoop, if_pos rfl, Prog.sat_bind,
          Prog.sat_pure, Prog.sat_bind, Fs.sat_inode, if_neg (fun hlt ↦ absurd hlt.1 (by decide))]
        exact ⟨Or.inl rfl, hsame⟩
  · have hpos : 0 < n.toNat := Nat.pos_of_ne_zero fun h0 ↦ hn (BitVec.eq_of_toNat_eq h0)
    obtain ⟨R, howned, hR⟩ := h.owned
    have hsafe := hrange.le_SAFEBYTES hpos
    refine (Fs.writei_sat howned hR h.nodup h.inum_lt h.type_ne hsafe).imp fun r t ht ↦ ?_
    obtain ⟨rfl, l, hw⟩ := ht
    exact ⟨Or.inl rfl, h.written hsafe hw⟩

/-- Growing the tree changes no byte. -/
theorem grows {l : List Growth} (hl : Grows env.sb ip s l t) :
    FileOk env.sb i ip t ∧ AgreeBelow SAFEBYTES (t.file ip) (s.file ip) := by
  obtain ⟨R, howned, hR⟩ := h.owned
  have hgrown := howned.grows hR hl
  obtain ⟨a, ha⟩ := hl.sameMemory.icache_eq
  have hsize : (t.icache ip).size = (s.icache ip).size := by
    rw [ha]
  refine ⟨⟨⟨_, hgrown.owned, update_self ..⟩, hl.logged.nodup h.nodup, ?_, ?_, ?_⟩,
    congrArg BitVec.toNat hsize, fun x hx ↦ ?_⟩
  · rw [ha]
    exact h.inum_lt
  · rw [ha]
    exact h.type_ne
  · rw [hsize]
    exact h.size_le
  · have hbyte := hgrown.byteAt i hx
    rwa [update_self, hR] at hbyte

/-- `readi` leaves the file as it is, and delivers its bytes as far as it goes. -/
theorem readi_sat (off n : Word) : (Fs.readi env ip off n).Sat s
      (fun out t ↦ (FileOk env.sb i ip t ∧ AgreeBelow SAFEBYTES (t.file ip) (s.file ip)) ∧
        (off.toNat ≤ (s.file ip).size → off.toNat + n.toNat < 2 ^ 32 →
          out = (((min n.toNat ((s.file ip).size - off.toNat) : ℕ) : ℤ),
            (s.file ip).read off.toNat n.toNat)))
      fun e ↦ (s.needed ip off.toNat (Fs.readCount (s.icache ip).toDinode off n)).Nonempty ∧
        Fs.RoomFails env.sb s ip off.toNat (Fs.readCount (s.icache ip).toDinode off n) 0 e := by
  obtain ⟨R, howned, hR⟩ := h.owned
  refine (Fs.readi_sat howned hR h.nodup h.type_ne h.size_le off n).mono (fun out t ht ↦ ?_)
    fun e he ↦ he.2
  split at ht
  next href =>
    rw [ht.2]
    refine ⟨⟨h, .refl ..⟩, fun hoff hadd ↦ absurd href ?_⟩
    rw [Fs.ReadRefused, BitVec.lt_def, BitVec.lt_def, BitVec.toNat_add, Nat.mod_eq_of_lt hadd]
    have hoff : off.toNat ≤ (s.icache ip).size.toNat := hoff
    omega
  · obtain ⟨rfl, l, hl, -⟩ := ht
    exact ⟨h.grows hl, fun _ _ ↦ rfl⟩

theorem step {c : ByteCall} (hstep : byteStep env ip s c = some (.ok t)) : FileOk env.sb i ip t ∧
      AgreeBelow SAFEBYTES (t.file ip) (c.patch.toList.foldl SparseArray.patch (s.file ip)) := by
  cases c with
  | beginOp =>
    obtain ⟨_, -, -, rfl⟩ := Fs.beginOp_sat.of_exec_ok (Option.some.inj hstep)
    exact ⟨h.setLog h.nodup, .refl ..⟩
  | endOp =>
    obtain ⟨_, rfl⟩ := Fs.endOp_sat.of_exec_ok (Option.some.inj hstep)
    exact ⟨h.setLog (Fs.nodup_afterEnd h.nodup), .refl ..⟩
  | writei src off n =>
    rw [byteStep] at hstep
    split at hstep
    next hrange =>
      obtain ⟨-, -, ht⟩ := (h.writei_sat hrange).of_exec_ok (Option.some.inj hstep)
      exact ht
    · cases hstep
  | readi off n =>
    obtain ⟨-, ht, -⟩ := (h.readi_sat off n).of_exec_ok (Option.some.inj hstep)
    exact ht

/-- Over a run the file is the one at the start with the patches of the calls. -/
theorem run {calls : List ByteCall} (run : Machine.Run (byteStep env ip) s calls t) :
    FileOk env.sb i ip t ∧
      AgreeBelow SAFEBYTES (t.file ip) ((patches calls).foldl SparseArray.patch (s.file ip)) := by
  induction run with
  | nil => exact ⟨h, .refl ..⟩
  | @snoc calls u t c run hstep ih =>
    obtain ⟨hu, hagree⟩ := ih
    obtain ⟨ht, hpatch⟩ := hu.step hstep
    refine ⟨ht, hpatch.trans ?_⟩
    rw [patches, List.filterMap_append, List.foldl_append]
    rw [List.filterMap_cons]
    cases c.patch with
    | none => exact hagree
    | some w => exact hagree.patch w

end FileOk

/-! ### Reads that return -/

/-- A range that a read can go over: there are no holes in it, or the operation that is going on has room for the
blocks that the read allocates. -/
def Readable (sb : Superblock) (s : FsState) (ip off n : ℕ) : Prop :=
  s.needed ip off n = ∅ ∨
    (1 ≤ s.log.outstanding ∧ s.log.lh.length + 3 * (s.needed ip off n).card < LOGSIZE ∧
      ((s.log.lh.length + 3 * (s.needed ip off n).card : ℕ) : ℤ) < s.log.size - 1 ∧
      (s.needed ip off n).card ≤ (s.freeBlocks sb).card)

/-- Then the read does not fail. -/
theorem Readable.not_fails {sb : Superblock} {off n : ℕ} {e : Stop} (h : Readable sb s ip off n)
    (hne : (s.needed ip off n).Nonempty) : ¬Fs.RoomFails sb s ip off n 0 e := by
  rcases h with h0 | ⟨hout, hmax, hsize, hfree⟩
  · exact absurd h0 hne.ne_empty
  · rintro (⟨F, hF, -, ⟨-, hfits⟩ | ⟨-, hoff⟩⟩ | ⟨-, hlt⟩)
    · have hcard := Finset.card_union_le s.log.lh.toFinset F
      have hlh := List.toFinset_card_le s.log.lh
      refine hfits ?_
      constructor <;> omega
    · omega
    · omega

/-- In every state that is reached by calls on one inode, whose writes stay below the blocks that `bmap` does not
find: a byte of the file is the one that was written last, and the one at the start if none was, which is zero if
there was no block. A write that does not panic writes all its bytes and nothing else, and sets the size to the end
of the range if it is larger. A read returns the bytes from `off` to the end of the file, at most `n`, if there are
no holes or an operation with enough room is going on. -/
theorem file_bytes {ι : Type} [DecidableEq ι] {env : Env} {i : ι} {ip : ℕ} {s₀ s : FsState}
    {calls : List ByteCall} (h₀ : FileOk env.sb i ip s₀)
    (run : Machine.Run (byteStep env ip) s₀ calls s) :
    (∀ x < SAFEBYTES, (s.file ip).get x =
      (lastWritten (patches calls) x).getD ((s₀.file ip).get x)) ∧
    ((∀ k, s₀.addrs ip k = 0) → ∀ x, (s₀.file ip).get x = 0) ∧
    (∀ src off n, InRange off n →
      (Fs.writei env ip src off n).Sat s
        (fun r t ↦ (r = n.toNat ∨ n = 0 ∧ r = -1) ∧
          (t.file ip).size = (if 0 < n.toNat then max (s.file ip).size (off.toNat + n.toNat)
            else (s.file ip).size) ∧
          ∀ x < SAFEBYTES, (t.file ip).get x =
            if off.toNat ≤ x ∧ x < off.toNat + n.toNat then src (x - off.toNat)
            else (s.file ip).get x)
        (Fs.RangeFails env.sb s ip off.toNat n.toNat)) ∧
    ∀ off n : Word, off.toNat ≤ (s.file ip).size → off.toNat + n.toNat < 2 ^ 32 →
      Readable env.sb s ip off.toNat (min n.toNat ((s.file ip).size - off.toNat)) →
      (Fs.readi env ip off n).Sat s
        (fun out _ ↦ out.1 = (min n.toNat ((s.file ip).size - off.toNat) : ℕ) ∧
          out.2 = (List.range (min n.toNat ((s.file ip).size - off.toNat))).map fun j ↦
            (lastWritten (patches calls) (off.toNat + j)).getD ((s₀.file ip).get (off.toNat + j)))
        fun _ ↦ False := by
  obtain ⟨h, hagree⟩ := h₀.run run
  have hbytes (x : ℕ) (hx : x < SAFEBYTES) :
      (s.file ip).get x = (lastWritten (patches calls) x).getD ((s₀.file ip).get x) :=
    (hagree.2 x hx).trans (get_foldl_patch ..)
  refine ⟨hbytes, FsState.file_get_of_no_blocks, fun src off n hrange ↦ ?_,
    fun off n hoff hadd hread ↦ ?_⟩
  · refine (h.writei_sat hrange).imp fun r t ht ↦ ?_
    obtain ⟨hr, -, hsize, hget⟩ := ht
    refine ⟨hr, hsize, fun x hx ↦ (hget x hx).trans ?_⟩
    show ((Patch.mk off.toNat n.toNat src).value x).getD _ = _
    rw [Patch.value]
    split <;> rfl
  · refine (h.readi_sat off n).mono (fun out t ht ↦ ?_) fun e he ↦ hread.not_fails he.1 he.2
    obtain ⟨-, hout⟩ := ht
    rw [hout hoff hadd]
    refine ⟨rfl, List.map_congr_left fun j hj ↦ hbytes _ ?_⟩
    -- the file ends below the limit
    have hlimit : (s.file ip).size ≤ SAFEBYTES := h.size_le
    have hj := List.mem_range.1 hj
    omega

/-! ### A byte behind a hole -/

theorem fileOk_oneFile : FileOk mkfsSuperblock 0 0 oneFile where
  owned := ⟨_, opened_oneFile.owned, opened_oneFile.roots 0 rfl⟩
  nodup := List.nodup_nil
  inum_lt := opened_oneFile.inum_lt 0 rfl
  type_ne := by decide
  size_le := Nat.zero_le _

/-- The byte is there afterwards, and there is one to read. -/
theorem file_bytes_oneFile : ∃ t,
    Machine.Run (byteStep mkfsEnv 0) oneFile [.beginOp, .writei (fun _ ↦ 1) 1024 1] t ∧
    (t.file 0).get 1024 = 1 ∧
    (Fs.readi mkfsEnv 0 1024 1).Sat t (fun out _ ↦ out.1 = 1 ∧ out.2 = [1]) fun _ ↦ False := by
  refine Machine.exists_run_of (fun t ↦ (Fs.readi mkfsEnv 0 1024 1).returns t fun out _ ↦ out.1 = 1 ∧ out.2 = [1])
    (by decide +kernel) fun u run hread ↦ ⟨?_, (Prog.sat_of_returns hread).imp fun _ _ h ↦ of_decide_eq_true h⟩
  have hlast (x : ℕ) (hx : x = 1024) : lastWritten (patches [.beginOp, .writei (fun _ ↦ 1) 1024 1]) x
      = some 1 := by
    subst hx
    rfl
  rw [(file_bytes fileOk_oneFile run).1 _ (by decide), hlast _ rfl]
  rfl

/-- A read of the hole, after the operation, panics. -/
theorem readi_hole_panics : ∃ t,
    Machine.Run (byteStep mkfsEnv 0) oneFile [.beginOp, .writei (fun _ ↦ 1) 1024 1, .endOp] t ∧
    (t.file 0).size = 1025 ∧
    (Fs.readi mkfsEnv 0 0 1).run t = .error (.panic .logWriteOutsideTrans) :=
  Machine.exists_run_of (fun t ↦ (t.file 0).size = 1025 ∧
    (Fs.readi mkfsEnv 0 0 1).stops t (.panic .logWriteOutsideTrans)) (by decide +kernel) fun t _ ht ↦
      ⟨ht.1, Prog.run_of_stops ht.2⟩

end Xv6
