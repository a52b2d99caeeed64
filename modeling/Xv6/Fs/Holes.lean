import Xv6.Lib.Machine
import Xv6.Fs.File

/-!
# Reads and holes

A read is not part of an operation of the log, so it must not log anything. Whether it does depends
on what has been written before: `readi` asks `bmap` for the blocks of the range, and where there is
no block `bmap` allocates one.

A file is dense if it has a block for each of its bytes. A write that starts inside the file, or in
the block behind its last byte, keeps it so, and a read of a dense file changes nothing
(`readFile_keeps`). `writei` admits any other start as well, and then leaves a hole: the read of a
hole panics (`read_of_hole_panics`).
-/

namespace Xv6

open Function

/-- Make a call. -/
def fileStep (env : Env) (s : FsState) : FileCall → Option (Except Stop FsState)
  | .read f n pos => some ((Fs.readFile env f n pos).exec s)
  | .write f addr n pos => some ((Fs.writeFile env f addr n pos).exec s)

/-- The end of the block that holds the last byte of a file. -/
def Dinode.roundUp (d : Dinode) : ℕ :=
  (d.size.toNat + BSIZE - 1) / BSIZE * BSIZE

/-- A write of at least one byte to a file starts no later than at the end of its last block, and
stays below the blocks that `bmap` does not find. -/
def StartsInFile (s : FsState) : FileCall → Prop
  | .read .. => True
  | .write f _ n pos => (s.ftable f).writable = true → s.OnInode f →
      (s.icache (s.ftable f).ip).type ≠ T_DEV → 0 < n →
      (pos.getD (s.ftable f).off).toNat ≤ (s.icache (s.ftable f).ip).roundUp ∧
        (pos.getD (s.ftable f).off).toNat + n.toNat ≤ SAFEBYTES

instance (s : FsState) : (c : FileCall) → Decidable (StartsInFile s c)
  | .read .. => .isTrue trivial
  | .write .. => inferInstanceAs (Decidable (_ → _ → _ → _ → _ ∧ _))

/-- The open files are dense. -/
structure Dense (sb : Superblock) (R : ℕ → ℕ → ℕ) (s : FsState) : Prop extends Opened sb R s where
  /-- They stay below the blocks that `bmap` does not find. -/
  size_le : ∀ f, s.OnInode f → (s.icache (s.ftable f).ip).type ≠ T_DEV →
    (s.icache (s.ftable f).ip).size.toNat ≤ SAFEBYTES
  /-- They have a block for each byte. -/
  mapped : ∀ f, s.OnInode f → (s.icache (s.ftable f).ip).type ≠ T_DEV →
    ∀ bn, bn * BSIZE < (s.icache (s.ftable f).ip).size.toNat → s.ptr (s.ftable f).ip (locate bn) ≠ 0

variable {sb : Superblock} {R R' : ℕ → ℕ → ℕ} {s t : FsState} {f : ℕ}

variable {l : List Growth}

/-! ### Dense files stay dense -/

/-- A block that is there stays there. -/
theorem Opened.ptr_ne_zero {i : ℕ} (h : Opened sb R s) (h' : Opened sb R' t) (hext : Extended sb R i s l R' t)
    (hft : t.ftable = s.ftable) (hf : s.OnInode f) {bn : ℕ} (hbn : bn < SAFEBLOCKS)
    (hne : s.ptr (s.ftable f).ip (locate bn) ≠ 0) : t.ptr (s.ftable f).ip (locate bn) ≠ 0 := by
  have hroots := h.roots f hf
  have hroots' := h'.roots f (by rwa [FsState.OnInode, hft])
  rw [hft] at hroots'
  rw [← forest_dataPos hroots] at hne
  rwa [← forest_dataPos hroots', hext.ptr_of_ne_zero (pos_dataPos hbn) hne]

namespace Dense

/-- A write that starts in the file fills what it makes longer. -/
theorem written (h : Dense sb R s) (hf : s.OnInode f)
    (htype : (s.icache (s.ftable f).ip).type ≠ T_DEV) {off n : ℕ} {src : ℕ → Byte}
    {l : List Growth} (hstart : off ≤ (s.icache (s.ftable f).ip).roundUp) (hsafe : off + n ≤ SAFEBYTES)
    (hw : Fs.Written sb R (s.ftable f).ip (s.ftable f).ip s off src n l
      (update R (s.ftable f).ip (t.addrs (s.ftable f).ip)) t) :
    Dense sb (update R (s.ftable f).ip (t.addrs (s.ftable f).ip)) t := by
  have hopen := h.toOpened.written hw
  have hft := hw.ftable
  obtain ⟨a, ha⟩ := hw.icache_eq
  have hB : BSIZE = 512 := rfl
  refine ⟨hopen, fun g hg htypeg ↦ ?_, fun g hg htypeg bn hbn ↦ ?_⟩
  · rw [FsState.OnInode, hft] at hg
    rw [hft] at htypeg ⊢
    rcases eq_or_ne (s.ftable g).ip (s.ftable f).ip with hip | hip
    · rw [hip, ha]
      rw [Fs.toNat_sizeAfter hsafe]
      split
      · exact hsafe
      · exact h.size_le f hf htype
    · rw [hw.icache_ne _ hip] at htypeg ⊢
      exact h.size_le g hg htypeg
  · rw [FsState.OnInode, hft] at hg
    rw [hft] at htypeg hbn ⊢
    have hS : SAFEBYTES = 32906 * BSIZE := rfl
    rcases eq_or_ne (s.ftable g).ip (s.ftable f).ip with hip | hip
    · rw [hip] at hbn ⊢
      rw [ha] at hbn
      replace hbn : bn * BSIZE < (Fs.sizeAfter _ off n).toNat := hbn
      rw [Fs.toNat_sizeAfter hsafe] at hbn
      by_cases hmem : bn ∈ blocksOf off n
      · exact hw.mapped bn hmem
      · -- the block is not written, so it lies below the old end of the file
        have hold : bn * BSIZE < (s.icache (s.ftable f).ip).size.toNat := by
          split at hbn
          next hlonger =>
            by_contra hge
            refine hmem (mem_blocksOf.2 ⟨max off (bn * BSIZE), Nat.le_max_left .., ?_, ?_⟩)
            · have := hlonger.1
              omega
            · rw [Dinode.roundUp, hB] at hstart
              rw [hB] at hge ⊢
              omega
          · exact hbn
        have hsize := h.size_le f hf htype
        refine h.toOpened.ptr_ne_zero hopen hw.toExtended hft hf ?_ (h.mapped f hf htype bn hold)
        rw [hB] at hold hS
        show bn < 32906
        omega
    · rw [hw.icache_ne _ hip] at htypeg hbn
      have hsize := h.size_le g hg htypeg
      refine h.toOpened.ptr_ne_zero hopen hw.toExtended hft hg ?_ (h.mapped g hg htypeg bn hbn)
      rw [hB] at hbn hS
      show bn < 32906
      omega

theorem advance (h : Dense sb R s) (f : ℕ) (pos : Option Word) (r : ℤ) :
    Dense sb R (s.advance f pos r) := by
  refine ⟨h.toOpened.advance f pos r, fun g hg ↦ ?_, fun g hg ↦ ?_⟩
  · rw [FsState.OnInode, s.type_advance] at hg
    rw [s.ip_advance, s.icache_advance]
    exact h.size_le g hg
  · rw [FsState.OnInode, s.type_advance] at hg
    rw [s.ip_advance, s.icache_advance, s.ptr_advance]
    exact h.mapped g hg

/-- Operations begin and end. -/
theorem setLog (h : Dense sb R s) {log : Log} (hlog : log.lh.Nodup) :
    Dense sb R { s with log := log } :=
  ⟨h.toOpened.setLog hlog, h.size_le, h.mapped⟩

end Dense

/-- What the loop of a write needs to know before a chunk: the files are dense, and the rest of the
write starts in the file, unless it goes to a device. -/
def ChunkInv (sb : Superblock) (f : ℕ) (n i : ℤ) (pos : Option Word) (s : FsState) : Prop :=
  (∃ R, Dense sb R s) ∧ s.OnInode f ∧ 0 ≤ i ∧
    ((s.icache (s.ftable f).ip).type ≠ T_DEV → i < n →
      (pos.getD (s.ftable f).off).toNat ≤ (s.icache (s.ftable f).ip).roundUp ∧
        (pos.getD (s.ftable f).off).toNat + (n - i).toNat ≤ SAFEBYTES)

theorem ChunkInv.setLog {n i : ℤ} {pos : Option Word} (h : ChunkInv sb f n i pos s) {log : Log}
    (hlog : log.lh.Nodup) : ChunkInv sb f n i pos { s with log := log } := by
  obtain ⟨⟨R, hdense⟩, h⟩ := h
  exact ⟨⟨R, hdense.setLog hlog⟩, h⟩

theorem Dinode.le_roundUp (d : Dinode) : d.size.toNat ≤ d.roundUp := by
  rw [roundUp, show BSIZE = 512 from rfl]
  omega

namespace Fs

variable {env : Env}

variable {pos : Option Word}

/-- After a locked write the rest of the write starts in the file. -/
theorem lockedWrite_dense {n i : ℤ} {m : ℕ} (src : ℕ → Byte) (hm0 : 0 < m) (hm : (m : ℤ) ≤ n - i)
    (h : ChunkInv env.sb f n i pos s) : (lockedWrite env f src m pos).Sat s
      (fun r t ↦ (∃ R, Dense env.sb R t) ∧
        (r = m → ChunkInv env.sb f n (i + m) (pos.map (· + BitVec.ofInt 32 r)) t)) fun _ ↦ True := by
  obtain ⟨⟨R, hdense⟩, hf, hi0, hstart⟩ := h
  have hS : SAFEBYTES = 16847872 := rfl
  by_cases htype : (s.icache (s.ftable f).ip).type = T_DEV
  · -- a device: only the offset changes
    refine (lockedWrite_dev (hdense.ready f hf) htype src m pos).mono ?_ fun _ _ ↦ trivial
    rintro r - rfl
    refine ⟨⟨R, hdense.advance f pos r⟩, fun _ ↦ ⟨⟨R, hdense.advance f pos r⟩, ?_, by omega, ?_⟩⟩
    · rwa [FsState.OnInode, s.type_advance]
    · rw [s.ip_advance, s.icache_advance]
      exact fun hne ↦ absurd htype hne
  · obtain ⟨hstart, hsafe⟩ := hstart htype (by omega)
    refine (lockedWrite_sat hdense.owned (hdense.roots f hf) hdense.nodup (hdense.ready f hf)
      (hdense.inum_lt f hf) htype (by omega)).mono ?_ fun _ _ ↦ trivial
    rintro r - ⟨rfl, l, u, hw, rfl⟩
    have hdense' := (hdense.written hf htype hstart (by omega) hw).advance f pos m
    refine ⟨⟨_, hdense'⟩, fun _ ↦ ⟨⟨_, hdense'⟩, ?_, by omega, fun _ _ ↦ ?_⟩⟩
    · rw [FsState.OnInode, u.type_advance, hw.ftable]
      exact hf
    · -- the file now reaches to where the rest starts
      have hoff : ((pos.map (· + BitVec.ofInt 32 m)).getD ((u.advance f pos m).ftable f).off).toNat =
          (pos.getD (s.ftable f).off).toNat + m := by
        rw [u.getD_advance f pos m (by omega), hw.ftable, BitVec.toNat_add, BitVec.toNat_ofInt]
        omega
      obtain ⟨a, ha⟩ := hw.icache_eq
      have hsize : (pos.getD (s.ftable f).off).toNat + m ≤
          (u.icache (s.ftable f).ip).size.toNat := by
        rw [ha]
        rw [toNat_sizeAfter (by omega)]
        split
        · exact le_refl _
        next hnot =>
          rw [Enlarges, not_and, Nat.not_lt] at hnot
          exact hnot hm0
      rw [hoff, u.ip_advance, hw.ftable, u.icache_advance]
      exact ⟨hsize.trans (Dinode.le_roundUp _), by omega⟩

theorem writeChunk_dense {n i : ℤ} (src : ℕ → Byte) (hi : i < n) (h : ChunkInv env.sb f n i pos s) :
    (writeChunk env f src (min (n - i) maxChunk) pos).Sat s
      (fun r t ↦ (∃ R, Dense env.sb R t) ∧ (r = min (n - i) maxChunk →
        ChunkInv env.sb f n (i + min (n - i) maxChunk) (pos.map (· + BitVec.ofInt 32 r)) t))
      fun _ ↦ True := by
  have hmax : maxChunk = 1536 := rfl
  obtain ⟨m, hm⟩ : ∃ m : ℕ, min (n - i) maxChunk = m := ⟨(min (n - i) maxChunk).toNat, by omega⟩
  have hle : (m : ℤ) ≤ n - i := by omega
  rw [hm, writeChunk]
  refine beginOp_sat.bind_true ?_
  rintro - s₁ ⟨-, -, rfl⟩
  obtain ⟨⟨R, hdense⟩, -⟩ := id h
  have hbegun : ChunkInv env.sb f n i pos
      { s with log := { s.log with outstanding := s.log.outstanding + 1 } } := h.setLog hdense.nodup
  refine (lockedWrite_dense src (by omega) hle hbegun).bind ?_
  intro r t ⟨⟨R', hdense'⟩, hnext⟩
  have hnodup := nodup_afterEnd hdense'.nodup
  refine endOp_sat.bind_true ?_
  rintro - t' rfl
  exact ⟨⟨R', hdense'.setLog hnodup⟩, fun hr ↦ (hnext hr).setLog hnodup⟩

/-- A write that starts in the file leaves the open files dense. -/
theorem writeFile_dense {addr : ℕ → Byte} {n : ℤ} (h : Dense env.sb R s)
    (hstart : StartsInFile s (.write f addr n pos)) :
    (writeFile env f addr n pos).Sat s (fun _ t ↦ ∃ R, Dense env.sb R t) fun _ ↦ True := by
  rw [writeFile]
  show Prog.Sat (if (s.ftable f).writable = false then _ else _) s _ _
  split
  · exact ⟨R, h⟩
  next hwritable =>
    split
    · exact ⟨R, h⟩
    next htype =>
      have hinv : ChunkInv env.sb f n 0 pos s :=
        ⟨⟨R, h⟩, htype, le_refl 0, fun hdev hn ↦ by
          rw [Int.sub_zero]
          exact hstart (Bool.not_eq_false _ ▸ hwritable) htype hdev hn⟩
      exact writeChunks_rule hinv (fun _ h ↦ h.1) fun hi h ↦ (writeChunk_dense _ hi h).imp
        fun _ _ ht ↦ ⟨fun _ ↦ ht.1, fun _ _ ↦ trivial, ht.2⟩
    · trivial

end Fs

/-! ### Reads of dense files -/

/-- Where there is a data block, there is a block at every position on the way to it. -/
theorem ptr_ne_zero_of_mem_chain {ip : ℕ} {q q' : ℕ × List ℕ} (hq' : q' ∈ chain q)
    (hne : s.ptr ip q ≠ 0) : s.ptr ip q' ≠ 0 := by
  obtain ⟨p, ⟨r, hr⟩, rfl⟩ := mem_chain.1 hq'
  intro h0
  refine hne ?_
  rw [FsState.ptr, ← hr]
  exact PointerTree.follow_append_eq_zero s.heap h0 r

theorem Dense.needed_eq_empty (h : Dense sb R s) (hf : s.OnInode f)
    (htype : (s.icache (s.ftable f).ip).type ≠ T_DEV) {off n : ℕ}
    (hn : n ≤ (s.icache (s.ftable f).ip).size.toNat - off) : s.needed (s.ftable f).ip off n = ∅ := by
  refine Finset.eq_empty_of_forall_notMem fun q hq ↦ ?_
  obtain ⟨⟨bn, hbn, hq⟩, h0⟩ := mem_needed.1 hq
  refine ptr_ne_zero_of_mem_chain hq (h.mapped f hf htype bn ?_) h0
  obtain ⟨x, hoff, hx, rfl⟩ := mem_blocksOf.1 hbn
  have := Nat.div_mul_le_self x BSIZE
  omega

namespace Fs

variable {env : Env}

/-- A read of a dense file changes at most the offset of the file. -/
theorem readFile_dense (h : Dense env.sb R s) (f : ℕ) (n : ℤ) (pos : Option Word) :
    (readFile env f n pos).Sat s (fun out t ↦ t = s ∨ t = s.advance f pos out.1) fun e ↦
      (s.ftable f).type = .none ∧ e = .panic .fileread := by
  rw [readFile]
  show Prog.Sat (if (s.ftable f).readable = false then _ else _) s _ _
  split
  · exact .inl rfl
  · split
    · exact .inl rfl
    next hf =>
      by_cases htype : (s.icache (s.ftable f).ip).type = T_DEV
      · exact (lockedRead_dev (h.ready f hf) htype n pos).mono (fun out t ht ↦ Or.inr ht)
          fun e he ↦ he.elim
      · have hempty : s.needed (s.ftable f).ip (pos.getD (s.ftable f).off).toNat
            (readCount (s.icache (s.ftable f).ip).toDinode (pos.getD (s.ftable f).off)
              (BitVec.ofInt 32 n)) = ∅ :=
          h.needed_eq_empty hf htype (Nat.min_le_right ..)
        refine (lockedRead_sat h.owned (h.roots f hf) h.nodup (h.ready f hf) htype
          (h.size_le f hf htype) rfl rfl rfl).mono (fun out t ht ↦ ?_) fun e he ↦ ?_
        · split at ht
          · exact .inl ht.2
          · obtain ⟨rfl, l, u, hread, rfl⟩ := ht
            have hnil : l = [] := by
              have hneeded := hread.needed
              rwa [hempty, List.toFinset_eq_empty_iff, List.map_eq_nil_iff] at hneeded
            rw [hread.eq_of_nil hnil]
            exact .inr rfl
        · rw [hempty] at he
          exact absurd he.2.1 Finset.not_nonempty_empty
    next htype => exact ⟨htype, rfl⟩

end Fs

theorem dense_oneFile : Dense mkfsEnv.sb (fun _ _ ↦ 0) oneFile where
  toOpened := opened_oneFile
  size_le := fun f hf _ ↦ by
    obtain rfl := eq_zero_of_onInode_oneFile hf
    exact Nat.zero_le _
  mapped := fun f hf _ bn hbn ↦ by
    obtain rfl := eq_zero_of_onInode_oneFile hf
    exact absurd hbn (Nat.not_lt_zero _)

/-! ### Reads of holes -/

/-- A byte at 1024 is written to an empty file; then a read of the byte at 0 panics. -/
theorem read_of_hole_panics : ∃ t,
    Machine.Run (fileStep mkfsEnv) oneFile [.write 0 (fun _ ↦ 1) 1 (some 1024)] t ∧
    (Fs.pread mkfsEnv 0 1 0).run t = .error (.panic .logWriteOutsideTrans) :=
  Machine.exists_run_of (fun t ↦ (Fs.pread mkfsEnv 0 1 0).stops t (.panic .logWriteOutsideTrans))
    (by decide +kernel) fun t _ ht ↦ Prog.run_of_stops ht

/-! ### Runs -/

/-- The invariant of a run whose writes start in the files. -/
theorem dense_step {env : Env} {c : FileCall} (h : ∃ R, Dense env.sb R s)
    (hstep : Machine.guarded StartsInFile (fileStep env) s c = some (.ok t)) :
    ∃ R, Dense env.sb R t := by
  obtain ⟨hstart, hstep⟩ := Machine.guarded_eq_some.1 hstep
  obtain ⟨R, h⟩ := h
  cases c with
  | read f n pos =>
    obtain ⟨out, rfl | rfl⟩ := (Fs.readFile_dense h f n pos).of_exec_ok (Option.some.inj hstep)
    · exact ⟨R, h⟩
    · exact ⟨R, h.advance f pos out.1⟩
  | write f addr n pos =>
    obtain ⟨-, ht⟩ := (Fs.writeFile_dense h hstart).of_exec_ok (Option.some.inj hstep)
    exact ht

/-- **Reads change nothing**, in every state reached by calls whose writes start in the files: a read
returns or finds that the file is not open, and no block, no inode and nothing in the log changes. In
particular `log_write` is not called. -/
theorem readFile_keeps {env : Env} {s₀ : FsState} {calls : List FileCall}
    (h₀ : ∃ R, Dense env.sb R s₀)
    (run : Machine.Run (Machine.guarded StartsInFile (fileStep env)) s₀ calls s) (f : ℕ) (n : ℤ)
    (pos : Option Word) :
    (Fs.readFile env f n pos).Sat s
      (fun _ t ↦ t.blocks = s.blocks ∧ t.log = s.log ∧ t.trace = s.trace ∧ t.icache = s.icache)
      fun e ↦ (s.ftable f).type = .none ∧ e = .panic .fileread := by
  obtain ⟨R, h⟩ := run.invariant h₀ dense_step
  refine (Fs.readFile_dense h f n pos).imp fun out t ht ↦ ?_
  rcases ht with rfl | rfl
  · exact ⟨rfl, rfl, rfl, rfl⟩
  · exact ⟨s.blocks_advance .., s.log_advance .., s.trace_advance .., s.icache_advance ..⟩

/-- The calls that write the bytes of a file in order. -/
theorem readFile_keeps_oneFile : ∃ t,
    Machine.Run (Machine.guarded StartsInFile (fileStep mkfsEnv)) oneFile
      [.write 0 (fun _ ↦ 1) 1 (some 0)] t ∧
    (Fs.pread mkfsEnv 0 1 0).Sat t
      (fun _ u ↦ u.blocks = t.blocks ∧ u.log = t.log ∧ u.trace = t.trace ∧ u.icache = t.icache)
      fun e ↦ (t.ftable 0).type = .none ∧ e = .panic .fileread :=
  Machine.exists_run_of (fun _ ↦ True) (by decide +kernel) fun t run _ ↦
    readFile_keeps ⟨_, dense_oneFile⟩ run 0 1 (some 0)

end Xv6
