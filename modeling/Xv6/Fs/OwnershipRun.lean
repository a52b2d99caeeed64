import Xv6.Lib.Machine
import Xv6.Fs.Trunc

/-!
# Block ownership over whole runs

`bmap` and `itrunc` walk the trees of block numbers in code that has nothing in common: the one
goes down a single path and fills the gaps it meets, the other runs through every entry of every
indirect block. `mapStep` lets them take turns on any number of inodes, in any grouping into
operations. In every state that is reached from a disk without files,

* no block number occurs at two positions, and each is a data block of the disk,
* the free map marks the meta blocks and the blocks of the trees, and no other block,
* `itrunc` frees the blocks of its inode, and no other block.

This rests on `bmap_sat` and `itrunc_sat`; what is left to do is to follow the invariant `Owned`, and
`NoLeak` beside it, along the run. The only thing that can stop `itrunc` is the log. The only things
that can stop `bmap` are the log and a lack of free blocks.
-/

namespace Xv6

open PointerTree Function

/-- A step of the run: an operation begins or ends, or one of the two functions is called. -/
inductive MapCall where
  /-- `begin_op()` -/
  | beginOp
  /-- `end_op()` -/
  | endOp
  /-- `bmap(ip, bn)` -/
  | bmap (ip bn : ℕ)
  /-- `itrunc(ip)` -/
  | itrunc (ip : ℕ)
  deriving DecidableEq

/-- One step. The block index stays in the range on which `bmap` stays inside its buffers. -/
def mapStep (env : Env) (s : FsState) : MapCall → Option (Except Stop FsState)
  | .beginOp => some (Fs.beginOp.exec s)
  | .endOp => some (Fs.endOp.exec s)
  | .bmap ip bn => if bn < SAFEBLOCKS then some ((Fs.bmap env ip bn).exec s) else none
  | .itrunc ip => some ((Fs.itrunc env ip).exec s)

/-- A disk without files: the free map marks the meta blocks, and the inodes are empty. -/
structure NoFiles (sb : Superblock) (s : FsState) : Prop where
  lh : s.log.lh = []
  used_iff : ∀ b < sb.size, s.used sb b = true ↔ b < sb.dataStart
  addrs_eq : ∀ ip k, s.addrs ip k = 0
  inum_lt : ∀ ip, (s.icache ip).inum < sb.ninodes

/-- The invariant of the run. -/
structure MapInv (sb : Superblock) (s : FsState) : Prop where
  nodup : s.log.lh.Nodup
  owned : Owned sb s.addrs s
  noLeak : NoLeak sb s.addrs s
  inum_lt : ∀ ip, (s.icache ip).inum < sb.ninodes

variable {sb : Superblock} {s t : FsState} {ip : ℕ} {l : List Growth}

/-! ### No block is lost -/

section NoLeak

variable {ι : Type} [DecidableEq ι] {R : ι → ℕ → ℕ} {i : ι}

theorem NoLeak.trunc (h : NoLeak sb R s) (ho : Owned sb R s) (hR : R i = s.addrs ip)
    (hinum : (s.icache ip).inum < sb.ninodes) : NoLeak sb (update R i fun _ ↦ 0) (s.trunc sb ip) := by
  intro b hb hsize hused
  obtain ⟨hmem, hused⟩ := (used_trunc hinum b).1 hused
  obtain ⟨⟨⟨j, k⟩, path⟩, hp, rfl⟩ := h b hb hsize hused
  refine ⟨_, hp, ?_⟩
  rw [ptr_trunc ho hR hinum hp, if_neg]
  rintro rfl
  -- a block of the inode is among those that are freed
  refine hmem (mem_treeNodes.2 ⟨?_, (k, path), treeShape_pos.1 hp, (forest_ptr hR k path).symm⟩)
  have := sb.bmapstart_lt_dataStart
  omega

end NoLeak

/-! ### The steps -/

theorem MapInv.init (h : NoFiles sb s) : MapInv sb s := by
  refine ⟨by rw [h.lh]; exact List.nodup_nil, .of_null h.addrs_eq ?_, ?_, h.inum_lt⟩
  · exact fun b hb ↦ (h.used_iff b (hb.trans sb.dataStart_lt_size)).2 hb
  · intro b hb hsize hused
    have := (h.used_iff b hsize).1 hused
    omega

/-- Only the log changes. -/
theorem MapInv.setLog (h : MapInv sb s) {log : Log} (hlog : log.lh.Nodup) :
    MapInv sb { s with log := log } where
  nodup := hlog
  owned := ⟨h.owned.inj, h.owned.range, h.owned.used_ptr, h.owned.used_meta⟩
  noLeak := h.noLeak
  inum_lt := h.inum_lt

theorem MapInv.grows (h : MapInv sb s) (hl : Grows sb ip s l t) : MapInv sb t := by
  have hroots : update s.addrs ip (t.addrs ip) = t.addrs := by
    funext jp
    by_cases hjp : jp = ip
    · rw [hjp, update_self]
    · rw [update_of_ne hjp]
      funext k
      rw [FsState.addrs, FsState.addrs, hl.sameMemory.icache_ne jp hjp]
  refine ⟨hl.logged.nodup h.nodup, ?_, ?_, fun jp ↦ ?_⟩
  · rw [← hroots]
    exact (h.owned.grows rfl hl).owned
  · rw [← hroots]
    exact h.noLeak.extended (h.owned.grows rfl hl).toExtended
  · by_cases hjp : jp = ip
    · obtain ⟨a, ha⟩ := hl.sameMemory.icache_eq
      rw [hjp, ha]
      exact h.inum_lt ip
    · rw [hl.sameMemory.icache_ne jp hjp]
      exact h.inum_lt jp

theorem icache_trunc (s : FsState) (ip : ℕ) : (s.trunc sb ip).icache =
    update s.icache ip { s.icache ip with size := 0, addrs := fun _ ↦ 0 } := by
  show update (s.releaseAll sb _).icache ip _ = _
  rw [(FsState.releaseAll_memory s _).1]

theorem addrs_trunc (s : FsState) (ip : ℕ) : (s.trunc sb ip).addrs = update s.addrs ip fun _ ↦ 0 := by
  funext jp k
  rw [FsState.addrs, icache_trunc]
  by_cases hjp : jp = ip
  · rw [hjp, update_self, update_self, Dinode.addr]
    split <;> rfl
  · rw [update_of_ne hjp, update_of_ne hjp]
    rfl

theorem logged_trunc (s : FsState) (ip : ℕ) : Logged s
    ((s.treeNodes ip NADDRS).toFinset.image sb.BBLOCK ∪ {sb.IBLOCK (s.icache ip).inum})
    (s.trunc sb ip) := by
  rw [FsState.trunc, FsState.putInode, FsState.icache_setInode_self]
  exact ((Logged.releaseAll sb s _).setInode ip _).trans (Logged.store _ _ _)

theorem MapInv.trunc (h : MapInv sb s) (ip : ℕ) : MapInv sb (s.trunc sb ip) := by
  refine ⟨(logged_trunc s ip).nodup h.nodup, ?_, ?_, fun jp ↦ ?_⟩
  · rw [addrs_trunc]
    exact h.owned.trunc rfl (h.inum_lt ip)
  · rw [addrs_trunc]
    exact h.noLeak.trunc h.owned rfl (h.inum_lt ip)
  · rw [icache_trunc]
    by_cases hjp : jp = ip
    · rw [hjp, update_self]
      exact h.inum_lt ip
    · rw [update_of_ne hjp]
      exact h.inum_lt jp

theorem MapInv.itrunc_sat {env : Env} (h : MapInv env.sb s) (ip : ℕ) : (Fs.itrunc env ip).Sat s (fun _ t ↦ t = s.trunc env.sb ip)
    (s.log.Fails ((s.treeNodes ip NADDRS).toFinset.image env.sb.BBLOCK ∪
      {env.sb.IBLOCK (s.icache ip).inum})) :=
  Fs.itrunc_sat h.nodup (Fs.IBLOCK_lt_FSSIZE (h.inum_lt ip)) (h.owned.freeable (i := ip) rfl)

/-- The invariant is preserved by a step. -/
theorem MapInv.step {env : Env} {c : MapCall} (h : MapInv env.sb s)
    (hstep : mapStep env s c = some (.ok t)) : MapInv env.sb t := by
  cases c with
  | beginOp =>
    obtain ⟨_, -, -, rfl⟩ := Fs.beginOp_sat.of_exec_ok (Option.some.inj hstep)
    exact h.setLog h.nodup
  | endOp =>
    obtain ⟨_, rfl⟩ := Fs.endOp_sat.of_exec_ok (Option.some.inj hstep)
    exact h.setLog (Fs.nodup_afterEnd h.nodup)
  | bmap ip bn =>
    rw [mapStep] at hstep
    split at hstep
    next hbn =>
      obtain ⟨_, l, hl, -⟩ :=
        (Fs.bmap_sat h.owned (i := ip) rfl h.nodup hbn).of_exec_ok (Option.some.inj hstep)
      exact h.grows hl
    · cases hstep
  | itrunc ip =>
    obtain ⟨_, rfl⟩ := (h.itrunc_sat ip).of_exec_ok (Option.some.inj hstep)
    exact h.trunc ip

/-! ### The log is large enough for one call -/

/-- The free map takes up at most ten blocks. -/
theorem card_image_BBLOCK {F : Finset ℕ} (hF : ∀ b ∈ F, b < sb.size) :
    (F.image sb.BBLOCK).card ≤ 10 := by
  have hsub : F.image sb.BBLOCK ⊆ (Finset.range 10).image (· + sb.bmapstart) := by
    intro c hc
    obtain ⟨b, hb, rfl⟩ := Finset.mem_image.1 hc
    refine Finset.mem_image.2 ⟨b / BPB, Finset.mem_range.2 ?_, rfl⟩
    have h1 := hF b hb
    have h2 := sb.size_le
    have h3 : FSSIZE = 40000 := rfl
    rw [show BPB = 4096 from rfl]
    omega
  exact (Finset.card_le_card hsub).trans Finset.card_image_le

/-- With enough free blocks, only the log can stop `bmap`. -/
theorem Owned.bmap_log {env : Env} {ι : Type} [DecidableEq ι] {R : ι → ℕ → ℕ} {i : ι} {bn : ℕ}
    (h : Owned env.sb R s) (hR : R i = s.addrs ip) (hnodup : s.log.lh.Nodup) (hbn : bn < SAFEBLOCKS)
    (hfree : (s.missing ip (chain (locate bn))).length ≤ (s.freeBlocks env.sb).card) :
    (Fs.bmap env ip bn).Sat s (Reaches env.sb ip s (chain (locate bn)) (locate bn))
      fun e ↦ ∃ F, F.card ≤ 12 ∧ s.log.Fails F e := by
  refine (Fs.bmap_sat h hR hnodup hbn).imp_error fun e he ↦ ?_
  obtain ⟨l, t, hl, hpre, hf⟩ := h.growsFail_log hR he hfree
  refine ⟨footprint l, hl.card_footprint.trans ?_, hf⟩
  have h1 := hpre.length_le
  have h2 := length_missing_locate s ip bn
  rw [List.length_map] at h1
  omega

/-! ### Every run -/

section Calls

variable {env : Env} (h : MapInv env.sb s)
include h

theorem MapInv.bmap_sat {bn : ℕ} (hbn : bn < SAFEBLOCKS)
    (hfree : (s.missing ip (chain (locate bn))).length ≤ (s.freeBlocks env.sb).card) :
    (Fs.bmap env ip bn).Sat s (fun _ t ↦ ∃ l, Grows env.sb ip s l t)
      fun e ↦ ∃ F, F.card ≤ 12 ∧ s.log.Fails F e := by
  refine (h.owned.bmap_log (i := ip) rfl h.nodup hbn hfree).imp ?_
  intro a t ⟨l, hl, _⟩
  exact ⟨l, hl⟩

/-- The free map marks the meta blocks and the blocks of the trees. -/
theorem MapInv.used_iff {b : ℕ} (hb : b < env.sb.size) : s.used env.sb b = true ↔
    b < env.sb.dataStart ∨ ∃ ip q, blockShape.Pos q ∧ s.ptr ip q = b := by
  constructor
  · intro hused
    rcases Nat.lt_or_ge b env.sb.dataStart with hmeta | hdata
    · exact .inl hmeta
    · obtain ⟨⟨⟨ip, k⟩, path⟩, hp, rfl⟩ := h.noLeak b hdata hb hused
      exact .inr ⟨ip, (k, path), treeShape_pos.1 hp, rfl⟩
  · rintro (hmeta | ⟨ip, q, hq, rfl⟩)
    · exact h.owned.used_meta b hmeta
    · rcases Nat.eq_zero_or_pos (s.ptr ip q) with h0 | hpos
      · rw [h0]
        exact h.owned.used_meta 0 (Nat.succ_pos _)
      · exact h.owned.used_ptr ((ip, q.1), q.2) (treeShape_pos.2 hq) hpos.ne'

/-- `itrunc` frees the blocks of its inode, and no other block. -/
theorem MapInv.freed_iff (ip b : ℕ) :
    (s.used env.sb b = true ∧ (s.trunc env.sb ip).used env.sb b = false ↔
      b ≠ 0 ∧ ∃ q, blockShape.Pos q ∧ s.ptr ip q = b) ∧
    (s.used env.sb b = false → (s.trunc env.sb ip).used env.sb b = false) := by
  rw [← mem_treeNodes, Bool.eq_false_iff, Ne, used_trunc (h.inum_lt ip)]
  refine ⟨⟨?_, fun hmem ↦ ?_⟩, ?_⟩
  · rintro ⟨hused, hfree⟩
    by_contra hmem
    exact hfree ⟨hmem, hused⟩
  · exact ⟨(h.owned.freeable (i := ip) rfl).used b hmem, fun hboth ↦ hboth.1 hmem⟩
  · rintro hfree ⟨-, hused⟩
    rw [hfree] at hused
    cases hused

/-- The log has room for the blocks that `itrunc` logs. -/
theorem MapInv.card_logged_trunc (ip : ℕ) : ((s.treeNodes ip NADDRS).toFinset.image env.sb.BBLOCK ∪
      {env.sb.IBLOCK (s.icache ip).inum}).card ≤ 12 := by
  refine (Finset.card_union_le _ _).trans ?_
  have hten : ((s.treeNodes ip NADDRS).toFinset.image env.sb.BBLOCK).card ≤ 10 :=
    card_image_BBLOCK fun b hb ↦
      ((h.owned.freeable (i := ip) rfl).range b (List.mem_toFinset.1 hb)).2
  rw [Finset.card_singleton]
  omega

end Calls

theorem Log.Fails.panic {log : Log} {F : Finset ℕ} {e : Stop} (h : log.Fails F e) :
    e = .panic .tooBigTransaction ∨ e = .panic .logWriteOutsideTrans :=
  h.2.imp And.left And.left

/-- **Block ownership.** In every state that is reached from a disk without files: the block numbers
in the inodes are different data blocks of the disk, and the free map marks those and the meta
blocks. `itrunc` frees exactly the blocks of its inode. Only the log can stop `itrunc`, and `bmap`
too when there are enough free blocks; at the beginning of an operation it stops neither. -/
theorem mapRun_owned {env : Env} {s₀ s : FsState} {calls : List MapCall}
    (h₀ : NoFiles env.sb s₀) (run : Machine.Run (mapStep env) s₀ calls s) :
    (∀ ip jp q r, blockShape.Pos q → blockShape.Pos r → s.ptr ip q ≠ 0 →
      s.ptr ip q = s.ptr jp r → ip = jp ∧ q = r) ∧
    (∀ ip q, blockShape.Pos q → s.ptr ip q ≠ 0 →
      env.sb.dataStart ≤ s.ptr ip q ∧ s.ptr ip q < env.sb.size) ∧
    (∀ b < env.sb.size, s.used env.sb b = true ↔
      b < env.sb.dataStart ∨ ∃ ip q, blockShape.Pos q ∧ s.ptr ip q = b) ∧
    (∀ ip t, mapStep env s (.itrunc ip) = some (.ok t) → ∀ b,
      (s.used env.sb b = true ∧ t.used env.sb b = false ↔
        b ≠ 0 ∧ ∃ q, blockShape.Pos q ∧ s.ptr ip q = b) ∧
      (s.used env.sb b = false → t.used env.sb b = false)) ∧
    (∀ ip e, mapStep env s (.itrunc ip) = some (.error e) →
      e = .panic .tooBigTransaction ∨ e = .panic .logWriteOutsideTrans) ∧
    (∀ ip bn e, (s.missing ip (chain (locate bn))).length ≤ (s.freeBlocks env.sb).card →
      mapStep env s (.bmap ip bn) = some (.error e) →
      e = .panic .tooBigTransaction ∨ e = .panic .logWriteOutsideTrans) ∧
    (s.log.JustBegun →
      (∀ ip, ∃ t, mapStep env s (.itrunc ip) = some (.ok t)) ∧
      ∀ ip bn, bn < SAFEBLOCKS →
        (s.missing ip (chain (locate bn))).length ≤ (s.freeBlocks env.sb).card →
        ∃ t, mapStep env s (.bmap ip bn) = some (.ok t)) := by
  have h : MapInv env.sb s := run.invariant (MapInv.init h₀) MapInv.step
  refine ⟨?_, ?_, fun b hb ↦ h.used_iff hb, ?_, ?_, ?_, fun hlog ↦ ⟨?_, ?_⟩⟩
  · intro ip jp q r hq hr hne heq
    have := h.owned.inj ((ip, q.1), q.2) ((jp, r.1), r.2) (treeShape_pos.2 hq)
      (treeShape_pos.2 hr) hne heq
    simp only [Prod.mk.injEq] at this
    exact ⟨this.1.1, Prod.ext this.1.2 this.2⟩
  · exact fun ip q hq hne ↦ h.owned.range ((ip, q.1), q.2) (treeShape_pos.2 hq) hne
  · intro ip t ht b
    obtain ⟨_, rfl⟩ := (h.itrunc_sat ip).of_exec_ok (Option.some.inj ht)
    exact h.freed_iff ip b
  · intro ip e he
    exact ((h.itrunc_sat ip).of_exec_error (Option.some.inj he)).panic
  · intro ip bn e hfree he
    rw [mapStep] at he
    split at he
    next hbn =>
      obtain ⟨F, -, hF⟩ := (h.bmap_sat hbn hfree).of_exec_error (Option.some.inj he)
      exact hF.panic
    · cases he
  · intro ip
    rcases (h.itrunc_sat ip).exec with ⟨_, t, ht, -⟩ | ⟨e, -, hf⟩
    · exact ⟨t, congrArg some ht⟩
    · exact absurd hf (hlog.not_fails ((h.card_logged_trunc ip).trans (by omega)))
  · intro ip bn hbn hfree
    rw [mapStep, if_pos hbn]
    rcases (h.bmap_sat hbn hfree).exec with ⟨_, t, ht, -⟩ | ⟨e, -, F, hcard, hF⟩
    · exact ⟨t, congrArg some ht⟩
    · exact absurd hF (hlog.not_fails (hcard.trans (by omega)))

/-- The disk of `mkfs` without files, and two inodes that take turns in the cache. -/
def emptyFs : FsState where
  blocks := markedDisk nmeta
  log := Log.init mkfsSuperblock
  trace := []
  icache := fun ip ↦
    { Dinode.zero with inum := ip % 2 + 1, ref := 1, locked := true, valid := true }
  ftable := fun _ ↦ ⟨.none, 0, false, false, 0, 0, 0⟩

theorem noFiles_emptyFs : NoFiles mkfsEnv.sb emptyFs where
  lh := rfl
  used_iff := fun b _ ↦ by
    rw [show mkfsEnv.sb = mkfsSuperblock from rfl, used_markedDisk (fun _ _ ↦ rfl) (by decide),
      mkfsSuperblock_dataStart]
  addrs_eq := fun ip k ↦ by
    show (Dinode.zero.addr k).toNat = 0
    rw [Dinode.addr]
    split <;> rfl
  inum_lt := fun ip ↦ by
    show ip % 2 + 1 < 200
    omega

/-- Two files get blocks in all parts of their trees, and the first one is truncated and gets another one. Then
`itrunc` frees the blocks of the second file. -/
theorem mapRun_owned_emptyFs : ∃ s, Machine.Run (mapStep mkfsEnv) emptyFs [.beginOp, .bmap 0 0, .bmap 1 5, .bmap 0 10,
      .bmap 1 200, .bmap 0 20000, .bmap 1 20000, .itrunc 0, .bmap 0 1] s ∧
    s.ptr 0 (locate 1) ≠ s.ptr 1 (locate 20000) ∧
    (∀ b < mkfsEnv.sb.size, s.used mkfsEnv.sb b = true ↔
      b < mkfsEnv.sb.dataStart ∨ ∃ ip q, blockShape.Pos q ∧ s.ptr ip q = b) ∧
    ∃ t, mapStep mkfsEnv s (.itrunc 1) = some (.ok t) ∧ ∀ b, s.used mkfsEnv.sb b = true ∧ t.used mkfsEnv.sb b = false ↔
      b ≠ 0 ∧ ∃ q, blockShape.Pos q ∧ s.ptr 1 q = b := by
  refine Machine.exists_run_of (fun s ↦ s.ptr 0 (locate 1) ≠ 0 ∧
    Machine.reaches (mapStep mkfsEnv) s [.itrunc 1] fun _ ↦ true) (by decide +kernel) fun s run hs ↦ ?_
  obtain ⟨hinj, -, hused, hfreed, -⟩ := mapRun_owned noFiles_emptyFs run
  obtain ⟨t, hstep, -⟩ := Machine.exists_step hs.2
  refine ⟨fun heq ↦ ?_, hused, t, hstep, fun b ↦ (hfreed 1 t hstep b).1⟩
  cases (hinj 0 1 _ _ (Fs.pos_locate (by decide)) (Fs.pos_locate (by decide)) hs.1 heq).1

end Xv6
