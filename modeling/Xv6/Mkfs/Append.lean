import Xv6.Fs.ReadWrite
import Xv6.Mkfs.Basic

/-!
# `iappend` as a write of the kernel

`iappend` has a block map of its own, for ten direct blocks and one indirect block. To the image and
the counter `freeblock` belongs a file system in which the blocks before `freeblock` are marked
(`Mkfs.Shows`). There, `freeblock++` takes the first free block, and so what `iappend` does is what
`writei` of the kernel does (`Mkfs.appendLoop_sat`): all that is known of `Wrote` holds of it.

This goes well up to `CAPACITY`. For the next block `iappend` uses an entry that `indirect` does not
have.
-/

namespace Xv6

open Function FsState

namespace Mkfs

open PointerTree

/-- So many bytes have their blocks in the direct and the first indirect blocks. -/
def CAPACITY : ℕ := (NDIRECT + NINDIRECT) * BSIZE

/-- The number of blocks for a file of the given size, the indirect block included. -/
def blocksFor (size : ℕ) : ℕ :=
  (size + BSIZE - 1) / BSIZE + if NDIRECT * BSIZE < size then 1 else 0

/-- The file system that belongs to an image: the blocks before `freeblock` are marked. -/
structure Shows (m : MkfsState) (s : FsState) : Prop where
  start : nmeta ≤ m.freeblock
  blocks : ∀ c, c < mkfsSuperblock.bmapstart ∨ nmeta ≤ c → s.blocks c = m.img c
  used : ∀ b < mkfsSuperblock.size, (s.used mkfsSuperblock b = true ↔ b < m.freeblock)
  fresh : ∀ c, m.freeblock ≤ c → m.img c = Block.zero
  outstanding : 1 ≤ s.log.outstanding

/-- The inode with the entries `r` in `addrs` has the blocks for `off` bytes and no others. -/
structure Exact (s : FsState) (r : ℕ → ℕ) (off : ℕ) : Prop where
  data : ∀ bn < NDIRECT + NINDIRECT,
    (follow s.heap (r (locate bn).1) (locate bn).2 ≠ 0 ↔ bn * BSIZE < off)
  indirect : r NDIRECT ≠ 0 ↔ NDIRECT * BSIZE < off

/-- What `iappend` leaves alone before it writes the inode: the inodes and the blocks before the
data. -/
structure Frame (m m' : MkfsState) : Prop where
  freeinode : m'.freeinode = m.freeinode
  img : ∀ c < nmeta, m'.img c = m.img c

variable {m m' m'' : MkfsState} {s t u : FsState}

theorem Frame.refl (m : MkfsState) : Frame m m := ⟨rfl, fun _ _ ↦ rfl⟩

theorem Frame.trans (h : Frame m m') (h' : Frame m' m'') : Frame m m'' where
  freeinode := h'.freeinode.trans h.freeinode
  img := fun c hc ↦ (h'.img c hc).trans (h.img c hc)

/-- Writing a data block. -/
theorem Frame.write (h : Frame m m') {b : ℕ} (hb : nmeta ≤ b) (v : Block) :
    Frame m { m' with img := update m'.img b v } where
  freeinode := h.freeinode
  img := fun c hc ↦ (update_of_ne (by omega) ..).trans (h.img c hc)

/-! ### The counters -/

namespace Shows

theorem leastFree (h : Shows m s) (hlt : m.freeblock < FSSIZE) :
    s.LeastFree mkfsSuperblock m.freeblock where
  lt := hlt
  free := Bool.eq_false_iff.2 fun hused ↦ Nat.lt_irrefl _ ((h.used _ hlt).1 hused)
  least := fun c hc ↦ (h.used c (hc.trans hlt)).2 hc

/-- Taking a block. -/
theorem allocate (h : Shows m s) (hlt : m.freeblock < FSSIZE) :
    Shows { m with freeblock := m.freeblock + 1 } (s.allocate mkfsSuperblock m.freeblock) where
  start := h.start.trans (Nat.le_succ _)
  blocks := fun c hc ↦ by
    have hne : c ≠ mkfsSuperblock.BBLOCK m.freeblock := by
      have h1 := mkfsSuperblock.BBLOCK_lt_dataStart hlt
      have h2 : mkfsSuperblock.bmapstart ≤ mkfsSuperblock.BBLOCK m.freeblock := Nat.le_add_left ..
      rw [mkfsSuperblock_dataStart] at h1
      omega
    rw [blocks_allocate s hne]
    split
    next heq => rw [heq, h.fresh _ (le_refl _)]
    · exact h.blocks c hc
  used := fun b hb ↦ by
    rw [used_allocate (mkfsSuperblock_dataStart ▸ h.start) hb, Bool.or_eq_true,
      decide_eq_true_iff, h.used b hb]
    exact Nat.lt_succ_iff_lt_or_eq.trans or_comm |>.symm
  fresh := fun c hc ↦ h.fresh c ((Nat.le_succ _).trans hc)
  outstanding := h.outstanding

/-- Writing a block that is in use and not in the free map. -/
theorem store (h : Shows m s) {b : ℕ} (hb : b < m.freeblock)
    (hmap : b < mkfsSuperblock.bmapstart ∨ nmeta ≤ b) (v : Block) :
    Shows { m with img := update m.img b v } (s.store b v) where
  start := h.start
  blocks := fun c hc ↦ by
    dsimp only
    rw [blocks_store, update_apply]
    split
    · rfl
    · exact h.blocks c hc
  used := fun c hc ↦ by
    rw [used_store_of_ne, h.used c hc]
    have h1 := mkfsSuperblock.BBLOCK_lt_dataStart hc
    have h2 : mkfsSuperblock.bmapstart ≤ mkfsSuperblock.BBLOCK c := Nat.le_add_left ..
    rw [mkfsSuperblock_dataStart] at h1
    omega
  fresh := fun c hc ↦ by
    dsimp only at hc ⊢
    rw [update_of_ne (by omega), h.fresh c hc]
  outstanding := h.outstanding

theorem setInode (h : Shows m s) (ip : ℕ) (i : Inode) : Shows m (s.setInode ip i) :=
  { h with }

end Shows

/-! ### Finding the block -/

section FileBlock

variable {ι : Type} {R : ι → ℕ → ℕ} {i : ι} {ip : ℕ}

/-- A block in a tree is in use. -/
theorem Shows.lt_freeblock (hs : Shows m s) (h : Owned mkfsSuperblock R s) {p : (ι × ℕ) × List ℕ}
    (hp : (treeShape ι).Pos p) (hne : (forest R s).ptr p ≠ 0) :
    nmeta ≤ (forest R s).ptr p ∧ (forest R s).ptr p < m.freeblock ∧ (forest R s).ptr p < FSSIZE := by
  obtain ⟨hstart, hlt⟩ := h.range p hp hne
  exact ⟨mkfsSuperblock_dataStart ▸ hstart, (hs.used _ hlt).1 (h.used_ptr p hp hne), hlt⟩

theorem sat_rsect {sec : ℕ} (hsec : sec < FSSIZE) {Q : Block → MkfsState → Prop}
    {E : MkfsStop → Prop} : (rsect sec).Sat m Q E ↔ Q (m.img sec) m := by
  rw [rsect, if_pos hsec]
  rfl

/-- The block after the last one: there is no such entry in `indirect`. -/
theorem fileBlock_outOfBounds (h : Owned mkfsSuperblock R s) (hR : R i = s.addrs ip)
    (hs : Shows m s) (hex : Exact s (s.addrs ip) CAPACITY) :
    (fileBlock (s.icache ip).toDinode (CAPACITY / BSIZE)).Sat m (fun _ _ ↦ False)
      fun e ↦ e = .outOfBounds := by
  have hne : s.addrs ip NDIRECT ≠ 0 := hex.indirect.2 (by decide)
  have hnull : (s.icache ip).toDinode.addr NDIRECT ≠ 0 := fun h0 ↦ hne (word_eq_zero_iff.1 h0)
  have hdisk : ((s.icache ip).toDinode.addr NDIRECT).toNat < FSSIZE := by
    have hin := hs.lt_freeblock h (p := ((i, NDIRECT), [])) (treeShape_pos.2 (.root _))
    rw [forest_ptr hR] at hin
    exact (hin hne).2.2
  rw [fileBlock, if_neg (by decide), rootBlock, if_neg hnull, Prog.sat_bind, Prog.sat_pure,
    Prog.sat_bind, entryBlock, Prog.sat_bind, sat_rsect hdisk, if_pos (by decide)]
  rfl

variable [DecidableEq ι]

theorem rootBlock_sat (h : Owned mkfsSuperblock R s) (hR : R i = s.addrs ip) (hs : Shows m s)
    {k : ℕ} (hk : k < NADDRS) (hroom : s.addrs ip k = 0 → m.freeblock < FSSIZE) :
    (rootBlock (s.icache ip).toDinode k).Sat m
      (fun din m' ↦ ∃ u, Reaches mkfsSuperblock ip s [(k, [])] (k, []) (din.addr k).toNat u ∧
        Shows m' u ∧ (u.icache ip).toDinode = din ∧
        m' = { m with freeblock := m.freeblock + if s.addrs ip k = 0 then 1 else 0 })
      fun _ ↦ False := by
  rw [rootBlock]
  split
  next hnull =>
    have hnull : s.addrs ip k = 0 := word_eq_zero_iff.1 hnull
    have hgrow : Grow mkfsSuperblock ip s ⟨(k, []), m.freeblock, _⟩ _ :=
      .root hk hnull (hs.leastFree (hroom hnull))
    obtain ⟨hptr, hne⟩ := h.ptr_grow_self hR hgrow
    have hblock : (((s.icache ip).toDinode.setAddr k (BitVec.ofNat 32 m.freeblock)).addr k).toNat =
        m.freeblock := by
      have hlt : m.freeblock < 2 ^ 32 := (hs.leastFree (hroom hnull)).lt_two_pow
      rw [Dinode.addr_setAddr hk, if_pos rfl, BitVec.toNat_ofNat, Nat.mod_eq_of_lt hlt]
    refine ⟨_, .of_grow hgrow (hblock.trans hptr) (by rwa [hblock]) hs.outstanding,
      (hs.allocate (hroom hnull)).setInode .., ?_, ?_⟩
    · rw [setAddr, icache_setInode_self]
      rfl
    · rw [if_pos hnull]
  next hne =>
    have hne : s.ptr ip (k, []) ≠ 0 := fun h ↦ hne (word_eq_zero_iff.2 h)
    have hne' : s.addrs ip k ≠ 0 := hne
    exact ⟨s, .of_ne hne, hs, rfl, by rw [if_neg hne', Nat.add_zero]⟩

theorem entryBlock_sat (h : Owned mkfsSuperblock R s) (hR : R i = s.addrs ip) (hs : Shows m s)
    (hne : s.addrs ip NDIRECT ≠ 0) {j : ℕ} (hj : j < NINDIRECT)
    (hroom : s.ptr ip (NDIRECT, [j]) = 0 → m.freeblock < FSSIZE) :
    (entryBlock (s.icache ip).toDinode j).Sat m
      (fun x m' ↦ ∃ u, Reaches mkfsSuperblock ip s [(NDIRECT, [j])] (NDIRECT, [j]) x u ∧
        Shows m' u ∧ u.icache = s.icache ∧ Frame m m' ∧
        m'.freeblock = m.freeblock + if s.ptr ip (NDIRECT, [j]) = 0 then 1 else 0) fun _ ↦ False := by
  obtain ⟨a, ha⟩ : ∃ a, a = s.addrs ip NDIRECT := ⟨_, rfl⟩
  have haddr : ((s.icache ip).toDinode.addr NDIRECT).toNat = a := ha.symm
  have hpos : blockShape.Pos (NDIRECT, [] ++ [j]) :=
    ⟨show 1 ≤ level NDIRECT by decide, fun x hx ↦ List.mem_singleton.1 hx ▸ hj⟩
  have hptr : s.ptr ip (NDIRECT, [j]) = s.heap a j := by
    rw [ha]
    exact follow_concat (p := []) s.heap hne j
  -- the indirect block is in use
  obtain ⟨hstart, hlt, hdisk⟩ : nmeta ≤ a ∧ a < m.freeblock ∧ a < FSSIZE := by
    have hin := hs.lt_freeblock h (p := ((i, NDIRECT), [])) (treeShape_pos.2 (.root _))
    rw [forest_ptr hR] at hin
    rw [ha]
    exact hin hne
  have hblock : s.blocks a = m.img a := hs.blocks a (.inr hstart)
  rw [hptr] at hroom ⊢
  rw [entryBlock, haddr, Prog.sat_bind, sat_rsect hdisk, if_neg (by omega), ← hblock]
  split
  next hnull =>
    have hnull : s.heap a j = 0 := word_eq_zero_iff.1 hnull
    have hleast := hs.leastFree (hroom hnull)
    have hgrow : Grow mkfsSuperblock ip s ⟨(NDIRECT, [] ++ [j]), m.freeblock, _⟩ _ :=
      .entry hpos hne (show s.heap (s.addrs ip NDIRECT) j = 0 by rw [← ha, hnull]) hleast
    obtain ⟨hself, hself0⟩ := h.ptr_grow_self hR hgrow
    have hword : (((s.blocks a).setWord j (BitVec.ofNat 32 m.freeblock)).word j).toNat =
        m.freeblock := by
      rw [Block.word_setWord_self hj, BitVec.toNat_ofNat, Nat.mod_eq_of_lt hleast.lt_two_pow]
    refine ⟨_, .of_grow hgrow (hword.trans hself) (by rwa [hword]) hs.outstanding, ?_, rfl,
      ⟨rfl, fun c hc ↦ update_of_ne (by omega) ..⟩, ?_⟩
    · have hs' := hs.allocate (hroom hnull)
      show Shows _ (store _ (s.addrs ip NDIRECT)
        (Block.setWord (blocks _ (s.addrs ip NDIRECT)) j _))
      rw [← ha, hs'.blocks a (.inr hstart), hblock]
      exact hs'.store (hlt.trans (Nat.lt_succ_self _)) (.inr hstart) _
    · rw [if_pos hnull]
  next hentry =>
    have hentry : s.heap a j ≠ 0 := fun h ↦ hentry (word_eq_zero_iff.2 h)
    have hreach : Reaches mkfsSuperblock ip s [(NDIRECT, [j])] (NDIRECT, [j]) _ s :=
      .of_ne (by rwa [hptr])
    rw [hptr] at hreach
    exact ⟨s, hreach, hs, rfl, .refl m, by rw [if_neg hentry, Nat.add_zero]⟩

variable {bn off n : ℕ}

theorem locate_direct (h : bn < NDIRECT) : locate bn = (bn, []) := if_pos h

theorem locate_indirect (h : ¬bn < NDIRECT) (h' : bn < NDIRECT + NINDIRECT) :
    locate bn = (NDIRECT, [bn - NDIRECT]) := by
  rw [locate, if_neg h]
  exact if_pos (by omega)

theorem lt_SAFEBLOCKS (h : bn < NDIRECT + NINDIRECT) : bn < SAFEBLOCKS :=
  h.trans (by decide)

/-- How many blocks are taken for the next byte. -/
theorem blocksFor_succ (off : ℕ) : blocksFor (off + 1) =
    blocksFor off + (if off / BSIZE * BSIZE < off then 0 else 1) +
      if off = NDIRECT * BSIZE then 1 else 0 := by
  have hB : BSIZE = 512 := rfl
  have hN : NDIRECT = 10 := rfl
  rw [blocksFor, blocksFor, hB, hN]
  split <;> split <;> split <;> split <;> omega

/-- The block of the next byte, taken from the free blocks if it is not there. -/
theorem fileBlock_sat (h : Owned mkfsSuperblock R s) (hR : R i = s.addrs ip) (hs : Shows m s)
    (hex : Exact s (s.addrs ip) off) (hoff : off < CAPACITY)
    (hroom : m.freeblock + blocksFor (off + 1) ≤ FSSIZE + blocksFor off) :
    (fileBlock (s.icache ip).toDinode (off / BSIZE)).Sat m
      (fun out m' ↦ ∃ u, Reaches mkfsSuperblock ip s (chain (locate (off / BSIZE)))
        (locate (off / BSIZE)) out.2 u ∧ Shows m' u ∧ (u.icache ip).toDinode = out.1 ∧
        Frame m m' ∧ m'.freeblock + blocksFor off = m.freeblock + blocksFor (off + 1))
      fun _ ↦ False := by
  have hB : BSIZE = 512 := rfl
  have hN : NDIRECT = 10 := rfl
  have hI : NINDIRECT = 128 := rfl
  have hC : CAPACITY = 138 * 512 := rfl
  have hbn : off / BSIZE < NDIRECT + NINDIRECT := by
    rw [hB, hN, hI]
    omega
  have hdata := hex.data _ hbn
  have hnext := blocksFor_succ off
  rw [fileBlock]
  split
  next hdirect =>
    have hloc := locate_direct hdirect
    rw [hloc] at hdata ⊢
    have hdata : s.addrs ip (off / BSIZE) ≠ 0 ↔ off / BSIZE * BSIZE < off := hdata
    have hne : off ≠ NDIRECT * BSIZE := by
      rw [hB, hN] at hdirect ⊢
      omega
    rw [if_neg hne] at hnext
    refine (rootBlock_sat h hR hs (hdirect.trans (by decide)) fun hnull ↦ ?_).bind ?_
    · have hnot : ¬off / BSIZE * BSIZE < off := fun hlt ↦ hdata.2 hlt hnull
      rw [if_neg hnot] at hnext
      omega
    · rintro din m' ⟨u, hu, hshows, hdin, rfl⟩
      refine ⟨u, hu, hshows, hdin, ⟨rfl, fun _ _ ↦ rfl⟩, ?_⟩
      dsimp only
      by_cases hnull : s.addrs ip (off / BSIZE) = 0
      · rw [if_pos hnull]
        rw [if_neg fun hlt ↦ hdata.2 hlt hnull] at hnext
        omega
      · rw [if_neg hnull]
        rw [if_pos (hdata.1 hnull)] at hnext
        omega
  next hindirect =>
    have hloc := locate_indirect hindirect hbn
    rw [hloc] at hdata ⊢
    obtain ⟨j, hj⟩ : ∃ j, j = off / BSIZE - NDIRECT := ⟨_, rfl⟩
    rw [← hj] at hdata ⊢
    have hdata : s.ptr ip (NDIRECT, [j]) ≠ 0 ↔ off / BSIZE * BSIZE < off := hdata
    have hge : NDIRECT * BSIZE ≤ off := by
      rw [hB, hN] at hindirect ⊢
      omega
    -- the indirect block is missing at one offset only
    have hroot : s.addrs ip NDIRECT = 0 ↔ off = NDIRECT * BSIZE := by
      have hindirect := not_congr hex.indirect
      rw [ne_eq, not_not] at hindirect
      omega
    have hcount : (if off / BSIZE * BSIZE < off then 0 else 1) =
        if s.ptr ip (NDIRECT, [j]) = 0 then 1 else 0 := by
      by_cases hlt : off / BSIZE * BSIZE < off
      · rw [if_pos hlt, if_neg (hdata.2 hlt)]
      · rw [if_neg hlt, if_pos (not_not.1 fun hne ↦ hlt (hdata.1 hne))]
    rw [hcount, ← if_congr hroot rfl rfl] at hnext
    refine (rootBlock_sat h hR hs (by decide) fun hnull ↦ ?_).bind ?_
    · rw [if_pos hnull] at hnext
      omega
    rintro din m₁ ⟨u, hu, hshows, hdin, rfl⟩
    obtain ⟨l, hl, hmiss, haddr, hne, -⟩ := id hu
    have hpos : blockShape.Pos (NDIRECT, [j]) :=
      ⟨show 1 ≤ level NDIRECT by decide, fun x hx ↦ by
        rw [List.mem_singleton.1 hx]
        show j < NINDIRECT
        omega⟩
    have hother : (NDIRECT, [j]) ∉ [(NDIRECT, [])] := by simp
    have hsame : u.ptr ip (NDIRECT, [j]) = s.ptr ip (NDIRECT, [j]) :=
      h.ptr_grows hR hl hpos fun hmem ↦ hother (List.mem_of_mem_filter (hmiss ▸ hmem))
    have hroot' : u.addrs ip NDIRECT ≠ 0 := by
      rw [haddr] at hne
      exact hne
    subst hdin
    refine (entryBlock_sat (h.grows hR hl).owned (update_self ..) hshows hroot' (by omega)
      fun hnull ↦ ?_).bind ?_
    · rw [hsame] at hnull
      rw [if_pos hnull] at hnext
      dsimp only
      omega
    rintro x m₂ ⟨v, hv, hshows', hic, hframe, hfb⟩
    refine ⟨v, h.reaches_trans hR hu ?_ hv, hshows', ?_, ⟨hframe.freeinode, hframe.img⟩, ?_⟩
    · exact fun q hq ↦ List.mem_singleton.1 hq ▸ ⟨hpos, hother⟩
    · rw [hic]
    · rw [hsame] at hfb
      dsimp only at hfb
      omega

/-- On the way to a data block there is no other data block. -/
theorem mem_chain_locate {bn' : ℕ} : locate bn ∈ chain (locate bn') ↔ bn = bn' := by
  rw [mem_chain]
  constructor
  · rintro ⟨p, hpre, heq⟩
    have hlen := Fs.level_locate bn
    rw [heq] at hlen
    have hp : p = (locate bn').2 :=
      hpre.eq_of_length (hlen.trans (Fs.level_locate bn').symm)
    rw [hp] at heq
    exact Fs.locate_injective heq
  · rintro rfl
    exact ⟨_, List.prefix_rfl, rfl⟩

theorem mem_chain_root {k : ℕ} {pos : ℕ × List ℕ} : (k, []) ∈ chain pos ↔ k = pos.1 := by
  rw [mem_chain]
  constructor
  · rintro ⟨p, -, heq⟩
    exact congrArg Prod.fst heq
  · rintro rfl
    exact ⟨[], List.nil_prefix, rfl⟩

/-- After a write a position is null if it was, and is not on the way to a block of the range. -/
theorem ptr_eq_zero_of_wrote {src : ℕ → Byte} {l : List Growth} {R' : ι → ℕ → ℕ}
    (hw : Wrote mkfsSuperblock R i ip s off src n l R' t) {q : ℕ × List ℕ} (hq : blockShape.Pos q) :
    t.ptr ip q = 0 ↔ s.ptr ip q = 0 ∧ ∀ bn ∈ blocksOf off n, q ∉ chain (locate bn) := by
  have hmem : q ∈ l.map Growth.pos ↔ q ∈ s.needed ip off n := by
    rw [← hw.needed, List.mem_toFinset]
  rw [hw.ptr_eq_zero_iff hw.roots.1 hw.roots.2 hq, hmem, mem_needed]
  constructor
  · rintro ⟨h0, hnot⟩
    exact ⟨h0, fun bn hbn hchain ↦ hnot ⟨⟨bn, hbn, hchain⟩, h0⟩⟩
  · rintro ⟨h0, hnot⟩
    exact ⟨h0, fun ⟨⟨bn, hbn, hchain⟩, _⟩ ↦ hnot bn hbn hchain⟩

/-- Appending keeps it so that the file has its blocks and no others. -/
theorem Exact.wrote {src : ℕ → Byte} {l : List Growth} {R' : ι → ℕ → ℕ} (hex : Exact s (s.addrs ip) off)
    (hw : Wrote mkfsSuperblock R i ip s off src n l R' t) (hcap : off + n ≤ CAPACITY) :
    Exact t (t.addrs ip) (off + n) := by
  have hB : BSIZE = 512 := rfl
  have hN : NDIRECT = 10 := rfl
  have hI : NINDIRECT = 128 := rfl
  have hC : CAPACITY = 138 * 512 := rfl
  refine ⟨fun bn hbn ↦ ?_, ?_⟩
  · have hold := hex.data bn hbn
    have hiff := not_congr (ptr_eq_zero_of_wrote hw (Fs.pos_locate (lt_SAFEBLOCKS hbn)))
    refine hiff.trans ?_
    rw [not_and_or, ← ne_eq, show s.ptr ip (locate bn) ≠ 0 ↔ _ from hold, hB]
    simp only [mem_chain_locate, mem_blocksOf, hB]
    constructor
    · rintro (hlt | hnot)
      · omega
      · by_contra hge
        refine hnot ?_
        rintro _ ⟨x, hx, hx', rfl⟩ rfl
        omega
    · intro hlt
      by_cases hoff : bn * 512 < off
      · exact .inl hoff
      · exact .inr fun hnot ↦ hnot bn ⟨bn * 512, by omega, hlt, by omega⟩ rfl
  · have hold := hex.indirect
    have hiff := not_congr (ptr_eq_zero_of_wrote hw (q := (NDIRECT, [])) (.root _))
    refine hiff.trans ?_
    rw [not_and_or, ← ne_eq, show s.ptr ip (NDIRECT, []) ≠ 0 ↔ _ from hold]
    have hfst {bn : ℕ} (hbn : bn < NDIRECT + NINDIRECT) :
        NDIRECT = (locate bn).1 ↔ ¬bn < NDIRECT := by
      by_cases hdirect : bn < NDIRECT
      · rw [locate_direct hdirect]
        omega
      · rw [locate_indirect hdirect hbn]
        exact iff_of_true rfl hdirect
    constructor
    · rintro (hlt | hnot)
      · omega
      · by_contra hge
        refine hnot fun bn hbn hmem ↦ ?_
        obtain ⟨x, hx, hx', rfl⟩ := mem_blocksOf.1 hbn
        rw [mem_chain_root, hfst (by rw [hB, hN, hI]; omega)] at hmem
        rw [hB, hN] at hmem hge
        omega
    · intro hlt
      by_cases hoff : NDIRECT * BSIZE < off
      · exact .inl hoff
      · refine .inr fun hnot ↦ hnot ((off + n - 1) / BSIZE)
          (mem_blocksOf.2 ⟨off + n - 1, by omega, by omega, rfl⟩) ?_
        rw [mem_chain_root, hfst (by rw [hB, hN, hI]; omega)]
        rw [hB, hN] at hlt hoff ⊢
        omega

theorem blocksFor_mono {a b : ℕ} (h : a ≤ b) : blocksFor a ≤ blocksFor b := by
  have hB : BSIZE = 512 := rfl
  have hN : NDIRECT = 10 := rfl
  rw [blocksFor, blocksFor, hB, hN]
  split <;> split <;> omega

/-- Within a block no new one is taken. -/
theorem blocksFor_add (hpos : 0 < n) (hn : n ≤ BSIZE - off % BSIZE) :
    blocksFor (off + n) = blocksFor (off + 1) := by
  have hB : BSIZE = 512 := rfl
  have hN : NDIRECT = 10 := rfl
  rw [blocksFor, blocksFor, hN]
  rw [hB] at hn ⊢
  split <;> split <;> omega

/-- `iappend` appends as `writei` would, up to the capacity of the first indirect block; beyond, it
leaves the array `indirect`. -/
theorem appendLoop_sat (h : Owned mkfsSuperblock R s) (hR : R i = s.addrs ip) (hs : Shows m s)
    (hex : Exact s (s.addrs ip) off) (hoff : off ≤ CAPACITY) (hmax : off + n ≤ MAXFILE * BSIZE)
    (hroom : m.freeblock + blocksFor (min (off + n) CAPACITY) ≤ FSSIZE + blocksFor off) (p : ℕ → Byte) :
    (appendLoop (s.icache ip).toDinode off p n).Sat m
      (fun out m' ↦ out.2 = off + n ∧ off + n ≤ CAPACITY ∧
        ∃ l t, Wrote mkfsSuperblock R i ip s off p n l (update R i (t.addrs ip)) t ∧
          Shows m' t ∧ (t.icache ip).toDinode = out.1 ∧ Frame m m' ∧
          m'.freeblock + blocksFor off = m.freeblock + blocksFor (off + n))
      fun e ↦ e = .outOfBounds ∧ CAPACITY < off + n := by
  have hB : BSIZE = 512 := rfl
  have hC : CAPACITY = 138 * 512 := rfl
  have hM : MAXFILE = 2113674 := rfl
  have hS : SAFEBYTES = 16847872 := rfl
  induction n using Nat.strong_induction_on generalizing m s R off p with
  | _ n ih =>
    rw [appendLoop]
    split
    next hn =>
      refine ⟨by rw [hn]; rfl, by omega, [], s, ?_, hs, rfl, .refl m, by rw [hn]; rfl⟩
      rw [← hR, update_eq_self, hn]
      exact .refl h hR off p
    next hn =>
      have hfbn : off / BSIZE < MAXFILE := by
        rw [hB] at hmax ⊢
        omega
      rw [if_pos hfbn]
      rcases hoff.lt_or_eq with hlt | heq
      · have hsplit : min n ((off / BSIZE + 1) * BSIZE - off) = min n (BSIZE - off % BSIZE) := by
          rw [hB]
          omega
        have hpart : off - off / BSIZE * BSIZE = off % BSIZE := by
          rw [hB]
          omega
        obtain ⟨hm0, hm1, hsum⟩ := Fs.firstPart hn off
        rw [hsplit, hpart]
        generalize min n (BSIZE - off % BSIZE) = n1 at hm0 hm1 hsum ⊢
        have hle : off + n1 ≤ CAPACITY := by
          rw [hB] at hm1
          omega
        have hblocks := blocksFor_add hm0 hm1
        have hmono := blocksFor_mono (show off + n1 ≤ min (off + n) CAPACITY by omega)
        refine ((fileBlock_sat h hR hs hex hlt (by omega)).imp_error
          fun e he ↦ he.elim).bind ?_
        rintro ⟨din, x⟩ m₁ ⟨u, hu, hshows, hdin, hframe, hfb⟩
        have hdisk := Fs.Reaches.lt_FSSIZE h hR (div_BSIZE_lt (by omega)) hu
        obtain ⟨l₁, hl, -, hx, hne, -⟩ := id hu
        obtain ⟨hstart, hused, -⟩ : nmeta ≤ x ∧ x < m₁.freeblock ∧ x < FSSIZE := by
          have hR' : update R i (u.addrs ip) i = u.addrs ip := update_self ..
          have hin := hshows.lt_freeblock (h.grows hR hl).owned (p := dataPos i (off / BSIZE))
            (pos_dataPos (div_BSIZE_lt (by omega)))
          rw [forest_dataPos hR', ← hx] at hin
          exact hin hne
        rw [Prog.sat_bind, sat_rsect hdisk, Prog.sat_bind, wsect, Prog.sat_modify,
          ← hshows.blocks x (.inr hstart)]
        obtain ⟨l, hw⟩ : ∃ l, Wrote mkfsSuperblock R i ip s off p n1 l _ (u.store x _) :=
          h.wrote_block hR (by omega) hm0 hm1 hu _ rfl
        subst hdin
        -- the rest is appended to the file as it is now
        refine (ih (n - n1) (by omega) hw.owned hw.roots.2 (hshows.store hused (.inr hstart) _)
          (hex.wrote hw hle) hle (by omega) ?_ _).mono ?_ fun e he ↦ ⟨he.1, by omega⟩
        · rw [show off + n1 + (n - n1) = off + n by omega]
          dsimp only
          omega
        · rintro out m' ⟨hout, hcap, l', t, hw', hshows', hdin', hframe', hfb'⟩
          refine ⟨by omega, by omega, l ++ l', t, ?_, hshows', hdin',
            (hframe.write hstart _).trans hframe', ?_⟩
          · have hboth := hw.trans (by omega) hw'
            rwa [update_idem, hsum] at hboth
          · rw [show off + n1 + (n - n1) = off + n by omega] at hfb'
            dsimp only at hfb'
            omega
      · subst heq
        refine ((fileBlock_outOfBounds h hR hs hex).mono (fun _ _ ht ↦ ht.elim)
          fun e he ↦ ⟨he, by omega⟩).bind (P := fun _ _ ↦ False) fun _ _ ht ↦ ht.elim

end FileBlock

end Mkfs

end Xv6
