import Mathlib.Data.List.GetD
import Xv6.Fs.Mapped
import Xv6.Mkfs.Append

/-!
# Files on the image

`Mkfs.Built m s` is what holds of the image at any time: the trees of all inodes are in order, each
inode has the blocks for its size and no others, and no block is lost. `ialloc` and `iappend` keep it
(`Mkfs.ialloc_sat`, `Mkfs.iappend_sat`), and so a file that is appended piece by piece has its bytes
where the kernel looks for them (`Mkfs.iappend_agrees`): `iappend` and `bmap` agree, up to the
capacity of the first indirect block.
-/

namespace Xv6

open Function

namespace Mkfs

open PointerTree

/-- The inodes for which there is room before the free map. -/
abbrev Inum : Type := Fin (ninodeblocks * IPB)

/-- An inode on the image. -/
def dinodeOf (img : ℕ → Block) (inum : ℕ) : Dinode :=
  (img (mkfsSuperblock.IBLOCK inum)).dinode (inum % IPB)

/-- The block addresses in the inodes on the image. -/
def roots (img : ℕ → Block) (i : Inum) (k : ℕ) : ℕ := ((dinodeOf img i).addr k).toNat

/-- The size of an inode on the image. -/
def sizeOf (img : ℕ → Block) (inum : ℕ) : ℕ := (dinodeOf img inum).size.toNat

/-- The image is in order. -/
structure Built (m : MkfsState) (s : FsState) : Prop extends Shows m s where
  owned : Owned mkfsSuperblock (roots m.img) s
  noLeak : NoLeak mkfsSuperblock (roots m.img) s
  /-- The inodes have the blocks for their sizes and no others. -/
  exact : ∀ i : Inum, Exact s (roots m.img i) (sizeOf m.img i)
  size_le : ∀ i : Inum, sizeOf m.img i ≤ CAPACITY
  /-- The inodes that are still to be allocated are zero. -/
  unused : ∀ i : Inum, m.freeinode ≤ i → dinodeOf m.img i = Dinode.zero
  /-- The free map is written at the end. -/
  map : ∀ c, mkfsSuperblock.bmapstart ≤ c → c < nmeta → m.img c = Block.zero

variable {m m' : MkfsState} {s t : FsState} {i : Inum}

/-- The kernel on an image, when an operation has begun and no inode has been read. -/
def kernelOn (img : ℕ → Block) : FsState where
  blocks := img
  log := { Log.init mkfsSuperblock with outstanding := 1 }
  trace := []
  icache := fun _ ↦ { Dinode.zero with inum := 0, ref := 0, locked := false, valid := false }
  ftable := fun _ ↦ ⟨.none, 0, false, false, 0, 0, 0⟩

/-- The free map of `balloc`, in blocks that were zero. -/
theorem used_kernelOn {img : ℕ → Block}
    (hmap : ∀ c, mkfsSuperblock.bmapstart ≤ c → c < nmeta → img c = Block.zero) {n : ℕ} (hn : n ≤ BPB)
    {b : ℕ} (hb : b < FSSIZE) :
    (kernelOn (update img mkfsSuperblock.bmapstart (Block.firstBits n))).used
      mkfsSuperblock b = true ↔ b < n := by
  have hle : mkfsSuperblock.bmapstart ≤ mkfsSuperblock.BBLOCK b := Nat.le_add_left ..
  have hlt := mkfsSuperblock.BBLOCK_lt_dataStart hb
  rw [mkfsSuperblock_dataStart] at hlt
  have hblock : update img mkfsSuperblock.bmapstart (Block.firstBits n)
      (mkfsSuperblock.BBLOCK b) = markedDisk n (mkfsSuperblock.BBLOCK b) := by
    rw [markedDisk, update_apply, update_apply, hmap _ hle hlt]
  rw [← used_markedDisk (s := kernelOn (markedDisk n)) (fun _ _ ↦ rfl) hn]
  exact Eq.congr_left (congrArg (fun v ↦ v.bit (b % BPB)) hblock)

/-- No inode has been allocated. -/
theorem Built.init (img : ℕ → Block) (himg : ∀ c, mkfsSuperblock.inodestart ≤ c → img c = Block.zero) :
    ∃ s, Built ⟨img, 1, nmeta⟩ s := by
  have hstart : mkfsSuperblock.inodestart < mkfsSuperblock.bmapstart := by decide
  have hmeta : mkfsSuperblock.bmapstart < nmeta := by decide
  obtain ⟨s, hs⟩ : ∃ s, s = kernelOn
    (update img mkfsSuperblock.bmapstart (Block.firstBits nmeta)) := ⟨_, rfl⟩
  have hused (b : ℕ) (hb : b < FSSIZE) : s.used mkfsSuperblock b = true ↔ b < nmeta := by
    rw [hs]
    exact used_kernelOn (fun c hc _ ↦ himg c (hstart.le.trans hc)) (by decide) hb
  have hzero (i : ℕ) : dinodeOf img i = Dinode.zero := by
    rw [dinodeOf, himg (mkfsSuperblock.IBLOCK i) (Nat.le_add_left ..), Block.dinode_zero]
  have hroots (i : Inum) (k : ℕ) : roots img i k = 0 := by
    rw [roots, hzero, Dinode.addr]
    split <;> rfl
  have hsize (i : ℕ) : sizeOf img i = 0 := by
    rw [sizeOf, hzero]
    rfl
  refine ⟨s, ⟨le_refl _, fun c hc ↦ ?_, hused, fun c hc ↦ ?_, ?_⟩, .of_null hroots fun b hb ↦ ?_,
    fun b hb hsize hb' ↦ ?_, fun i ↦ ⟨fun bn _ ↦ ?_, ?_⟩, fun i ↦ ?_, fun i _ ↦ hzero i,
    fun c hc _ ↦ himg c (hstart.le.trans hc)⟩
  · rw [hs]
    exact update_of_ne (by omega) ..
  · exact himg c (hstart.le.trans (hmeta.le.trans hc))
  · rw [hs]
    exact le_refl 1
  · exact (hused b (hb.trans (by decide))).2 hb
  · exact absurd ((hused b hsize).1 hb') (Nat.not_lt.2 hb)
  · rw [hroots, follow_zero, hsize]
    exact iff_of_false (fun h ↦ h rfl) (Nat.not_lt_zero _)
  · rw [hroots, hsize]
    exact iff_of_false (fun h ↦ h rfl) (Nat.not_lt_zero _)
  · rw [hsize]
    exact Nat.zero_le _

/-! ### Inodes -/

theorem IBLOCK_lt (i : Inum) : mkfsSuperblock.IBLOCK i < mkfsSuperblock.bmapstart := by
  have hi : (i : ℕ) < 26 * 8 := i.isLt
  show (i : ℕ) / 8 + 32 < 58
  omega

/-- Writing an inode changes no other. -/
theorem dinodeOf_update (img : ℕ → Block) (i j : ℕ) (d : Dinode) :
    dinodeOf (update img (mkfsSuperblock.IBLOCK i)
      ((img (mkfsSuperblock.IBLOCK i)).setDinode (i % IPB) d)) j =
        if j = i then d else dinodeOf img j := by
  have hI : IPB = 8 := rfl
  rw [dinodeOf, update_apply]
  split
  next hblock =>
    have hdiv : j / IPB = i / IPB := Nat.add_right_cancel hblock
    split
    next hji => rw [hji, Block.dinode_setDinode_self (Nat.mod_lt _ (by decide))]
    next hji =>
      have hmod : j % IPB ≠ i % IPB := by
        rw [hI] at hdiv ⊢
        omega
      rw [Block.dinode_setDinode_of_ne hmod, ← hblock]
      rfl
  next hblock =>
    rw [if_neg]
    · rfl
    · rintro rfl
      exact hblock rfl

theorem sat_winode (i : Inum) (d : Dinode) {Q : Unit → MkfsState → Prop} {E : MkfsStop → Prop} :
    (winode i d).Sat m Q E ↔ Q () { m with
      img := update m.img (mkfsSuperblock.IBLOCK i)
        ((m.img (mkfsSuperblock.IBLOCK i)).setDinode (i % IPB) d) } := by
  have hlt : mkfsSuperblock.IBLOCK i < FSSIZE := (IBLOCK_lt i).trans (by decide)
  rw [winode, Prog.sat_bind, sat_rsect hlt]
  rfl

theorem sat_rinode (i : Inum) {Q : Dinode → MkfsState → Prop} {E : MkfsStop → Prop} :
    (rinode i).Sat m Q E ↔ Q (dinodeOf m.img i) m := by
  have hlt : mkfsSuperblock.IBLOCK i < FSSIZE := (IBLOCK_lt i).trans (by decide)
  rw [rinode, Prog.sat_bind, sat_rsect hlt]
  rfl

/-- A file whose blocks are where they were. -/
theorem Exact.congr {r r' : ℕ → ℕ} {off : ℕ} (h : Exact s r off)
    (hptr : ∀ bn < NDIRECT + NINDIRECT, follow t.heap (r' (locate bn).1) (locate bn).2 =
      follow s.heap (r (locate bn).1) (locate bn).2) (hroot : r' NDIRECT = r NDIRECT) :
    Exact t r' off where
  data := fun bn hbn ↦ by
    rw [hptr bn hbn]
    exact h.data bn hbn
  indirect := by
    rw [hroot]
    exact h.indirect

/-- Writing an inode, when it is known how its tree has been extended. -/
theorem Built.of_winode {n : MkfsState} (h : Built m s) (hframe : ∀ c < nmeta, n.img c = m.img c)
    (hs : Shows n t) {d : Dinode} {l : List Growth} (hext : Extended mkfsSuperblock (roots m.img) i s l
      (update (roots m.img) i fun k ↦ (d.addr k).toNat) t)
    (hex : Exact t (fun k ↦ (d.addr k).toNat) d.size.toNat) (hsize : d.size.toNat ≤ CAPACITY)
    (hi : (i : ℕ) < n.freeinode) (hfree : m.freeinode ≤ n.freeinode) :
    ∃ img u, img = update n.img (mkfsSuperblock.IBLOCK i)
        ((n.img (mkfsSuperblock.IBLOCK i)).setDinode (i % IPB) d) ∧
      Built { n with img := img } u ∧ (∀ c, nmeta ≤ c → u.blocks c = t.blocks c) ∧
      (∀ j : Inum, dinodeOf img j = if j = i then d else dinodeOf m.img j) ∧
      roots img = update (roots m.img) i fun k ↦ (d.addr k).toNat := by
  have hIB := IBLOCK_lt i
  have hstart : mkfsSuperblock.bmapstart < nmeta := by decide
  obtain ⟨v, hv⟩ : ∃ v, v = (n.img (mkfsSuperblock.IBLOCK i)).setDinode (i % IPB) d := ⟨_, rfl⟩
  obtain ⟨img, himg⟩ : ∃ img, img = update n.img (mkfsSuperblock.IBLOCK i) v := ⟨_, rfl⟩
  obtain ⟨u, hu⟩ : ∃ u, u = t.store (mkfsSuperblock.IBLOCK i) v := ⟨_, rfl⟩
  have hinode (j : Inum) : dinodeOf img j = if j = i then d else dinodeOf m.img j := by
    rw [himg, hv, dinodeOf_update, dinodeOf, dinodeOf, hframe _ ((IBLOCK_lt j).trans hstart)]
    exact if_congr Fin.val_inj rfl rfl
  have hroots : roots img = update (roots m.img) i fun k ↦ (d.addr k).toNat := by
    funext j k
    rw [roots, hinode, update_apply]
    split <;> rfl
  have hblocks (c : ℕ) (hc : mkfsSuperblock.bmapstart ≤ c) : u.blocks c = t.blocks c := by
    rw [hu, FsState.blocks_store, if_neg (by omega)]
  have hext' := hext.owned.extended_of_blocks (i := i) hblocks
  -- the blocks of all files are where they were in `t`
  have hptr (j : Inum) {bn : ℕ} (hbn : bn < NDIRECT + NINDIRECT) :
      follow u.heap (roots img j (locate bn).1) (locate bn).2 =
        follow t.heap (roots img j (locate bn).1) (locate bn).2 := by
    rw [hroots]
    exact hext.owned.ptr_of_blocks
      (fun c hc ↦ hblocks c (mkfsSuperblock.bmapstart_lt_dataStart.le.trans hc))
      (pos_dataPos (i := j) (lt_SAFEBLOCKS hbn))
  refine ⟨img, u, by rw [himg, hv], ⟨?_, ?_, ?_, fun j ↦ ?_, fun j ↦ ?_, fun j hj ↦ ?_,
    fun c hc hc' ↦ ?_⟩, fun c hc ↦ hblocks c (hstart.le.trans hc), hinode, hroots⟩
  · rw [himg, hu]
    exact hs.store (by have := hs.start; omega) (.inl hIB) v
  · rw [hroots]
    exact hext'.owned
  · rw [hroots]
    exact (h.noLeak.extended hext).extended hext'
  · rcases eq_or_ne j i with rfl | hji
    · have hsame : roots img j = fun k ↦ (d.addr k).toNat := by rw [hroots, update_self]
      rw [sizeOf, hinode, if_pos rfl]
      refine hex.congr (fun bn hbn ↦ ?_) (by rw [hsame])
      rw [hptr j hbn, hsame]
    · have hsame : roots img j = roots m.img j := by rw [hroots, update_of_ne hji]
      rw [sizeOf, hinode, if_neg hji]
      refine (h.exact j).congr (fun bn hbn ↦ ?_) (by rw [hsame])
      rw [hptr j hbn]
      have hold := hext.ptr_old (dataPos j bn) (pos_dataPos (lt_SAFEBLOCKS hbn)) fun g _ heq ↦
        hji (congrArg (fun p ↦ p.1.1) heq)
      rw [← hroots] at hold
      exact hold
  · rw [sizeOf, hinode]
    split
    · exact hsize
    · exact h.size_le j
  · dsimp only at hj ⊢
    rw [hinode, if_neg fun hji ↦ by rw [hji] at hj; omega]
    exact h.unused j (by omega)
  · dsimp only
    rw [himg, update_of_ne (by omega), hframe c hc', h.map c hc hc']

/-! ### `ialloc` and `iappend` -/

/-- An inode has been allocated. -/
structure Allocated (m : MkfsState) (s : FsState) (type : Short) (i : Inum) (m' : MkfsState)
    (t : FsState) : Prop extends Built m' t where
  inum : (i : ℕ) = m.freeinode
  freeinode : m'.freeinode = m.freeinode + 1
  freeblock : m'.freeblock = m.freeblock
  dinode : ∀ j : Inum, dinodeOf m'.img j =
    if j = i then { Dinode.zero with type := type, nlink := 1 } else dinodeOf m.img j
  bytes : ∀ j, ∀ x < SAFEBYTES, t.byteAt (roots m'.img j) x = s.byteAt (roots m.img j) x

theorem ialloc_sat (h : Built m s) (hfree : m.freeinode < ninodeblocks * IPB) (type : Short) :
    (ialloc type).Sat m (fun inum m' ↦ inum = m.freeinode ∧ ∃ t, Allocated m s type ⟨_, hfree⟩ m' t)
      fun _ ↦ False := by
  obtain ⟨i, hi⟩ : ∃ i : Inum, i = ⟨_, hfree⟩ := ⟨_, rfl⟩
  have hival : (i : ℕ) = m.freeinode := congrArg Fin.val hi
  have hzero := h.unused i hival.ge
  have hnull (k : ℕ) : (({ Dinode.zero with type := type, nlink := 1 } : Dinode).addr k).toNat =
      roots m.img i k := by
    rw [roots, hzero]
    rfl
  have hsame : (update (roots m.img) i fun k ↦
      (({ Dinode.zero with type := type, nlink := 1 } : Dinode).addr k).toNat) = roots m.img := by
    rw [update_eq_self_iff]
    exact funext hnull
  have hex := h.exact i
  rw [sizeOf, hzero, ← funext hnull] at hex
  obtain ⟨img, t, himg, hbuilt, hblocks, hinode, hroots⟩ := h.of_winode (i := i)
    (n := { m with freeinode := m.freeinode + 1 })
    (d := { Dinode.zero with type := type, nlink := 1 }) (fun _ _ ↦ rfl)
    { h.toShows with }
    (by rw [hsame]; exact .refl h.owned) hex (Nat.zero_le _) (hival.trans_lt (Nat.lt_succ_self _))
    (Nat.le_succ _)
  have hwinode := sat_winode (m := { m with freeinode := m.freeinode + 1 }) i
    { Dinode.zero with type := type, nlink := 1 } (Q := fun _ m' ↦ ∃ t, Allocated m s type i m' t)
    (E := fun _ ↦ False)
  rw [← himg, hival] at hwinode
  rw [ialloc, Prog.sat_get_bind, Prog.sat_modify_bind]
  refine (hwinode.2 ⟨t, hbuilt, hival, rfl, rfl, hinode, fun j x hx ↦ ?_⟩).bind ?_
  · rw [hroots, hsame]
    exact h.owned.byteAt_of_blocks (mkfsSuperblock_dataStart ▸ hblocks) j hx
  · rintro - m' hm'
    exact ⟨rfl, hi ▸ hm'⟩

/-- Bytes have been appended to an inode. -/
structure Appended (m : MkfsState) (s : FsState) (i : Inum) (p : List Byte) (m' : MkfsState)
    (t : FsState) : Prop extends Built m' t where
  freeinode : m'.freeinode = m.freeinode
  freeblock : m'.freeblock + blocksFor (sizeOf m.img i) =
    m.freeblock + blocksFor (sizeOf m.img i + p.length)
  size : sizeOf m'.img i = sizeOf m.img i + p.length
  dinode : ∃ a z, dinodeOf m'.img i = { dinodeOf m.img i with addrs := a, size := z }
  other : ∀ j ≠ i, dinodeOf m'.img j = dinodeOf m.img j
  bytes : ∀ j, ∀ x < SAFEBYTES, t.byteAt (roots m'.img j) x =
    if j = i ∧ sizeOf m.img i ≤ x ∧ x < sizeOf m.img i + p.length then
      p.getD (x - sizeOf m.img i) 0
    else s.byteAt (roots m.img j) x

/-- `iappend` appends, up to the capacity of the first indirect block. -/
theorem iappend_sat (h : Built m s) (hi : (i : ℕ) < m.freeinode) {p : List Byte}
    (hmax : sizeOf m.img i + p.length ≤ MAXFILE * BSIZE)
    (hroom : m.freeblock + blocksFor (min (sizeOf m.img i + p.length) CAPACITY) ≤
      FSSIZE + blocksFor (sizeOf m.img i)) : (iappend i p).Sat m
      (fun _ m' ↦ sizeOf m.img i + p.length ≤ CAPACITY ∧ ∃ t, Appended m s i p m' t)
      fun e ↦ e = .outOfBounds ∧ CAPACITY < sizeOf m.img i + p.length := by
  have hC : CAPACITY = 138 * 512 := rfl
  -- the inode as the kernel would have it in memory
  obtain ⟨s₀, hs₀⟩ : ∃ s₀, s₀ = s.setInode 0 { dinodeOf m.img i with
    inum := i, ref := 1, locked := true, valid := true } := ⟨_, rfl⟩
  have hinode : s₀.icache 0 = { dinodeOf m.img i with
      inum := i, ref := 1, locked := true, valid := true } := by
    rw [hs₀, FsState.icache_setInode_self]
  have hblocks : s₀.blocks = s.blocks := by rw [hs₀]; rfl
  have howned : Owned mkfsSuperblock (roots m.img) s₀ := by
    rw [hs₀]
    exact ⟨h.owned.inj, h.owned.range, h.owned.used_ptr, h.owned.used_meta⟩
  have hR : roots m.img i = s₀.addrs 0 := by
    funext k
    rw [FsState.addrs, hinode]
    rfl
  have hex : Exact s₀ (s₀.addrs 0) (sizeOf m.img i) := by
    rw [← hR, hs₀]
    exact ⟨(h.exact i).data, (h.exact i).indirect⟩
  have hshows : Shows m s₀ := by
    rw [hs₀]
    exact h.toShows.setInode _ _
  have hloop := appendLoop_sat howned hR hshows hex (h.size_le i) hmax hroom fun j ↦ p.getD j 0
  rw [hinode] at hloop
  rw [iappend, Prog.sat_bind, sat_rinode]
  refine hloop.bind ?_
  rintro ⟨din, off⟩ m₁ ⟨hoff, hcap, l, t, hw, hshows', hdin, hframe, hfb⟩
  dsimp only at hoff hdin ⊢
  subst hoff
  obtain ⟨d, hd⟩ : ∃ d : Dinode, d = { din with
    size := BitVec.ofNat 32 (sizeOf m.img i + p.length) } := ⟨_, rfl⟩
  have hsize : d.size.toNat = sizeOf m.img i + p.length := by
    rw [hd]
    exact Nat.mod_eq_of_lt (by omega)
  have haddrs : (fun k ↦ (d.addr k).toNat) = t.addrs 0 := by
    funext k
    rw [FsState.addrs, hd, ← hdin]
    rfl
  obtain ⟨img, u, himg, hbuilt, hsame, hinode', hroots⟩ := h.of_winode (i := i) (d := d) hframe.img
    hshows' (by rw [haddrs]; exact hw.toExtended.congr_blocks hblocks.symm rfl)
    (by rw [haddrs, hsize]; exact hex.wrote hw hcap) (by omega) (by rw [hframe.freeinode]; exact hi)
    hframe.freeinode.ge
  rw [← hd, sat_winode, ← himg]
  refine ⟨hcap, u, hbuilt, hframe.freeinode, hfb, ?_, ?_, fun j hj ↦ ?_, fun j x hx ↦ ?_⟩
  · rw [sizeOf, hinode', if_pos rfl, hsize]
  · obtain ⟨a, ha⟩ := hw.memory.icache_eq
    rw [hinode] at ha
    refine ⟨a, d.size, ?_⟩
    rw [hinode', if_pos rfl, hd, ← hdin, ha]
  · rw [hinode', if_neg hj]
  · have hbytes := hw.bytes j x hx
    rw [← haddrs, ← hroots] at hbytes
    have howned' := hw.owned
    rw [← haddrs, ← hroots] at howned'
    rw [howned'.byteAt_of_blocks (mkfsSuperblock_dataStart ▸ hsame) j hx, hbytes]
    refine if_congr Iff.rfl rfl ?_
    rw [hs₀]
    rfl

/-! ### A file -/

/-- The inode `i` holds the bytes `data`. At the beginning `base` blocks were in use. -/
structure Holding (base : ℕ) (i : Inum) (type : Short) (data : List Byte) (m : MkfsState)
    (s : FsState) : Prop extends Built m s where
  lt : (i : ℕ) < m.freeinode
  freeblock : m.freeblock = base + blocksFor data.length
  type : (dinodeOf m.img i).type = type
  size : sizeOf m.img i = data.length
  bytes : ∀ x < data.length, s.byteAt (roots m.img i) x = data.getD x 0

variable {base : ℕ} {type : Short} {data : List Byte}

theorem Holding.length_le (h : Holding base i type data m s) : data.length ≤ CAPACITY :=
  h.size ▸ h.size_le i

/-- A piece is appended. -/
theorem Holding.append (h : Holding base i type data m s) {p : List Byte} (ht : Appended m s i p m' t) :
    Holding base i type (data ++ p) m' t := by
  have hle : (data ++ p).length ≤ CAPACITY := by
    rw [List.length_append, ← h.size, ← ht.size]
    exact ht.size_le i
  have hS : CAPACITY < SAFEBYTES := by decide
  refine ⟨ht.toBuilt, ht.freeinode ▸ h.lt, ?_, ?_, ?_, fun x hx ↦ ?_⟩
  · have hfb := ht.freeblock
    rw [h.size, h.freeblock] at hfb
    rw [List.length_append]
    omega
  · obtain ⟨a, z, ha⟩ := ht.dinode
    rw [ha]
    exact h.type
  · rw [ht.size, h.size, List.length_append]
  · rw [List.length_append] at hx hle
    rw [ht.bytes i x (by omega), h.size]
    rcases Nat.lt_or_ge x data.length with hlt | hge
    · rw [if_neg (by omega), List.getD_append _ _ _ _ hlt, h.bytes x hlt]
    · rw [if_pos ⟨rfl, hge, hx⟩, List.getD_append_right _ _ _ _ hge]

/-- Appending a file piece by piece. -/
theorem forEach_iappend_sat (h : Holding base i type [] m s) (pieces : List (List Byte))
    (hmax : pieces.flatten.length ≤ MAXFILE * BSIZE)
    (hroom : base + blocksFor (min pieces.flatten.length CAPACITY) ≤ FSSIZE) :
    (Prog.forEach pieces (iappend i)).Sat m
      (fun _ m' ↦ m'.freeinode = m.freeinode ∧ (∀ j ≠ i, dinodeOf m'.img j = dinodeOf m.img j) ∧
        ∃ t, Holding base i type pieces.flatten m' t)
      fun e ↦ e = .outOfBounds ∧ CAPACITY < pieces.flatten.length := by
  obtain ⟨all, hall⟩ : ∃ all, all = pieces.flatten := ⟨_, rfl⟩
  rw [← hall] at hmax hroom ⊢
  have hloop : (Prog.forEach pieces (iappend i)).Sat m
      (fun _ m' ↦ m'.freeinode = m.freeinode ∧ (∀ j ≠ i, dinodeOf m'.img j = dinodeOf m.img j) ∧
        ∃ data t, data ++ ([] : List (List Byte)).flatten = all ∧ Holding base i type data m' t)
      fun e ↦ e = .outOfBounds ∧ CAPACITY < all.length := by
    refine Prog.Sat.forEach (P := fun rest m' ↦ m'.freeinode = m.freeinode ∧
      (∀ j ≠ i, dinodeOf m'.img j = dinodeOf m.img j) ∧
      ∃ data t, data ++ rest.flatten = all ∧ Holding base i type data m' t)
      ⟨rfl, fun _ _ ↦ rfl, [], s, hall.symm, h⟩ ?_
    rintro p rest m' ⟨hfi, hother, data, t, hdata, ht⟩
    have hlen : data.length + p.length + rest.flatten.length = all.length := by
      rw [← hdata, List.flatten_cons, List.length_append, List.length_append, Nat.add_assoc]
    have hmono := blocksFor_mono
      (show min (data.length + p.length) CAPACITY ≤ min all.length CAPACITY by omega)
    have hfb := ht.freeblock
    refine (iappend_sat ht.toBuilt ht.lt (by rw [ht.size]; omega)
      (by rw [ht.size]; omega)).mono ?_ fun e he ↦ ⟨he.1, ?_⟩
    · rintro - m'' ⟨-, u, hu⟩
      refine ⟨hu.freeinode.trans hfi, fun j hj ↦ (hu.other j hj).trans (hother j hj), data ++ p, u,
        ?_, ht.append hu⟩
      rw [List.append_assoc]
      exact hdata
    · have hcap := he.2
      rw [ht.size] at hcap
      omega
  refine hloop.imp ?_
  rintro - m' ⟨hfi, hother, data, t, hdata, ht⟩
  rw [List.flatten_nil, List.append_nil] at hdata
  exact ⟨hfi, hother, t, hdata ▸ ht⟩

/-! ### What the kernel finds -/

/-- The kernel runs on the image, whatever its free map, and has read the inode `i` from it. -/
structure Loaded (img : ℕ → Block) (i : Inum) (k : FsState) (ip : ℕ) : Prop where
  blocks : ∀ c, c < mkfsSuperblock.bmapstart ∨ nmeta ≤ c → k.blocks c = img c
  inode : (k.icache ip).toDinode = dinodeOf img i

/-- There are blocks for all bytes of the file. -/
theorem Built.mapped (h : Built m s) {k : FsState} {ip : ℕ} (hk : Loaded m.img i k ip) {bn : ℕ}
    (hbn : bn * BSIZE < sizeOf m.img i) : k.Mapped ip bn := by
  have hB : BSIZE = 512 := rfl
  have hC : CAPACITY = 138 * 512 := rfl
  have hcap : bn < NDIRECT + NINDIRECT := by
    have hle := h.size_le i
    rw [hB] at hbn
    show bn < 138
    omega
  have hR : roots m.img i = k.addrs ip := by
    funext j
    rw [roots, FsState.addrs, hk.inode]
  have hblocks (c : ℕ) (hc : mkfsSuperblock.dataStart ≤ c) : k.blocks c = s.blocks c := by
    rw [hk.blocks c (.inr hc), h.blocks c (.inr hc)]
  intro q hq
  have hpos := pos_of_mem_chain (lt_SAFEBLOCKS hcap) hq
  have hptr : k.ptr ip q = (forest (roots m.img) s).ptr ((i, q.1), q.2) := by
    rw [← h.owned.ptr_of_blocks hblocks (treeShape_pos.2 hpos), forest_ptr hR]
  have hne : k.ptr ip q ≠ 0 := by
    -- a null pointer on the way would leave no data block
    obtain ⟨p, ⟨r, hr⟩, rfl⟩ := mem_chain.1 hq
    intro h0
    refine (h.exact i).data bn hcap |>.2 hbn ?_
    rw [← hr]
    exact follow_append_eq_zero s.heap (hptr.symm.trans h0) r
  refine ⟨hne, ?_⟩
  rw [hptr] at hne ⊢
  exact (h.owned.range _ (treeShape_pos.2 hpos) hne).2

/-- The kernel reads what has been appended. -/
theorem Holding.readi (h : Holding base i type data m s) (htype : type ≠ T_DEV) {k : FsState}
    {ip : ℕ} (hk : Loaded m.img i k ip) (env : Env) : (k.icache ip).size.toNat = data.length ∧
      (Fs.readi env ip 0 (BitVec.ofNat 32 data.length)).run k = .ok ((data.length, data), k) := by
  have hC : CAPACITY = 138 * 512 := rfl
  have hS : SAFEBYTES = 16847872 := rfl
  have hB : BSIZE = 512 := rfl
  have hle := h.length_le
  have hsize : (k.icache ip).size.toNat = data.length := by
    rw [hk.inode]
    exact h.size
  have hword : BitVec.ofNat 32 data.length = (k.icache ip).size := by
    rw [← hsize, BitVec.ofNat_toNat, BitVec.setWidth_eq]
  have hint : (k.icache ip).size.toInt = data.length := by
    rw [BitVec.toInt_eq_toNat_of_lt (by omega), hsize]
  have hR : roots m.img i = k.addrs ip := by
    funext j
    rw [roots, FsState.addrs, hk.inode]
  have hbytes : (List.range data.length).map (fun j ↦ k.byteAt (k.addrs ip) (0 + j)) = data := by
    refine List.ext_getElem (by simp) fun x hx hx' ↦ ?_
    rw [List.getElem_map, List.getElem_range, Nat.zero_add, ← hR,
      h.owned.byteAt_of_blocks (fun c hc ↦ ?_) i (by omega), h.bytes x hx', List.getD_eq_getElem]
    rw [hk.blocks c (.inr hc), h.blocks c (.inr hc)]
  have hsat : (Fs.readi env ip 0 (BitVec.ofNat 32 data.length)).Sat k
      (fun out t ↦ out = ((data.length : ℤ), data) ∧ t = k) fun _ ↦ False := by
    have hadd : (0 : Word) + (k.icache ip).size = (k.icache ip).size := BitVec.zero_add _
    have hok : ¬((k.icache ip).size < 0 ∨ (k.icache ip).size < 0) := by
      rw [or_self]
      exact BitVec.not_lt_zero
    have hinode : (k.icache ip).type = type := by
      rw [hk.inode]
      exact h.type
    rw [Fs.readi, Prog.sat_bind, Fs.sat_inode, if_neg (by rwa [hinode]), hword, hadd, if_neg hok]
    dsimp only
    rw [if_neg (BitVec.lt_irrefl _), hsize]
    refine (Fs.readLoop_mapped (by show 0 + _ ≤ _; omega) fun bn hbn ↦ ?_).bind ?_
    · obtain ⟨x, -, hx, rfl⟩ := mem_blocksOf.1 hbn
      refine h.toBuilt.mapped hk ?_
      rw [h.size, hB]
      change x < 0 + _ at hx
      omega
    · rintro bytes t ⟨rfl, rfl⟩
      exact ⟨Prod.ext hint hbytes, rfl⟩
  obtain ⟨out, t, hrun, rfl, rfl⟩ := hsat.exists_ok
  exact ⟨hsize, hrun⟩

/-- **`mkfs` and the kernel agree on the layout of a file**, and the block map of `mkfs` ends before
that of the kernel. A file is appended to a new inode in any pieces. If its blocks are direct ones or
in the first indirect block, then the kernel reads its bytes and no others; otherwise `iappend` uses
an entry beyond the end of `indirect`. -/
theorem iappend_agrees (h : Built m s) (hi : (i : ℕ) < m.freeinode)
    (hnew : dinodeOf m.img i = { Dinode.zero with type := T_FILE, nlink := 1 })
    (pieces : List (List Byte)) (hmax : pieces.flatten.length ≤ MAXFILE * BSIZE)
    (hroom : m.freeblock + blocksFor (min pieces.flatten.length CAPACITY) ≤ FSSIZE) :
    (pieces.flatten.length ≤ CAPACITY →
      ∃ m', (Prog.forEach pieces (iappend i)).run m = .ok ((), m') ∧
        ∀ k ip env, Loaded m'.img i k ip →
          (k.icache ip).size.toNat = pieces.flatten.length ∧
          (Fs.readi env ip 0 (BitVec.ofNat 32 pieces.flatten.length)).run k =
            .ok ((pieces.flatten.length, pieces.flatten), k)) ∧
    (CAPACITY < pieces.flatten.length →
      (Prog.forEach pieces (iappend i)).run m = .error .outOfBounds) := by
  have hsize : sizeOf m.img i = 0 := by
    rw [sizeOf, hnew]
    rfl
  have hholding : Holding m.freeblock i T_FILE [] m s :=
    ⟨h, hi, rfl, by rw [hnew], hsize, fun x hx ↦ absurd hx (Nat.not_lt_zero x)⟩
  have hsat := forEach_iappend_sat hholding pieces hmax hroom
  refine ⟨fun hle ↦ ?_, fun hlt ↦ Prog.Sat.eq_error (hsat.mono ?_ fun e he ↦ he.1)⟩
  · obtain ⟨_, m', hrun, -, -, t, ht⟩ :=
      (hsat.imp_error fun e he ↦ absurd he.2 (by omega)).exists_ok
    exact ⟨m', hrun, fun k ip env hk ↦ ht.readi (by decide) hk env⟩
  · rintro - m' ⟨-, -, t, ht⟩
    exact absurd ht.length_le (by omega)

/-- The first file of an image, in two pieces. -/
theorem iappend_agrees_twoPieces : ∃ m s, ∃ i : Inum, Built m s ∧ (i : ℕ) < m.freeinode ∧
    dinodeOf m.img i = { Dinode.zero with type := T_FILE, nlink := 1 } ∧
    ∃ m', (Prog.forEach [[1#8, 2#8], [3#8]] (iappend i)).run m = .ok ((), m') ∧
      ∀ k ip env, Loaded m'.img i k ip →
        (Fs.readi env ip 0 3).run k = .ok ((3, [1#8, 2#8, 3#8]), k) := by
  obtain ⟨s, hs⟩ := Built.init (fun _ ↦ Block.zero) fun _ _ ↦ rfl
  obtain ⟨_, m, -, -, t, ht⟩ := (ialloc_sat hs (by decide) T_FILE).exists_ok
  have hlt : (1 : ℕ) < m.freeinode := by
    rw [ht.freeinode]
    decide
  have hfb : m.freeblock = nmeta := ht.freeblock
  have hnew := (ht.dinode _).trans (if_pos rfl)
  obtain ⟨m', hrun, hread⟩ := (iappend_agrees ht.toBuilt hlt hnew [[1#8, 2#8], [3#8]] (by decide)
    (by rw [hfb]; decide)).1 (by decide)
  exact ⟨m, t, _, ht.toBuilt, hlt, hnew, m', hrun, fun k ip env hk ↦ (hread k ip env hk).2⟩

/-- 139 blocks are fewer than `MAXFILE`, and the last one has no entry in `indirect`. -/
theorem iappend_outOfBounds : 139 ≤ MAXFILE ∧
    (do
      let inum ← ialloc T_FILE
      Prog.forEach (List.replicate 139 (List.replicate BSIZE 1#8)) (iappend inum)).run
        MkfsState.init = .error .outOfBounds := by
  have hlen : (List.replicate 139 (List.replicate BSIZE 1#8)).flatten.length = 139 * BSIZE := by
    rw [List.length_flatten, List.map_replicate, List.length_replicate, List.sum_replicate_nat]
  obtain ⟨pieces, hpieces⟩ : ∃ pieces, pieces = List.replicate 139 (List.replicate BSIZE 1#8) :=
    ⟨_, rfl⟩
  rw [← hpieces] at hlen ⊢
  obtain ⟨s, hs⟩ := Built.init (fun _ ↦ Block.zero) fun _ _ ↦ rfl
  refine ⟨by decide, Prog.Sat.eq_error (((ialloc_sat hs (by decide) T_FILE).mono
    (fun _ _ h ↦ h) fun _ h ↦ h.elim).bind ?_)⟩
  rintro _ m ⟨rfl, t, ht⟩
  have hnew := (ht.dinode _).trans (if_pos rfl)
  have hholding : Holding nmeta ⟨1, by decide⟩ T_FILE [] m t := by
    refine ⟨ht.toBuilt, ?_, ht.freeblock, ?_, ?_, fun x hx ↦ absurd hx (Nat.not_lt_zero x)⟩
    · rw [ht.freeinode]
      decide
    · exact congrArg (fun d ↦ d.type) hnew
    · exact congrArg (fun d ↦ d.size.toNat) hnew
  refine (forEach_iappend_sat hholding pieces (by rw [hlen]; decide)
    (by rw [hlen]; decide)).mono ?_ fun e he ↦ he.1
  rintro - m' ⟨-, -, u, hu⟩
  exact absurd hu.length_le (by rw [hlen]; decide)

end Mkfs

end Xv6
