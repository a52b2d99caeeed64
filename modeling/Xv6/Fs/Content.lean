import Mathlib.Algebra.Order.BigOperators.Group.Finset
import Xv6.Fs.Walk

/-!
# The contents of a file

`byteAt r x` is byte `x` of a file whose inode has the entries `r` in `addrs`: zero where there is no
block. Growing a tree changes no byte of any file (`Grown.byteAt`), since a new data block is zero,
and a store into a data block changes the bytes of that block and no others (`Owned.byteAt_store`),
since no other file has the block.

`Wrote` collects what writing a range of bytes does: to the contents, to the trees, and to the log.
Writing one range and then the next is writing both (`Wrote.trans`); this is what makes the loop of
`writei` one write.
-/

namespace Xv6

open PointerTree Function FsState

/-- The data blocks below this one are those that `bmap` finds, and so many bytes they hold. -/
def SAFEBYTES : ℕ := SAFEBLOCKS * BSIZE

variable {x off n bn m c : ℕ} {q : ℕ × List ℕ}

theorem div_BSIZE_lt (h : x < SAFEBYTES) : x / BSIZE < SAFEBLOCKS :=
  Nat.div_lt_of_lt_mul (by rwa [SAFEBYTES, Nat.mul_comm] at h)

/-! ### Bytes and blocks of a range -/

/-- The blocks that hold the `n` bytes from `off` on. -/
def blocksOf (off n : ℕ) : Finset ℕ :=
  (Finset.range n).image fun j ↦ (off + j) / BSIZE

theorem mem_blocksOf : bn ∈ blocksOf off n ↔ ∃ x, off ≤ x ∧ x < off + n ∧ x / BSIZE = bn := by
  rw [blocksOf, Finset.mem_image]
  constructor
  · rintro ⟨j, hj, rfl⟩
    exact ⟨off + j, Nat.le_add_right .., Nat.add_lt_add_left (Finset.mem_range.1 hj) _, rfl⟩
  · rintro ⟨x, h1, h2, rfl⟩
    refine ⟨x - off, Finset.mem_range.2 (by omega), ?_⟩
    rw [Nat.add_sub_cancel' h1]

theorem blocksOf_add (off m n : ℕ) : blocksOf off (m + n) = blocksOf off m ∪ blocksOf (off + m) n := by
  ext bn
  simp only [Finset.mem_union, mem_blocksOf]
  constructor
  · rintro ⟨x, h1, h2, rfl⟩
    rcases Nat.lt_or_ge x (off + m) with h | h
    · exact .inl ⟨x, h1, h, rfl⟩
    · exact .inr ⟨x, h, by omega, rfl⟩
  · rintro (⟨x, h1, h2, rfl⟩ | ⟨x, h1, h2, rfl⟩)
    · exact ⟨x, h1, by omega, rfl⟩
    · exact ⟨x, by omega, by omega, rfl⟩

/-- Bytes of one block. -/
theorem blocksOf_of_le (hpos : 0 < m) (hm : m ≤ BSIZE - off % BSIZE) : blocksOf off m = {off / BSIZE} := by
  have hB : BSIZE = 512 := rfl
  ext bn
  rw [mem_blocksOf, Finset.mem_singleton]
  rw [hB] at hm ⊢
  constructor
  · rintro ⟨x, h1, h2, rfl⟩
    omega
  · rintro rfl
    exact ⟨off, le_refl _, by omega, rfl⟩

theorem lt_SAFEBLOCKS_of_mem (h : off + n ≤ SAFEBYTES) (hbn : bn ∈ blocksOf off n) : bn < SAFEBLOCKS := by
  obtain ⟨x, -, hx, rfl⟩ := mem_blocksOf.1 hbn
  exact div_BSIZE_lt (hx.trans_le h)

/-- The positions on the way to the blocks of a range at which there is no block. -/
def FsState.needed (s : FsState) (ip off n : ℕ) : Finset (ℕ × List ℕ) :=
  ((blocksOf off n).biUnion fun bn ↦ (chain (locate bn)).toFinset).filter fun q ↦ s.ptr ip q = 0

/-! ### The contents -/

variable {ι : Type} {sb : Superblock} {R R' R'' : ι → ℕ → ℕ} {i : ι} {ip : ℕ} {s t u : FsState}
  {l l' : List Growth}

/-- Byte `x` of a file whose inode has the entries `r` in `addrs`. -/
def FsState.byteAt (s : FsState) (r : ℕ → ℕ) (x : ℕ) : Byte :=
  let a := follow s.heap (r (locate (x / BSIZE)).1) (locate (x / BSIZE)).2
  if a = 0 then 0 else (s.blocks a).byte (x % BSIZE)

/-- The position of data block `bn` of inode `i`. -/
def dataPos (i : ι) (bn : ℕ) : (ι × ℕ) × List ℕ :=
  ((i, (locate bn).1), (locate bn).2)

theorem pos_dataPos (h : bn < SAFEBLOCKS) : (treeShape ι).Pos (dataPos i bn) :=
  treeShape_pos.2 (Fs.pos_locate h)

theorem isData_dataPos (i : ι) (bn : ℕ) : IsData (dataPos i bn) :=
  Fs.level_locate bn

theorem forest_dataPos (hR : R i = s.addrs ip) (bn : ℕ) :
    (forest R s).ptr (dataPos i bn) = s.ptr ip (locate bn) :=
  forest_ptr hR ..

theorem dataPos_inj {j : ι} {bn' : ℕ} : dataPos i bn = dataPos j bn' ↔ i = j ∧ bn = bn' := by
  constructor
  · intro h
    simp only [dataPos, Prod.mk.injEq] at h
    exact ⟨h.1.1, Fs.locate_injective (Prod.ext h.1.2 h.2)⟩
  · rintro ⟨rfl, rfl⟩
    rfl

theorem byteAt_of_ptr_eq_zero (h : (forest R s).ptr (dataPos i (x / BSIZE)) = 0) : s.byteAt (R i) x = 0 :=
  if_pos h

theorem byteAt_of_ptr_ne_zero (h : (forest R s).ptr (dataPos i (x / BSIZE)) ≠ 0) : s.byteAt (R i) x =
      (s.blocks ((forest R s).ptr (dataPos i (x / BSIZE)))).byte (x % BSIZE) :=
  if_neg h

/-- A byte is as before if its block is at the same address, with the same contents. -/
theorem byteAt_congr (hptr : (forest R' t).ptr (dataPos i (x / BSIZE)) = (forest R s).ptr (dataPos i (x / BSIZE)))
    (hblock : (forest R s).ptr (dataPos i (x / BSIZE)) ≠ 0 → t.blocks ((forest R s).ptr (dataPos i (x / BSIZE))) =
      s.blocks ((forest R s).ptr (dataPos i (x / BSIZE)))) : t.byteAt (R' i) x = s.byteAt (R i) x := by
  by_cases h0 : (forest R s).ptr (dataPos i (x / BSIZE)) = 0
  · rw [byteAt_of_ptr_eq_zero h0, byteAt_of_ptr_eq_zero (hptr.trans h0)]
  · rw [byteAt_of_ptr_ne_zero h0, byteAt_of_ptr_ne_zero (hptr ▸ h0), hptr, hblock h0]

/-- The bytes of a range that lies in one block. -/
theorem slice_eq_byteAt {r : ℕ → ℕ} {off m a : ℕ} (hm : m ≤ BSIZE - off % BSIZE)
    (ha : a = follow s.heap (r (locate (off / BSIZE)).1) (locate (off / BSIZE)).2) (hne : a ≠ 0) :
    (s.blocks a).slice (off % BSIZE) m = (List.range m).map fun j ↦ s.byteAt r (off + j) := by
  have hB : BSIZE = 512 := rfl
  refine List.map_congr_left fun j hj ↦ ?_
  rw [List.mem_range] at hj
  have hdiv : (off + j) / BSIZE = off / BSIZE := by
    rw [hB] at hm ⊢
    omega
  have hmod : (off + j) % BSIZE = off % BSIZE + j := by
    rw [hB] at hm ⊢
    omega
  rw [FsState.byteAt, hdiv, hmod, ← ha]
  exact (if_neg hne).symm

/-- Growing a tree changes no byte of any file. -/
theorem Grown.byteAt (h : Grown sb R i s l R' t) (j : ι) (hx : x < SAFEBYTES) :
    t.byteAt (R' j) x = s.byteAt (R j) x := by
  have hpos : (treeShape ι).Pos (dataPos j (x / BSIZE)) := pos_dataPos (div_BSIZE_lt hx)
  by_cases hnew : ∃ g ∈ l, dataPos j (x / BSIZE) = ((i, g.pos.1), g.pos.2)
  · -- a new data block is zero
    obtain ⟨g, hg, hpg⟩ := hnew
    have hnull : (forest R s).ptr (dataPos j (x / BSIZE)) = 0 := hpg ▸ h.null g hg
    have hptr : (forest R' t).ptr (dataPos j (x / BSIZE)) = g.block := hpg ▸ h.ptr_new g hg
    have hdata : IsData ((i, g.pos.1), g.pos.2) := hpg ▸ isData_dataPos j (x / BSIZE)
    rw [byteAt_of_ptr_eq_zero hnull,
      byteAt_of_ptr_ne_zero (by rw [hptr]; exact h.block_ne_zero hg), hptr, h.data_new g hg hdata]
    exact Block.byte_zero _
  · exact byteAt_congr (h.ptr_old _ hpos fun g hg hpg ↦ hnew ⟨g, hg, hpg⟩)
      (h.data_old _ hpos (isData_dataPos ..))

/-! ### A store into a data block -/

variable {p : (ι × ℕ) × List ℕ}

/-- A store into a data block changes no pointer, since no indirect block is a data block. -/
theorem Owned.ptr_store (h : Owned sb R s) (hp : (treeShape ι).Pos p) (hdata : IsData p) (v : Block)
    {q : (ι × ℕ) × List ℕ} (hq : (treeShape ι).Pos q) :
    (forest R (s.store ((forest R s).ptr p) v)).ptr q = (forest R s).ptr q := by
  refine Forest.ptr_congr rfl fun pre j rest hpath hpre ↦ ?_
  have hpos : (treeShape ι).Pos (q.1, pre) := by
    obtain ⟨k, path⟩ := q
    subst hpath
    exact hq.of_append
  have hother : (forest R s).ptr (q.1, pre) ≠ (forest R s).ptr p := by
    intro heq
    have hqp := h.inj _ _ hpos hp hpre heq
    have hlen : q.2.length ≤ level q.1.2 := hq.length_le
    rw [← hqp] at hdata
    have hdata : pre.length = level q.1.2 := hdata
    rw [hpath, List.length_append, List.length_cons] at hlen
    omega
  show ((update s.blocks _ v _).word j).toNat = _
  rw [update_of_ne hother]
  rfl

/-- Nor does it change the free map. -/
theorem Owned.used_store (h : Owned sb R s) (hp : (treeShape ι).Pos p) (hne : (forest R s).ptr p ≠ 0)
    (v : Block) (hc : c < sb.size) : (s.store ((forest R s).ptr p) v).used sb c = s.used sb c :=
  used_store_of_ne (h.ptr_ne_BBLOCK hc hp hne).symm

/-- The invariant is about the addresses in the tree and the free map only. -/
theorem Owned.extended_of_ptr {t : FsState} (h : Owned sb R s)
    (hptr : ∀ {q}, (treeShape ι).Pos q → (forest R t).ptr q = (forest R s).ptr q)
    (hused : ∀ {c}, c < sb.size → t.used sb c = s.used sb c) : Extended sb R i s [] R t := by
  refine { Extended.refl (i := i) h with owned := ?_, used := ?_, ptr_new := ?_, ptr_old := ?_,
                                         parent := ?_ }
  · refine ⟨fun q r hq hr ↦ ?_, fun q hq ↦ ?_, fun q hq ↦ ?_, fun b hb ↦ ?_⟩
    · rw [hptr hq, hptr hr]
      exact h.inj q r hq hr
    · rw [hptr hq]
      exact h.range q hq
    · intro hqne
      rw [hptr hq] at hqne ⊢
      rw [hused (h.range q hq hqne).2]
      exact h.used_ptr q hq hqne
    · rw [hused (hb.trans sb.dataStart_lt_size)]
      exact h.used_meta b hb
  · intro c hc
    rw [hused hc]
    simp
  · simp
  · exact fun q hq _ ↦ hptr hq
  · simp

theorem Owned.extended_store (h : Owned sb R s) (hp : (treeShape ι).Pos p) (hdata : IsData p)
    (hne : (forest R s).ptr p ≠ 0) (v : Block) :
    Extended sb R i s [] R (s.store ((forest R s).ptr p) v) :=
  h.extended_of_ptr (h.ptr_store hp hdata v) (h.used_store hp hne v)

/-- A store into a data block changes the bytes of that block and no others. -/
theorem Owned.byteAt_store [DecidableEq ι] (h : Owned sb R s) (hbn : bn < SAFEBLOCKS)
    (hne : (forest R s).ptr (dataPos i bn) ≠ 0) (v : Block) (j : ι) (hx : x < SAFEBYTES) :
    (s.store ((forest R s).ptr (dataPos i bn)) v).byteAt (R j) x =
      if j = i ∧ x / BSIZE = bn then v.byte (x % BSIZE) else s.byteAt (R j) x := by
  have hpos : (treeShape ι).Pos (dataPos j (x / BSIZE)) := pos_dataPos (div_BSIZE_lt hx)
  have hptr := h.ptr_store (pos_dataPos hbn) (isData_dataPos i bn) v hpos
  have hblocks : (s.store ((forest R s).ptr (dataPos i bn)) v).blocks =
      update s.blocks ((forest R s).ptr (dataPos i bn)) v := rfl
  split
  next heq =>
    have hsame := dataPos_inj.2 heq
    rw [byteAt_of_ptr_ne_zero (by rw [hptr, hsame]; exact hne), hptr, hsame, hblocks,
      update_self]
  next hother =>
    refine byteAt_congr hptr fun h0 ↦ ?_
    have hblock : (forest R s).ptr (dataPos j (x / BSIZE)) ≠ (forest R s).ptr (dataPos i bn) :=
      fun heq ↦ hother (dataPos_inj.1 (h.inj _ _ hpos (pos_dataPos hbn) h0 heq))
    rw [hblocks, update_of_ne hblock]

/-! ### Changes outside the data blocks -/

/-- The trees depend on the blocks behind the free map. -/
theorem Owned.ptr_of_blocks (h : Owned sb R s)
    (hblocks : ∀ c, sb.dataStart ≤ c → t.blocks c = s.blocks c) (hp : (treeShape ι).Pos p) :
    (forest R t).ptr p = (forest R s).ptr p := by
  refine Forest.ptr_congr rfl fun pre j rest hpath hne ↦ ?_
  obtain ⟨k, path⟩ := p
  subst hpath
  show ((t.blocks ((forest R s).ptr (k, pre))).word j).toNat = _
  rw [hblocks _ (h.range (k, pre) hp.of_append hne).1]
  rfl

/-- So do the contents of the files. -/
theorem Owned.byteAt_of_blocks (h : Owned sb R s) (hblocks : ∀ c, sb.dataStart ≤ c → t.blocks c = s.blocks c)
    (j : ι) (hx : x < SAFEBYTES) : t.byteAt (R j) x = s.byteAt (R j) x := by
  have hpos : (treeShape ι).Pos (dataPos j (x / BSIZE)) := pos_dataPos (div_BSIZE_lt hx)
  exact byteAt_congr (h.ptr_of_blocks hblocks hpos) fun h0 ↦ hblocks _ (h.range _ hpos h0).1

/-- With the free map as it was, the invariant is kept. -/
theorem Owned.extended_of_blocks (h : Owned sb R s)
    (hblocks : ∀ c, sb.bmapstart ≤ c → t.blocks c = s.blocks c) : Extended sb R i s [] R t := by
  refine h.extended_of_ptr
    (h.ptr_of_blocks fun c hc ↦ hblocks c (sb.bmapstart_lt_dataStart.le.trans hc)) fun _ ↦ ?_
  rw [used, used, hblocks (sb.BBLOCK _) (Nat.le_add_left ..)]

/-! ### Writing a range of bytes -/

/-- The data blocks of a range. -/
def FsState.dataBlocks (s : FsState) (ip off n : ℕ) : Finset ℕ :=
  (blocksOf off n).image fun bn ↦ s.ptr ip (locate bn)

/-- The contents and the trees after the `n` bytes `src` have been written to inode `i`, from `off` on, for
which the tree has been extended by the blocks `l`. -/
structure RangeFilled [DecidableEq ι] (sb : Superblock) (R : ι → ℕ → ℕ) (i : ι) (ip : ℕ) (s : FsState)
    (off : ℕ) (src : ℕ → Byte) (n : ℕ) (l : List Growth) (R' : ι → ℕ → ℕ) (t : FsState) : Prop
    extends Extended sb R i s l R' t where
  /-- The contents of all files. -/
  bytes : ∀ j, ∀ x < SAFEBYTES, t.byteAt (R' j) x =
    if j = i ∧ off ≤ x ∧ x < off + n then src (x - off) else s.byteAt (R j) x
  /-- The new blocks are at the positions where there was none. -/
  needed : (l.map Growth.pos).toFinset = s.needed ip off n
  /-- The roots are those of the inode in memory. -/
  roots : R i = s.addrs ip ∧ R' i = t.addrs ip
  /-- There are blocks for the range now. -/
  mapped : ∀ bn ∈ blocksOf off n, t.ptr ip (locate bn) ≠ 0

/-- The range has been written, and the inode has its old size. -/
structure Wrote [DecidableEq ι] (sb : Superblock) (R : ι → ℕ → ℕ) (i : ι) (ip : ℕ) (s : FsState)
    (off : ℕ) (src : ℕ → Byte) (n : ℕ) (l : List Growth) (R' : ι → ℕ → ℕ) (t : FsState) : Prop
    extends RangeFilled sb R i ip s off src n l R' t where
  /-- In memory only the block addresses have changed. -/
  memory : SameMemory ip s t
  /-- What has been logged. -/
  logged : Logged s (footprint l ∪ t.dataBlocks ip off n) t
  /-- Everything else on disk is as before. -/
  frame : ∀ c ∉ footprint l ∪ t.dataBlocks ip off n, t.blocks c = s.blocks c

theorem Extended.ptr_eq_zero_iff (h : Extended sb R i s l R' t) (hR : R i = s.addrs ip)
    (hR' : R' i = t.addrs ip) (hq : blockShape.Pos q) :
    t.ptr ip q = 0 ↔ s.ptr ip q = 0 ∧ q ∉ l.map Growth.pos := by
  have hs := forest_ptr hR q.1 q.2
  have ht := forest_ptr hR' q.1 q.2
  rw [Prod.mk.eta] at hs ht
  rw [← hs, ← ht, List.mem_map]
  constructor
  · intro h0
    refine ⟨?_, ?_⟩
    · by_contra hne
      rw [h.ptr_of_ne_zero (treeShape_pos.2 hq) hne] at h0
      exact hne h0
    · rintro ⟨g, hg, rfl⟩
      rw [h.ptr_new g hg] at h0
      exact h.block_ne_zero hg h0
  · rintro ⟨h0, hnot⟩
    rw [h.ptr_old _ (treeShape_pos.2 hq), h0]
    rintro g hg hqg
    simp only [Prod.mk.injEq, true_and] at hqg
    exact hnot ⟨g, hg, Prod.ext hqg.1.symm hqg.2.symm⟩

/-- A position on the way to a block is a position of the tree. -/
theorem pos_of_mem_chain (hbn : bn < SAFEBLOCKS) (hq : q ∈ chain (locate bn)) : blockShape.Pos q := by
  obtain ⟨p, ⟨r, hr⟩, rfl⟩ := mem_chain.1 hq
  have hpos := Fs.pos_locate hbn
  rw [← Prod.mk.eta (p := locate bn), ← hr] at hpos
  exact hpos.of_append

theorem mem_needed : q ∈ s.needed ip off n ↔
    (∃ bn ∈ blocksOf off n, q ∈ chain (locate bn)) ∧ s.ptr ip q = 0 := by
  rw [needed, Finset.mem_filter, Finset.mem_biUnion]
  simp only [List.mem_toFinset]

theorem needed_of_block (hm : blocksOf off m = {off / BSIZE}) :
    s.needed ip off m = (s.missing ip (chain (locate (off / BSIZE)))).toFinset := by
  rw [needed, hm, Finset.singleton_biUnion, missing, List.toFinset_filter]
  simp only [decide_eq_true_eq]

theorem card_needed_of_block (hm : blocksOf off m = {off / BSIZE}) :
    (s.needed ip off m).card = (s.missing ip (chain (locate (off / BSIZE)))).length := by
  rw [needed_of_block hm]
  exact List.toFinset_card_of_nodup ((nodup_chain _).filter _)

/-- What is missing for a range is missing for any range around it. -/
theorem needed_mono (s : FsState) (ip : ℕ) {off' n' : ℕ} (hoff : off ≤ off') (hn : off' + n' ≤ off + n) :
    s.needed ip off' n' ⊆ s.needed ip off n := by
  intro q hq
  obtain ⟨⟨bn, hbn, hq⟩, h0⟩ := mem_needed.1 hq
  obtain ⟨x, hx, hx', rfl⟩ := mem_blocksOf.1 hbn
  exact mem_needed.2 ⟨⟨_, mem_blocksOf.2 ⟨x, hoff.trans hx, hx'.trans_le hn, rfl⟩, hq⟩, h0⟩

theorem needed_subset_add (s : FsState) (ip off m n : ℕ) :
    s.needed ip off m ⊆ s.needed ip off (m + n) :=
  needed_mono s ip (le_refl off) (by omega)

theorem card_blocksOf_le (off n : ℕ) : (blocksOf off n).card ≤ n :=
  Finset.card_image_le.trans (Finset.card_range n).le

theorem card_needed_le (s : FsState) (ip off n : ℕ) : (s.needed ip off n).card ≤ 4 * n := by
  refine (Finset.card_filter_le _ _).trans ?_
  refine (Finset.card_biUnion_le_card_mul _ _ 4 fun bn _ ↦ ?_).trans ?_
  · exact (List.toFinset_card_le _).trans (length_chain_locate bn)
  · rw [Nat.mul_comm]
    exact Nat.mul_le_mul_left 4 (card_blocksOf_le off n)

/-- The new blocks are not missing any more. -/
theorem Extended.needed_eq_sdiff (h : Extended sb R i s l R' t) (hR : R i = s.addrs ip)
    (hR' : R' i = t.addrs ip) (hsafe : off + n ≤ SAFEBYTES) :
    t.needed ip off n = s.needed ip off n \ (l.map Growth.pos).toFinset := by
  ext q
  rw [Finset.mem_sdiff, mem_needed, mem_needed, List.mem_toFinset]
  constructor
  · rintro ⟨⟨bn, hbn, hq⟩, h0⟩
    have hpos := pos_of_mem_chain (lt_SAFEBLOCKS_of_mem hsafe hbn) hq
    obtain ⟨h0, hnew⟩ := (h.ptr_eq_zero_iff hR hR' hpos).1 h0
    exact ⟨⟨⟨bn, hbn, hq⟩, h0⟩, hnew⟩
  · rintro ⟨⟨⟨bn, hbn, hq⟩, h0⟩, hnew⟩
    have hpos := pos_of_mem_chain (lt_SAFEBLOCKS_of_mem hsafe hbn) hq
    exact ⟨⟨bn, hbn, hq⟩, (h.ptr_eq_zero_iff hR hR' hpos).2 ⟨h0, hnew⟩⟩

/-- What is needed for one range and then for the next is what is needed for both. -/
theorem Extended.needed_add (h : Extended sb R i s l R' t) (hR : R i = s.addrs ip) (hR' : R' i = t.addrs ip)
    (hsafe : off + m + n ≤ SAFEBYTES) (hl : (l.map Growth.pos).toFinset = s.needed ip off m) :
    s.needed ip off (m + n) = (l.map Growth.pos).toFinset ∪ t.needed ip (off + m) n := by
  have hsplit : s.needed ip off (m + n) = s.needed ip off m ∪ s.needed ip (off + m) n := by
    ext q
    rw [Finset.mem_union, mem_needed, mem_needed, mem_needed, blocksOf_add]
    simp only [Finset.mem_union, or_and_right, exists_or]
  rw [hsplit, hl, h.needed_eq_sdiff hR hR' hsafe, hl, Finset.union_sdiff_self_eq_union]

theorem mem_footprint : c ∈ footprint l ↔ ∃ g ∈ l, c ∈ g.logged := by
  induction l with
  | nil => simp [footprint]
  | cons g l ih => rw [footprint, Finset.mem_union, ih, List.exists_mem_cons_iff]

/-- The blocks that are logged for a tree belong to the free map or hold data. -/
theorem Extended.bmapstart_le_of_mem (h : Extended sb R i s l R' t) (hc : c ∈ footprint l) :
    sb.bmapstart ≤ c := by
  obtain ⟨g, hg, hc⟩ := mem_footprint.1 hc
  have hstart := sb.bmapstart_lt_dataStart
  have hbit : sb.bmapstart ≤ sb.BBLOCK g.block := Nat.le_add_left ..
  have hblock := (h.fresh g hg).1
  rcases h.parent g hg with ⟨-, hlogged⟩ | ⟨path, j, hpath, hne, hlogged⟩
  · rw [hlogged, Finset.mem_insert, Finset.mem_singleton] at hc
    omega
  · rw [hlogged, Finset.mem_union, Finset.mem_insert, Finset.mem_singleton,
      Finset.mem_singleton] at hc
    have hpos : blockShape.Pos (g.pos.1, path ++ [j]) := hpath ▸ h.pos g hg
    have hparent := h.owned.range _ (treeShape_pos.2 hpos.of_append) hne
    omega

theorem dataBlocks_add (s : FsState) (ip off m n : ℕ) :
    s.dataBlocks ip off (m + n) = s.dataBlocks ip off m ∪ s.dataBlocks ip (off + m) n := by
  rw [dataBlocks, blocksOf_add, Finset.image_union]
  rfl

section Wrote

variable {off m n : ℕ} {src : ℕ → Byte}

/-- Blocks that are there stay where they are. -/
theorem Extended.dataBlocks_eq (h : Extended sb R i s l R' t) (hR : R i = s.addrs ip)
    (hR' : R' i = t.addrs ip) (hsafe : off + n ≤ SAFEBYTES)
    (hmapped : ∀ bn ∈ blocksOf off n, s.ptr ip (locate bn) ≠ 0) :
    t.dataBlocks ip off n = s.dataBlocks ip off n := by
  refine Finset.image_congr fun bn hbn ↦ ?_
  have hne := hmapped bn hbn
  rw [← forest_dataPos hR] at hne
  have hptr := h.ptr_of_ne_zero (pos_dataPos (lt_SAFEBLOCKS_of_mem hsafe hbn)) hne
  rwa [forest_dataPos hR, forest_dataPos hR'] at hptr

variable [DecidableEq ι]

theorem Wrote.refl (h : Owned sb R s) (hR : R i = s.addrs ip) (off : ℕ) (src : ℕ → Byte) :
    Wrote sb R i ip s off src 0 [] R s where
  toExtended := .refl h
  bytes := fun j x _ ↦ by rw [if_neg (by omega)]
  needed := rfl
  memory := .refl ip s
  logged := .of_eq rfl rfl
  frame := fun _ _ ↦ rfl
  roots := ⟨hR, hR⟩
  mapped := fun bn hbn ↦ absurd hbn (Finset.notMem_empty bn)

/-- Writing one range and then the next is writing both. -/
theorem Wrote.trans (hsafe : off + m + n ≤ SAFEBYTES) (h : Wrote sb R i ip s off src m l R' u)
    (h' : Wrote sb R' i ip u (off + m) (fun j ↦ src (m + j)) n l' R'' t) :
    Wrote sb R i ip s off src (m + n) (l ++ l') R'' t := by
  have hdata : t.dataBlocks ip off m = u.dataBlocks ip off m :=
    h'.dataBlocks_eq h'.roots.1 h'.roots.2 (by omega) h.mapped
  refine ⟨⟨h.toExtended.trans h'.toExtended, fun j x hx ↦ ?_, ?_, ⟨h.roots.1, h'.roots.2⟩, fun bn hbn ↦ ?_⟩,
    h.memory.trans h'.memory, ?_, fun c hc ↦ ?_⟩
  · rw [h'.bytes j x hx, h.bytes j x hx]
    by_cases hj : j = i
    · simp only [hj, true_and]
      rcases Nat.lt_or_ge x (off + m) with hlt | hge
      · rw [if_neg (by omega)]
        exact if_congr (by omega) rfl rfl
      · rw [if_neg (c := off ≤ x ∧ x < off + m) (by omega)]
        refine if_congr (by omega) ?_ rfl
        congr 1
        omega
    · simp only [hj, false_and, if_false]
  · rw [List.map_append, List.toFinset_append, h'.needed,
      h.needed_add h.roots.1 h.roots.2 hsafe h.needed]
  · rw [blocksOf_add, Finset.mem_union] at hbn
    rcases hbn with hbn | hbn
    · have hpos := Fs.pos_locate (lt_SAFEBLOCKS_of_mem (by omega) hbn)
      exact fun h0 ↦ h.mapped bn hbn ((h'.ptr_eq_zero_iff h'.roots.1 h'.roots.2 hpos).1 h0).1
    · exact h'.mapped bn hbn
  · rw [footprint_append, dataBlocks_add, hdata, Finset.union_union_union_comm]
    exact h.logged.trans h'.logged
  · rw [footprint_append, dataBlocks_add, hdata, Finset.union_union_union_comm,
      Finset.mem_union, not_or] at hc
    rw [h'.frame c hc.2, h.frame c hc.1]

/-- The contents after the block that `bmap` returns has been overwritten in part. -/
theorem Owned.byteAt_overwrite (h : Owned sb R s) (hsafe : off + m ≤ SAFEBYTES) (hpos : 0 < m)
    (hm : m ≤ BSIZE - off % BSIZE) {a : ℕ} (ha : a = (forest R s).ptr (dataPos i (off / BSIZE)))
    (hne : a ≠ 0) (j : ι) {x : ℕ} (hx : x < SAFEBYTES) :
    (s.store a ((s.blocks a).copyIn (off % BSIZE) ((List.range m).map src))).byteAt (R j) x =
      if j = i ∧ off ≤ x ∧ x < off + m then src (x - off) else s.byteAt (R j) x := by
  have hB : BSIZE = 512 := rfl
  have hbn : off / BSIZE < SAFEBLOCKS := div_BSIZE_lt (by omega)
  subst ha
  rw [h.byteAt_store hbn hne _ j hx]
  rw [hB] at hm
  by_cases hj : j = i ∧ x / BSIZE = off / BSIZE
  · obtain ⟨rfl, hxoff⟩ := hj
    have hs : s.byteAt (R j) x =
        (s.blocks ((forest R s).ptr (dataPos j (off / BSIZE)))).byte (x % BSIZE) := by
      rw [← hxoff] at hne ⊢
      exact byteAt_of_ptr_ne_zero hne
    rw [if_pos ⟨rfl, hxoff⟩, hs, Block.byte_copyIn_range (Nat.mod_lt _ (by decide))]
    rw [hB] at hxoff ⊢
    refine if_congr ?_ ?_ rfl
    · constructor
      · intro hin
        exact ⟨rfl, by omega⟩
      · rintro ⟨-, hin⟩
        omega
    · congr 1
      omega
  · rw [if_neg hj, if_neg]
    rintro ⟨rfl, hin⟩
    refine hj ⟨rfl, ?_⟩
    rw [hB]
    omega

/-- The block that `bmap` returns is overwritten in part. -/
theorem Owned.wrote_block (h : Owned sb R s) (hR : R i = s.addrs ip) (hsafe : off + m ≤ SAFEBYTES)
    (hpos : 0 < m) (hm : m ≤ BSIZE - off % BSIZE) {a : ℕ}
    (hu : Reaches sb ip s (chain (locate (off / BSIZE))) (locate (off / BSIZE)) a u) (v : Block)
    (hv : v = (u.blocks a).copyIn (off % BSIZE) ((List.range m).map src)) :
    ∃ l, Wrote sb R i ip s off src m l (update R i (u.addrs ip)) (u.store a v) := by
  obtain ⟨l, hl, hmiss, ha, hne, -⟩ := hu
  have hbn : off / BSIZE < SAFEBLOCKS := div_BSIZE_lt (by omega)
  have hgrown := h.grows hR hl
  have hR' : update R i (u.addrs ip) i = u.addrs ip := update_self ..
  -- the block is at its position in the trees
  have hptr : a = (forest (update R i (u.addrs ip)) u).ptr (dataPos i (off / BSIZE)) := by
    rw [forest_dataPos hR', ha]
  have hdp : (treeShape ι).Pos (dataPos i (off / BSIZE)) := pos_dataPos hbn
  have hext : Extended sb R i s l (update R i (u.addrs ip)) (u.store a v) := by
    have hstored := hgrown.owned.extended_store (i := i) hdp (isData_dataPos ..) (hptr ▸ hne) v
    rw [← hptr] at hstored
    have htrans := hgrown.toExtended.trans hstored
    rwa [List.append_nil] at htrans
  have hsame : (u.store a v).ptr ip (locate (off / BSIZE)) = a := by
    have hstore := hgrown.owned.ptr_store hdp (isData_dataPos ..) v hdp
    have hR'' : update R i (u.addrs ip) i = (u.store a v).addrs ip := hR'
    rwa [← hptr, forest_dataPos hR''] at hstore
  have hblocks := blocksOf_of_le hpos hm
  refine ⟨l, ⟨hext, fun j x hx ↦ ?_, ?_, ⟨hR, hR'⟩, fun bn hmem ↦ ?_⟩, ?_, ?_, fun c hc ↦ ?_⟩
  · rw [hv, hgrown.owned.byteAt_overwrite hsafe hpos hm hptr hne j hx, hgrown.byteAt j hx]
  · rw [hmiss, needed_of_block hblocks]
  · rw [hblocks, Finset.mem_singleton] at hmem
    rw [hmem, hsame]
    exact hne
  · exact ⟨hl.sameMemory.icache_ne, hl.sameMemory.icache_eq, hl.sameMemory.ftable⟩
  · rw [dataBlocks, hblocks, Finset.image_singleton, hsame]
    exact hl.logged.trans (Logged.store u a v)
  · rw [dataBlocks, hblocks, Finset.image_singleton, hsame, Finset.mem_union,
      Finset.mem_singleton, not_or] at hc
    rw [blocks_store, if_neg hc.2, hl.blocks hc.1]

variable (h : Wrote sb R i ip s off src n l R' t)

include h

theorem Wrote.length_eq : l.length = (s.needed ip off n).card := by
  rw [← h.needed, List.toFinset_card_of_nodup h.nodup_pos, List.length_map]

/-- At most three blocks are logged for each new block, and one for each data block. -/
theorem Wrote.card_logged_le : (footprint l ∪ t.dataBlocks ip off n).card ≤ 3 * l.length + n := by
  refine (Finset.card_union_le _ _).trans (Nat.add_le_add (card_footprint_le fun g hg ↦ ?_) ?_)
  · rcases h.parent g hg with ⟨-, hlogged⟩ | ⟨path, j, -, -, hlogged⟩
    · rw [hlogged]
      exact Finset.card_le_two.trans (by omega)
    · rw [hlogged]
      refine (Finset.card_union_le _ _).trans ?_
      exact Nat.succ_le_succ Finset.card_le_two
  · exact Finset.card_image_le.trans (card_blocksOf_le off n)

/-- What has been logged lies behind the inode blocks. -/
theorem Wrote.bmapstart_le_of_mem
    (hsafe : off + n ≤ SAFEBYTES) {c : ℕ} (hc : c ∈ footprint l ∪ t.dataBlocks ip off n) :
    sb.bmapstart ≤ c := by
  rcases Finset.mem_union.1 hc with hc | hc
  · exact h.toExtended.bmapstart_le_of_mem hc
  · obtain ⟨bn, hbn, rfl⟩ := Finset.mem_image.1 hc
    have hne := h.mapped bn hbn
    rw [← forest_dataPos h.roots.2] at hne ⊢
    have hdata := (h.owned.range _ (pos_dataPos (lt_SAFEBLOCKS_of_mem hsafe hbn)) hne).1
    exact sb.bmapstart_lt_dataStart.le.trans hdata

end Wrote

end Xv6
