import Xv6.Lib.PointerTree
import Xv6.Fs.Bmap

/-!
# Who owns which block

The block numbers in the inodes form a forest of pointers: the roots are the entries of `addrs`, the
heap is the disk read as arrays of `uint`. `Owned R s` is the invariant of that forest, for inodes
whose entries of `addrs` are given by `R`: no block number occurs at two positions, each names a data
block that is marked in the free map, and the blocks before the data blocks are marked.

The inodes are indexed by an arbitrary type, and `R` need not be what the cache holds. A change of
one inode only asks that `R` is right about that inode. In this way the same lemmas serve for inodes
that are all in the cache, and for inodes that are partly on disk.

`Grow` is the one thing `bmap` does to the forest: it puts the first free block at a position where
there was none. `Owned.grow` says that this changes the pointer at that position and nothing else.
-/

namespace Xv6

open PointerTree Function

/-- The positions in the tree of one inode. -/
def blockShape : Shape ℕ where
  depth := level
  arity := NINDIRECT

/-- The positions in the trees of inodes indexed by `ι`. -/
def treeShape (ι : Type) : Shape (ι × ℕ) where
  depth := fun k ↦ level k.2
  arity := NINDIRECT

theorem treeShape_pos {ι : Type} {i : ι} {k : ℕ} {path : List ℕ} :
    (treeShape ι).Pos ((i, k), path) ↔ blockShape.Pos (k, path) :=
  ⟨fun h ↦ ⟨h.length_le, h.lt_arity⟩, fun h ↦ ⟨h.length_le, h.lt_arity⟩⟩

namespace FsState

/-- Entry `j` of block `b` read as an array of `uint`. -/
def heap (s : FsState) (b j : ℕ) : ℕ :=
  ((s.blocks b).word j).toNat

/-- `ip->addrs[k]`. -/
def addrs (s : FsState) (ip k : ℕ) : ℕ :=
  ((s.icache ip).addr k).toNat

/-- The block number at a position of the tree of `*ip`. -/
def ptr (s : FsState) (ip : ℕ) (pos : ℕ × List ℕ) : ℕ :=
  follow s.heap (s.addrs ip pos.1) pos.2

/-- `ip->addrs[k] = b`. -/
def setAddr (s : FsState) (ip k b : ℕ) : FsState :=
  s.setInode ip ((s.icache ip).setAddr k (BitVec.ofNat 32 b))

theorem addrs_setAddr {s : FsState} {ip k b : ℕ} (hk : k < NADDRS) (hb : b < 2 ^ 32) (j : ℕ) :
    (s.setAddr ip k b).addrs ip j = if j = k then b else s.addrs ip j := by
  rw [setAddr, addrs, icache_setInode_self, Inode.setAddr, Dinode.addr_setAddr hk]
  split
  · exact Nat.mod_eq_of_lt hb
  · rfl

theorem blocks_store (s : FsState) (b : ℕ) (v : Block) (c : ℕ) :
    (s.store b v).blocks c = if c = b then v else s.blocks c :=
  update_apply ..

theorem blocks_allocate {sb : Superblock} (s : FsState) {b c : ℕ} (hc : c ≠ sb.BBLOCK b) :
    (s.allocate sb b).blocks c = if c = b then Block.zero else s.blocks c := by
  rw [allocate, blocks_store, blocks_store, if_neg hc]

end FsState

variable {ι : Type}

/-- The trees of inodes with the given entries of `addrs`. -/
def forest (R : ι → ℕ → ℕ) (s : FsState) : Forest (ι × ℕ) ℕ where
  root := fun k ↦ R k.1 k.2
  heap := s.heap

/-- The invariant of the trees and of the free map. -/
structure Owned (sb : Superblock) (R : ι → ℕ → ℕ) (s : FsState) : Prop where
  inj : (forest R s).Injective (treeShape ι)
  /-- A block in a tree is a data block on the disk. -/
  range : ∀ p, (treeShape ι).Pos p → (forest R s).ptr p ≠ 0 →
    sb.dataStart ≤ (forest R s).ptr p ∧ (forest R s).ptr p < sb.size
  /-- It is marked in the free map. -/
  used_ptr : ∀ p, (treeShape ι).Pos p → (forest R s).ptr p ≠ 0 →
    s.used sb ((forest R s).ptr p) = true
  used_meta : ∀ b < sb.dataStart, s.used sb b = true

/-- The free map marks no other block. -/
def NoLeak (sb : Superblock) (R : ι → ℕ → ℕ) (s : FsState) : Prop :=
  ∀ b, sb.dataStart ≤ b → b < sb.size → s.used sb b = true →
    ∃ p, (treeShape ι).Pos p ∧ (forest R s).ptr p = b

/-! ### Growing a tree by one block -/

/-- A block that is put into a tree. -/
structure Growth where
  /-- Where. -/
  pos : ℕ × List ℕ
  /-- Which block. -/
  block : ℕ
  /-- The blocks that are logged. -/
  logged : Finset ℕ

/-- The first free block is put into the tree of `*ip`, at a position where there is none. -/
inductive Grow (sb : Superblock) (ip : ℕ) (s : FsState) : Growth → FsState → Prop where
  /-- Into `ip->addrs`. -/
  | root {k b : ℕ} (hk : k < NADDRS) (hnull : s.addrs ip k = 0) (hb : s.LeastFree sb b) :
      Grow sb ip s ⟨(k, []), b, {sb.BBLOCK b, b}⟩ ((s.allocate sb b).setAddr ip k b)
  /-- Into an indirect block. -/
  | entry {k : ℕ} {path : List ℕ} {j b : ℕ} (hpos : blockShape.Pos (k, path ++ [j]))
      (hparent : s.ptr ip (k, path) ≠ 0) (hnull : s.heap (s.ptr ip (k, path)) j = 0)
      (hb : s.LeastFree sb b) :
      Grow sb ip s ⟨(k, path ++ [j]), b, {sb.BBLOCK b, b} ∪ {s.ptr ip (k, path)}⟩
        ((s.allocate sb b).store (s.ptr ip (k, path))
          (((s.allocate sb b).blocks (s.ptr ip (k, path))).setWord j (BitVec.ofNat 32 b)))

variable {sb : Superblock} {R : ι → ℕ → ℕ} {s t : FsState} {ip : ℕ} {i : ι} {g : Growth}

theorem forest_ptr (hR : R i = s.addrs ip) (k : ℕ) (path : List ℕ) :
    (forest R s).ptr ((i, k), path) = s.ptr ip (k, path) := by
  show follow s.heap (R i k) path = _
  rw [hR]
  rfl

namespace Owned

/-- The trees of empty files. -/
theorem of_null (hnull : ∀ i k, R i k = 0) (hmeta : ∀ b < sb.dataStart, s.used sb b = true) :
    Owned sb R s := by
  have hptr : ∀ p, (forest R s).ptr p = 0 := by
    intro p
    show follow s.heap (R p.1.1 p.1.2) p.2 = 0
    rw [hnull, follow_zero]
  refine ⟨?_, ?_, ?_, hmeta⟩
  · exact fun p q _ _ hne ↦ absurd (hptr p) hne
  · exact fun p _ hne ↦ absurd (hptr p) hne
  · exact fun p _ hne ↦ absurd (hptr p) hne

variable {b : ℕ}

variable (h : Owned sb R s)

include h

/-- The first free block is a data block. -/
theorem dataStart_le (hb : s.LeastFree sb b) : sb.dataStart ≤ b := by
  by_contra hlt
  have hused := h.used_meta b (Nat.lt_of_not_le hlt)
  rw [hb.free] at hused
  cases hused

/-- A free block is in no tree. -/
theorem ptr_ne (hb : s.LeastFree sb b) {p : (ι × ℕ) × List ℕ} (hp : (treeShape ι).Pos p) :
    (forest R s).ptr p ≠ b := by
  intro hpb
  have hne : (forest R s).ptr p ≠ 0 := by
    have h1 := h.dataStart_le hb
    have h2 : 0 < sb.dataStart := Nat.succ_pos _
    omega
  have hused := h.used_ptr p hp hne
  rw [hpb, hb.free] at hused
  cases hused

/-- A block of the free map is in no tree. -/
theorem ptr_ne_BBLOCK (hb : b < sb.size) {p : (ι × ℕ) × List ℕ} (hp : (treeShape ι).Pos p)
    (hne : (forest R s).ptr p ≠ 0) : (forest R s).ptr p ≠ sb.BBLOCK b := by
  have h1 := (h.range p hp hne).1
  have h2 := sb.BBLOCK_lt_dataStart hb
  omega

/-- Allocating a block does not change the blocks in trees. -/
theorem blocks_allocate (hb : s.LeastFree sb b) {p : (ι × ℕ) × List ℕ}
    (hp : (treeShape ι).Pos p) (hne : (forest R s).ptr p ≠ 0) :
    (s.allocate sb b).blocks ((forest R s).ptr p) = s.blocks ((forest R s).ptr p) := by
  rw [FsState.blocks_allocate s (h.ptr_ne_BBLOCK hb.lt hp hne), if_neg (h.ptr_ne hb hp)]

theorem heap_allocate_self (hb : s.LeastFree sb b) (j : ℕ) : (s.allocate sb b).heap b j = 0 := by
  have hne : b ≠ sb.BBLOCK b := by
    have h1 := h.dataStart_le hb
    have h2 := sb.BBLOCK_lt_dataStart hb.lt
    omega
  rw [FsState.heap, FsState.blocks_allocate s hne, if_pos rfl, Block.word_zero]
  rfl

/-- A forest that gains the first free block at one position. -/
theorem of_graft [DecidableEq ι] {R' : ι → ℕ → ℕ} (hb : s.LeastFree sb b)
    {p₀ : (ι × ℕ) × List ℕ} (hused : ∀ c < sb.size, t.used sb c = (decide (c = b) || s.used sb c))
    (hptr : ∀ p, (treeShape ι).Pos p →
      (forest R' t).ptr p = if p = p₀ then b else (forest R s).ptr p) : Owned sb R' t where
  inj := h.inj.graft (fun p hp ↦ h.ptr_ne hb hp) hptr
  range := fun p hp hne ↦ by
    rw [hptr p hp] at hne ⊢
    split
    · exact ⟨h.dataStart_le hb, hb.lt⟩
    next hpp =>
      rw [if_neg hpp] at hne
      exact h.range p hp hne
  used_ptr := fun p hp hne ↦ by
    rw [hptr p hp] at hne ⊢
    split
    · rw [hused b hb.lt, decide_eq_true rfl, Bool.true_or]
    next hpp =>
      rw [if_neg hpp] at hne
      rw [hused _ (h.range p hp hne).2, h.used_ptr p hp hne, Bool.or_true]
  used_meta := fun c hc ↦ by
    rw [hused c (hc.trans sb.dataStart_lt_size), h.used_meta c hc, Bool.or_true]

end Owned

theorem FsState.LeastFree.lt_two_pow {b : ℕ} (hb : s.LeastFree sb b) : b < 2 ^ 32 := by
  have h1 := hb.lt
  have h2 := sb.size_le
  have h3 : FSSIZE = 40000 := rfl
  omega

namespace Owned

variable [DecidableEq ι]

theorem ptr_grow_root (h : Owned sb R s) (hR : R i = s.addrs ip) {k b : ℕ} (hk : k < NADDRS)
    (hnull : s.addrs ip k = 0) (hb : s.LeastFree sb b) {p : (ι × ℕ) × List ℕ}
    (hp : (treeShape ι).Pos p) : (forest (update R i (((s.allocate sb b).setAddr ip k b).addrs ip))
      ((s.allocate sb b).setAddr ip k b)).ptr p =
        if p = ((i, k), []) then b else (forest R s).ptr p := by
  refine Forest.ptr_graft_root (F := forest R s) ?_ (fun k' ↦ ?_) (fun j ↦ ?_)
    (fun p j hp hne _ ↦ ?_) hp
  · show R i k = 0
    rw [hR, hnull]
  · obtain ⟨i', k'⟩ := k'
    show update R i _ i' k' = if (i', k') = (i, k) then b else R i' k'
    by_cases hi : i' = i
    · rw [hi, update_self, FsState.addrs_setAddr hk hb.lt_two_pow, hR]
      simp only [Prod.mk.injEq, true_and]
      rfl
    · rw [update_of_ne hi, if_neg (fun h ↦ hi (congrArg Prod.fst h))]
  · exact h.heap_allocate_self hb j
  · show (((s.allocate sb b).blocks _).word j).toNat = _
    rw [h.blocks_allocate hb hp hne]
    rfl

theorem ptr_grow_entry (h : Owned sb R s) {k j b : ℕ} {path : List ℕ}
    (hpos : (treeShape ι).Pos ((i, k), path ++ [j])) (hparent : (forest R s).ptr ((i, k), path) ≠ 0)
    (hnull : s.heap ((forest R s).ptr ((i, k), path)) j = 0) (hb : s.LeastFree sb b)
    (ht : t.blocks = update (s.allocate sb b).blocks ((forest R s).ptr ((i, k), path))
      (((s.allocate sb b).blocks ((forest R s).ptr ((i, k), path))).setWord j (BitVec.ofNat 32 b)))
    {p : (ι × ℕ) × List ℕ} (hp : (treeShape ι).Pos p) :
    (forest R t).ptr p = if p = ((i, k), path ++ [j]) then b else (forest R s).ptr p := by
  have hj : j < NINDIRECT := hpos.lt_arity j (by simp)
  have hroot : (forest R t).root = (forest R s).root := rfl
  refine Forest.ptr_graft_entry hpos hparent hnull hroot (fun l ↦ ?_) ?_
    (fun p l hp hne hl hpl ↦ ?_) hp
  · show ((t.blocks b).word l).toNat = 0
    rw [ht, update_of_ne (h.ptr_ne hb hpos.of_append).symm]
    exact h.heap_allocate_self hb l
  · show ((t.blocks _).word j).toNat = b
    rw [ht, update_self, Block.word_setWord_self hj, BitVec.toNat_ofNat,
      Nat.mod_eq_of_lt hb.lt_two_pow]
  · show ((t.blocks _).word l).toNat = ((s.blocks _).word l).toNat
    rw [ht]
    by_cases heq : (forest R s).ptr p = (forest R s).ptr ((i, k), path)
    · -- the block is at one position only, so this is another entry of it
      have hpp := h.inj p _ hp hpos.of_append hne heq
      have hlj : l ≠ j := fun hlj ↦ hpl (by rw [hpp, hlj])
      rw [heq, update_self, Block.word_setWord_of_ne hlj,
        h.blocks_allocate hb hpos.of_append hparent]
    · rw [update_of_ne heq, h.blocks_allocate hb hp hne]

/-- What growing the tree of `*ip` does to the trees and to the free map. -/
theorem grow (h : Owned sb R s) (hR : R i = s.addrs ip) (hg : Grow sb ip s g t) :
    Owned sb (update R i (t.addrs ip)) t ∧
      (∀ c < sb.size, t.used sb c = (decide (c = g.block) || s.used sb c)) ∧
      ∀ p, (treeShape ι).Pos p → (forest (update R i (t.addrs ip)) t).ptr p =
        if p = ((i, g.pos.1), g.pos.2) then g.block else (forest R s).ptr p := by
  cases hg with
  | @root k b hk hnull hb =>
    have hused : ∀ c < sb.size, ((s.allocate sb b).setAddr ip k b).used sb c =
        (decide (c = b) || s.used sb c) :=
      fun c hc ↦ FsState.used_allocate (h.dataStart_le hb) hc
    have hptr := fun p hp ↦ h.ptr_grow_root hR hk hnull hb (p := p) hp
    exact ⟨h.of_graft hb hused hptr, hused, hptr⟩
  | @entry k path j b hpos hparent hnull hb =>
    rw [← forest_ptr hR] at hparent hnull ⊢
    have hpos : (treeShape ι).Pos ((i, k), path ++ [j]) := treeShape_pos.2 hpos
    have hused : ∀ c < sb.size, ((s.allocate sb b).store ((forest R s).ptr ((i, k), path))
        (((s.allocate sb b).blocks ((forest R s).ptr ((i, k), path))).setWord j
          (BitVec.ofNat 32 b))).used sb c = (decide (c = b) || s.used sb c) := by
      intro c hc
      rw [FsState.used_store_of_ne (h.ptr_ne_BBLOCK hc hpos.of_append hparent).symm,
        FsState.used_allocate (h.dataStart_le hb) hc]
    have hptr := fun p hp ↦ h.ptr_grow_entry hpos hparent hnull hb
      (t := (s.allocate sb b).store ((forest R s).ptr ((i, k), path))
        (((s.allocate sb b).blocks ((forest R s).ptr ((i, k), path))).setWord j
          (BitVec.ofNat 32 b))) rfl (p := p) hp
    have hsame : update R i (s.addrs ip) = R := by rw [← hR, update_eq_self]
    show Owned sb (update R i (s.addrs ip)) _ ∧ _ ∧
      ∀ p, _ → (forest (update R i (s.addrs ip)) _).ptr p = _
    rw [hsame]
    exact ⟨h.of_graft hb hused hptr, hused, hptr⟩

end Owned

end Xv6
