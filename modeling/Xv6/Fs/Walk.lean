import Xv6.Fs.Ownership

/-!
# What `bmap` does

`bmap` walks from the inode to the data block and puts a block at each position on the way where
there is none: the result is a sequence of `Grow` steps at exactly those positions (`bmap_sat`). If
it does not return, then the log is too small for what it would log up to some point, or the free
blocks run out before the last of these positions (`GrowsFail`).
-/

namespace Xv6

open PointerTree Function FsState

/-- Several blocks are put into the tree of `*ip`, one after another. -/
inductive Grows (sb : Superblock) (ip : ℕ) : FsState → List Growth → FsState → Prop where
  | nil {s : FsState} : Grows sb ip s [] s
  | cons {s u t : FsState} {g : Growth} {l : List Growth} (hg : Grow sb ip s g u)
      (hl : Grows sb ip u l t) : Grows sb ip s (g :: l) t

/-- The blocks that are logged when trees grow. -/
def footprint : List Growth → Finset ℕ
  | [] => ∅
  | g :: l => g.logged ∪ footprint l

/-- How putting blocks at the positions `qs` can fail: what is logged up to some point is too much
for the log, or there are too few free blocks. -/
def GrowsFail (sb : Superblock) (ip : ℕ) (s : FsState) (qs : List (ℕ × List ℕ)) (e : Stop) : Prop :=
  (∃ l t, Grows sb ip s l t ∧ l.map Growth.pos <+: qs ∧ s.log.Fails (footprint l) e) ∨
    ∃ l t, Grows sb ip s l t ∧ l.map Growth.pos <+: qs ∧ l.length < qs.length ∧
      e = .panic .outOfBlocks ∧ ∀ c < sb.size, t.used sb c = true

/-- The positions met when following a path from a position. -/
def chainFrom (k : ℕ) : List ℕ → List ℕ → List (ℕ × List ℕ)
  | _, [] => []
  | pre, j :: path => (k, pre ++ [j]) :: chainFrom k (pre ++ [j]) path

/-- The positions met on the way from the inode to a position. -/
def chain (pos : ℕ × List ℕ) : List (ℕ × List ℕ) :=
  (pos.1, []) :: chainFrom pos.1 [] pos.2

/-- Those of the positions at which there is no block. -/
def FsState.missing (s : FsState) (ip : ℕ) (qs : List (ℕ × List ℕ)) : List (ℕ × List ℕ) :=
  qs.filter fun q ↦ s.ptr ip q = 0

variable {q : ℕ × List ℕ}

/-- A position and those met from it on belong to the initial parts of the path. -/
theorem cons_chainFrom (k : ℕ) (pre path : List ℕ) :
    (k, pre) :: chainFrom k pre path = path.inits.map fun p ↦ (k, pre ++ p) := by
  induction path generalizing pre with
  | nil => simp [chainFrom]
  | cons j path ih =>
    rw [chainFrom, ih, List.inits_cons]
    simp [Function.comp_def]

theorem mem_chain {pos : ℕ × List ℕ} : q ∈ chain pos ↔ ∃ p, p <+: pos.2 ∧ q = (pos.1, p) := by
  rw [chain, cons_chainFrom]
  simp [eq_comm]

theorem length_chain (pos : ℕ × List ℕ) : (chain pos).length = pos.2.length + 1 := by
  rw [chain, cons_chainFrom, List.length_map, List.length_inits]

theorem nodup_cons_chainFrom (k : ℕ) (pre path : List ℕ) : ((k, pre) :: chainFrom k pre path).Nodup := by
  have hinits (l : List ℕ) : l.inits.Nodup := by
    induction l with
    | nil => exact List.nodup_singleton _
    | cons j l ih =>
      exact List.nodup_cons.2 ⟨by simp, ih.map List.cons_injective⟩
  rw [cons_chainFrom]
  exact (hinits path).map fun p p' h ↦ List.append_cancel_left (Prod.mk.inj h).2

/-- No position is met twice. -/
theorem nodup_chain (pos : ℕ × List ℕ) : (chain pos).Nodup :=
  nodup_cons_chainFrom ..

/-- What is met after a position of the tree are other positions of the tree. -/
theorem pos_of_mem_chainFrom {k : ℕ} {pre path : List ℕ} (hpos : blockShape.Pos (k, pre ++ path))
    (hq : q ∈ chainFrom k pre path) : blockShape.Pos q ∧ q ∉ [(k, pre)] := by
  have hmem := List.mem_cons_of_mem (k, pre) hq
  rw [cons_chainFrom] at hmem
  obtain ⟨p, hp, rfl⟩ := List.mem_map.1 hmem
  obtain ⟨r, rfl⟩ := (List.mem_inits p path).1 hp
  rw [← List.append_assoc] at hpos
  refine ⟨hpos.of_append, fun heq ↦ ?_⟩
  rw [List.mem_singleton.1 heq] at hq
  exact (List.nodup_cons.1 (nodup_cons_chainFrom ..)).1 hq

/-- There are at most four blocks on the way to a data block, that one included. -/
theorem length_chain_locate (bn : ℕ) : (chain (locate bn)).length ≤ 4 := by
  rw [length_chain, Fs.level_locate, level]
  have h1 := Fs.locate_fst_lt bn
  have h2 : NADDRS = 13 := rfl
  have h3 : NDIRECT = 10 := rfl
  split <;> omega

theorem length_missing_locate (s : FsState) (ip bn : ℕ) :
    (s.missing ip (chain (locate bn))).length ≤ 4 :=
  (List.length_filter_le _ _).trans (length_chain_locate bn)

/-! ### Sequences of growth -/

variable {sb : Superblock} {ip : ℕ} {s t u : FsState} {g : Growth} {l : List Growth}

theorem Grow.logged (h : Grow sb ip s g t) : Logged s g.logged t := by
  cases h with
  | root hk hnull hb => exact (Logged.allocate sb s _).setInode ip _
  | entry hpos hparent hnull hb => exact (Logged.allocate sb s _).trans (Logged.store _ _ _)

theorem Grows.logged (h : Grows sb ip s l t) : Logged s (footprint l) t := by
  induction h with
  | nil => exact .of_eq rfl rfl
  | cons hg _ ih => exact hg.logged.trans ih

theorem Grow.card_logged (h : Grow sb ip s g t) : g.logged.card ≤ 3 := by
  cases h with
  | root hk hnull hb => exact Finset.card_le_two.trans (by omega)
  | entry hpos hparent hnull hb =>
    refine (Finset.card_union_le _ _).trans ?_
    exact Nat.succ_le_succ Finset.card_le_two

theorem card_footprint_le (h : ∀ g ∈ l, g.logged.card ≤ 3) : (footprint l).card ≤ 3 * l.length := by
  induction l with
  | nil => exact le_refl 0
  | cons g l ih =>
    rw [List.forall_mem_cons] at h
    refine (Finset.card_union_le g.logged (footprint l)).trans ?_
    have hg := h.1
    have hl := ih h.2
    rw [List.length_cons]
    omega

theorem Grows.card_footprint (h : Grows sb ip s l t) : (footprint l).card ≤ 3 * l.length := by
  refine card_footprint_le ?_
  induction h with
  | nil => exact nofun
  | cons hg _ ih => exact List.forall_mem_cons.2 ⟨hg.card_logged, ih⟩

/-- Only the block addresses of one inode change in memory. -/
structure SameMemory (ip : ℕ) (s t : FsState) : Prop where
  icache_ne : ∀ jp ≠ ip, t.icache jp = s.icache jp
  icache_eq : ∃ a, t.icache ip = { s.icache ip with addrs := a }
  ftable : t.ftable = s.ftable

namespace SameMemory

theorem refl (ip : ℕ) (s : FsState) : SameMemory ip s s :=
  ⟨fun _ _ ↦ rfl, ⟨_, rfl⟩, rfl⟩

theorem trans (h : SameMemory ip s u) (h' : SameMemory ip u t) : SameMemory ip s t where
  icache_ne := fun jp hjp ↦ (h'.icache_ne jp hjp).trans (h.icache_ne jp hjp)
  icache_eq := by
    obtain ⟨a, ha⟩ := h.icache_eq
    obtain ⟨a', ha'⟩ := h'.icache_eq
    exact ⟨a', by rw [ha', ha]⟩
  ftable := h'.ftable.trans h.ftable

end SameMemory

theorem Grow.sameMemory (h : Grow sb ip s g t) : SameMemory ip s t := by
  cases h with
  | root hk hnull hb =>
    exact ⟨fun jp hjp ↦ update_of_ne hjp _ _, ⟨_, update_self ..⟩, rfl⟩
  | entry hpos hparent hnull hb => exact ⟨fun _ _ ↦ rfl, ⟨_, rfl⟩, rfl⟩

theorem Grows.sameMemory (h : Grows sb ip s l t) : SameMemory ip s t := by
  induction h with
  | nil => exact .refl ip _
  | cons hg _ ih => exact hg.sameMemory.trans ih

/-- The block is put at a position of the tree where there is none. -/
theorem Grow.pos (h : Grow sb ip s g t) : blockShape.Pos g.pos ∧ s.ptr ip g.pos = 0 := by
  cases h with
  | root hk hnull hb => exact ⟨.root _, hnull⟩
  | entry hpos hparent hnull hb =>
    exact ⟨hpos, (follow_concat s.heap hparent _).trans hnull⟩

theorem Grow.leastFree (h : Grow sb ip s g t) : s.LeastFree sb g.block := by
  cases h with
  | root hk hnull hb | entry hpos hparent hnull hb => exact hb

/-- A block that is not logged is not changed. -/
theorem Grow.blocks (h : Grow sb ip s g t) {c : ℕ} (hc : c ∉ g.logged) : t.blocks c = s.blocks c := by
  cases h with
  | @root k b hk hnull hb =>
    rw [Finset.mem_insert, Finset.mem_singleton, not_or] at hc
    show (s.allocate sb b).blocks c = _
    rw [blocks_allocate s hc.1, if_neg hc.2]
  | @entry k path j b hpos hparent hnull hb =>
    rw [Finset.mem_union, Finset.mem_insert, Finset.mem_singleton, Finset.mem_singleton, not_or,
      not_or] at hc
    rw [blocks_store, if_neg hc.2, blocks_allocate s hc.1.1, if_neg hc.1.2]

theorem Grows.blocks (h : Grows sb ip s l t) {c : ℕ} (hc : c ∉ footprint l) :
    t.blocks c = s.blocks c := by
  induction h with
  | nil => rfl
  | cons hg _ ih =>
    rw [footprint, Finset.mem_union, not_or] at hc
    rw [ih hc.2, hg.blocks hc.1]

section Forest

variable {ι : Type} {R : ι → ℕ → ℕ} {i : ι}

/-- A position of a data block. -/
def IsData (p : (ι × ℕ) × List ℕ) : Prop :=
  p.2.length = level p.1.2

/-- What is logged when a tree grows: blocks of the free map, free blocks, and indirect blocks. -/
theorem mem_logged (hR : R i = s.addrs ip) (hg : Grow sb ip s g t) {c : ℕ} (hc : c ∈ g.logged) :
    c = sb.BBLOCK g.block ∨ c = g.block ∨
      ∃ p, (treeShape ι).Pos p ∧ ¬IsData p ∧ (forest R s).ptr p ≠ 0 ∧ (forest R s).ptr p = c := by
  cases hg with
  | root hk hnull hb =>
    rw [Finset.mem_insert, Finset.mem_singleton] at hc
    exact hc.imp_right Or.inl
  | @entry k path j b hpos hparent hnull hb =>
    rw [Finset.mem_union, Finset.mem_insert, Finset.mem_singleton, Finset.mem_singleton] at hc
    rcases hc with hc | hc
    · exact hc.imp_right Or.inl
    · have hlen : (path ++ [j]).length ≤ level k := hpos.length_le
      rw [List.length_append, List.length_singleton] at hlen
      refine .inr (.inr ⟨((i, k), path), treeShape_pos.2 hpos.of_append, fun hdata ↦ ?_, ?_, ?_⟩)
      · have hdata : path.length = level k := hdata
        omega
      · rwa [forest_ptr hR]
      · rw [forest_ptr hR, hc]

/-- A data block is not logged when a tree grows. -/
theorem Owned.data_not_mem_logged (h : Owned sb R s) (hR : R i = s.addrs ip)
    (hg : Grow sb ip s g t) {p : (ι × ℕ) × List ℕ} (hp : (treeShape ι).Pos p) (hdata : IsData p)
    (hne : (forest R s).ptr p ≠ 0) : (forest R s).ptr p ∉ g.logged := by
  intro hmem
  rcases mem_logged hR hg hmem with hc | hc | ⟨q, hq, hqdata, hqne, hqp⟩
  · exact h.ptr_ne_BBLOCK hg.leastFree.lt hp hne hc
  · exact h.ptr_ne hg.leastFree hp hc
  · rw [h.inj q p hq hp hqne hqp] at hqdata
    exact hqdata hdata

/-- A block that is put into a tree is zero. -/
theorem Owned.blocks_new (h : Owned sb R s) (hR : R i = s.addrs ip) (hg : Grow sb ip s g t) :
    t.blocks g.block = Block.zero := by
  have hne : g.block ≠ sb.BBLOCK g.block := by
    have h1 := h.dataStart_le hg.leastFree
    have h2 := sb.BBLOCK_lt_dataStart hg.leastFree.lt
    omega
  cases hg with
  | @root k b hk hnull hb =>
    show (s.allocate sb b).blocks b = _
    rw [FsState.blocks_allocate s hne, if_pos rfl]
  | @entry k path j b hpos hparent hnull hb =>
    have hpb : b ≠ s.ptr ip (k, path) := by
      rw [← forest_ptr hR]
      exact (h.ptr_ne hb (treeShape_pos.2 hpos.of_append)).symm
    rw [FsState.blocks_store, if_neg hpb, FsState.blocks_allocate s hne, if_pos rfl]

/-- The tree of inode `i` has been extended by the blocks `l`: what this means for the trees and for
the free map. -/
structure Extended (sb : Superblock) (R : ι → ℕ → ℕ) (i : ι) (s : FsState) (l : List Growth)
    (R' : ι → ℕ → ℕ) (t : FsState) : Prop where
  owned : Owned sb R' t
  used : ∀ c < sb.size, t.used sb c = true ↔ (∃ g ∈ l, c = g.block) ∨ s.used sb c = true
  fresh : ∀ g ∈ l, sb.dataStart ≤ g.block ∧ g.block < sb.size ∧ s.used sb g.block = false
  nodup : (l.map Growth.block).Nodup
  least : ∀ g ∈ l, ∀ c < g.block, s.used sb c = true ∨ ∃ g' ∈ l, g'.block = c
  pos : ∀ g ∈ l, blockShape.Pos g.pos
  null : ∀ g ∈ l, (forest R s).ptr ((i, g.pos.1), g.pos.2) = 0
  ptr_new : ∀ g ∈ l, (forest R' t).ptr ((i, g.pos.1), g.pos.2) = g.block
  /-- The other positions are as before. -/
  ptr_old : ∀ p, (treeShape ι).Pos p → (∀ g ∈ l, p ≠ ((i, g.pos.1), g.pos.2)) →
    (forest R' t).ptr p = (forest R s).ptr p
  /-- What is logged for a new block: the block, its bit, and the indirect block that names it. -/
  parent : ∀ g ∈ l, (g.pos.2 = [] ∧ g.logged = {sb.BBLOCK g.block, g.block}) ∨
    ∃ path j, g.pos.2 = path ++ [j] ∧ (forest R' t).ptr ((i, g.pos.1), path) ≠ 0 ∧
      g.logged = {sb.BBLOCK g.block, g.block} ∪ {(forest R' t).ptr ((i, g.pos.1), path)}

namespace Extended

variable {R' R'' : ι → ℕ → ℕ} {l' : List Growth}

theorem refl (h : Owned sb R s) : Extended sb R i s [] R s where
  owned := h
  used := fun c _ ↦ by simp
  fresh := nofun
  nodup := List.nodup_nil
  least := nofun
  pos := nofun
  null := nofun
  ptr_new := nofun
  ptr_old := fun _ _ _ ↦ rfl
  parent := nofun

/-- A new block is not the null pointer. -/
theorem block_ne_zero (h : Extended sb R i s l R' t) (hg : g ∈ l) : g.block ≠ 0 := by
  have h1 := (h.fresh g hg).1
  have h2 := sb.bmapstart_lt_dataStart
  omega

/-- What has been a block stays that block. -/
theorem ptr_of_ne_zero (h : Extended sb R i s l R' t) {p : (ι × ℕ) × List ℕ}
    (hp : (treeShape ι).Pos p) (hne : (forest R s).ptr p ≠ 0) :
    (forest R' t).ptr p = (forest R s).ptr p :=
  h.ptr_old p hp fun g hg hpg ↦ hne (hpg ▸ h.null g hg)

/-- The new blocks are at different positions. -/
theorem nodup_pos (h : Extended sb R i s l R' t) : (l.map Growth.pos).Nodup := by
  refine List.Nodup.of_map (fun q ↦ (forest R' t).ptr ((i, q.1), q.2)) ?_
  have hmap : (l.map Growth.pos).map (fun q ↦ (forest R' t).ptr ((i, q.1), q.2)) =
      l.map Growth.block := by
    rw [List.map_map]
    exact List.map_congr_left h.ptr_new
  rw [hmap]
  exact h.nodup

theorem trans (h : Extended sb R i s l R' u) (h' : Extended sb R' i u l' R'' t) :
    Extended sb R i s (l ++ l') R'' t := by
  -- a later position is another one, since there is no block there yet
  have hlater : ∀ g ∈ l, ∀ g' ∈ l', ((i, g'.pos.1), g'.pos.2) ≠ ((i, g.pos.1), g.pos.2) := by
    intro g hg g' hg' heq
    have hnull := h'.null g' hg'
    rw [heq, h.ptr_new g hg] at hnull
    exact h.block_ne_zero hg hnull
  refine ⟨h'.owned, fun c hc ↦ ?_, fun g hg ↦ ?_, ?_, fun g hg c hc ↦ ?_, fun g hg ↦ ?_,
    fun g hg ↦ ?_, fun g hg ↦ ?_, fun p hp hne ↦ ?_, fun g hg ↦ ?_⟩
  · simp only [h'.used c hc, h.used c hc, List.mem_append, or_and_right, exists_or]
    rw [or_assoc]
    exact or_left_comm
  · rcases List.mem_append.1 hg with hg | hg
    · exact h.fresh g hg
    · obtain ⟨h1, h2, h3⟩ := h'.fresh g hg
      refine ⟨h1, h2, Bool.eq_false_iff.2 fun hused ↦ ?_⟩
      rw [(h.used _ h2).2 (.inr hused)] at h3
      cases h3
  · rw [List.map_append]
    refine List.Nodup.append h.nodup h'.nodup fun b hb hb' ↦ ?_
    obtain ⟨g, hg, rfl⟩ := List.mem_map.1 hb
    obtain ⟨g', hg', heq⟩ := List.mem_map.1 hb'
    obtain ⟨-, h2, h3⟩ := h'.fresh g' hg'
    rw [(h.used _ h2).2 (.inl ⟨g, hg, heq⟩)] at h3
    cases h3
  · simp only [List.mem_append, or_and_right, exists_or]
    rcases List.mem_append.1 hg with hg | hg
    · exact (h.least g hg c hc).imp_right Or.inl
    · rcases h'.least g hg c hc with hused | hex
      · rcases (h.used c (hc.trans (h'.fresh g hg).2.1)).1 hused with ⟨g', hg', hcg⟩ | hused
        · exact .inr (.inl ⟨g', hg', hcg.symm⟩)
        · exact .inl hused
      · exact .inr (.inr hex)
  · exact (List.mem_append.1 hg).elim (h.pos g) (h'.pos g)
  · rcases List.mem_append.1 hg with hg | hg
    · exact h.null g hg
    · rw [← h.ptr_old _ (treeShape_pos.2 (h'.pos g hg)) fun g' hg' ↦ hlater g' hg' g hg]
      exact h'.null g hg
  · rcases List.mem_append.1 hg with hg | hg
    · rw [h'.ptr_old _ (treeShape_pos.2 (h.pos g hg)) fun g' hg' ↦ (hlater g hg g' hg').symm]
      exact h.ptr_new g hg
    · exact h'.ptr_new g hg
  · rw [List.forall_mem_append] at hne
    rw [h'.ptr_old p hp hne.2, h.ptr_old p hp hne.1]
  · rcases List.mem_append.1 hg with hg | hg
    · refine (h.parent g hg).imp_right fun ⟨path, j, hpath, hne, hlogged⟩ ↦ ?_
      have hpos : blockShape.Pos (g.pos.1, path ++ [j]) := hpath ▸ h.pos g hg
      have hsame := h'.ptr_of_ne_zero (treeShape_pos.2 hpos.of_append) hne
      exact ⟨path, j, hpath, by rwa [hsame], by rw [hsame, hlogged]⟩
    · exact h'.parent g hg

end Extended

/-- No block is lost when a tree is extended. -/
theorem NoLeak.extended {R' : ι → ℕ → ℕ} (h : NoLeak sb R s) (hext : Extended sb R i s l R' t) :
    NoLeak sb R' t := by
  intro b hb hsize hused
  rcases (hext.used b hsize).1 hused with ⟨g, hgl, rfl⟩ | hused
  · exact ⟨_, treeShape_pos.2 (hext.pos g hgl), hext.ptr_new g hgl⟩
  · obtain ⟨p, hp, rfl⟩ := h b hb hsize hused
    refine ⟨p, hp, hext.ptr_old p hp fun g hgl hpg ↦ ?_⟩
    -- there was no block at a position where the tree grew
    have hnull := hext.null g hgl
    rw [← hpg] at hnull
    have := sb.bmapstart_lt_dataStart
    omega

/-- The tree of inode `i` has been extended, and the data blocks are as before. -/
structure Grown (sb : Superblock) (R : ι → ℕ → ℕ) (i : ι) (s : FsState) (l : List Growth)
    (R' : ι → ℕ → ℕ) (t : FsState) : Prop extends Extended sb R i s l R' t where
  /-- The old data blocks are as before. -/
  data_old : ∀ p, (treeShape ι).Pos p → IsData p → (forest R s).ptr p ≠ 0 →
    t.blocks ((forest R s).ptr p) = s.blocks ((forest R s).ptr p)
  /-- The new data blocks are zero. -/
  data_new : ∀ g ∈ l, IsData ((i, g.pos.1), g.pos.2) → t.blocks g.block = Block.zero

/-- The trees and the free map depend on the blocks only. -/
theorem Owned.congr_blocks (h : Owned sb R s) (hblocks : t.blocks = s.blocks) : Owned sb R t := by
  cases s
  cases t
  cases hblocks
  exact { h with }

theorem Extended.congr_blocks {R' : ι → ℕ → ℕ} {s' t' : FsState} (h : Extended sb R i s l R' t)
    (hs : s'.blocks = s.blocks) (ht : t'.blocks = t.blocks) : Extended sb R i s' l R' t' := by
  have howned := h.owned.congr_blocks ht
  cases s
  cases s'
  cases hs
  cases t
  cases t'
  cases ht
  exact { h with owned := howned }

theorem Grown.congr_blocks {R' : ι → ℕ → ℕ} {s' t' : FsState} (h : Grown sb R i s l R' t)
    (hs : s'.blocks = s.blocks) (ht : t'.blocks = t.blocks) : Grown sb R i s' l R' t' := by
  have hext := h.toExtended.congr_blocks hs ht
  cases s
  cases s'
  cases hs
  cases t
  cases t'
  cases ht
  exact ⟨hext, h.data_old, h.data_new⟩

/-- One block is put into the tree. -/
theorem Owned.extended_grow [DecidableEq ι] (h : Owned sb R s) (hR : R i = s.addrs ip)
    (hg : Grow sb ip s g t) : Extended sb R i s [g] (update R i (t.addrs ip)) t := by
  obtain ⟨ht, hused, hptr⟩ := h.grow hR hg
  have hgpos : (treeShape ι).Pos ((i, g.pos.1), g.pos.2) := treeShape_pos.2 hg.pos.1
  refine ⟨ht, fun c hc ↦ ?_, ?_, List.nodup_singleton _, ?_, ?_, ?_, ?_, fun p hp hne ↦ ?_, ?_⟩
  · rw [hused c hc, Bool.or_eq_true, decide_eq_true_eq, List.exists_mem_cons_iff]
    simp
  · exact List.forall_mem_singleton.2
      ⟨h.dataStart_le hg.leastFree, hg.leastFree.lt, hg.leastFree.free⟩
  · exact List.forall_mem_singleton.2 fun c hc ↦ Or.inl (hg.leastFree.least c hc)
  · exact List.forall_mem_singleton.2 hg.pos.1
  · exact List.forall_mem_singleton.2 (by rw [forest_ptr hR, hg.pos.2])
  · exact List.forall_mem_singleton.2 (by rw [hptr _ hgpos, if_pos rfl])
  · rw [hptr p hp, if_neg (hne g List.mem_cons_self)]
  · refine List.forall_mem_singleton.2 ?_
    cases hg with
    | root hk hnull hb => exact .inl ⟨rfl, rfl⟩
    | @entry k path j b hpos hparent hnull hb =>
      have hsame := hptr ((i, k), path) (treeShape_pos.2 hpos.of_append)
      rw [if_neg (by simp), forest_ptr hR] at hsame
      exact .inr ⟨path, j, rfl, by rwa [hsame], by rw [hsame]⟩

/-- What growing the tree of `*ip` several times does to the trees. -/
theorem Owned.grows [DecidableEq ι] (h : Owned sb R s) (hR : R i = s.addrs ip)
    (hl : Grows sb ip s l t) : Grown sb R i s l (update R i (t.addrs ip)) t := by
  induction hl generalizing R with
  | nil =>
    rw [← hR, update_eq_self]
    exact ⟨.refl h, fun _ _ _ _ ↦ rfl, nofun⟩
  | @cons s u t g l hg hl ih =>
    have hstep := h.extended_grow hR hg
    have ih := ih hstep.owned (update_self ..)
    rw [update_idem] at ih
    have hmem : g ∈ [g] := List.mem_cons_self
    refine ⟨hstep.trans ih.toExtended, fun p hp hdata hne ↦ ?_, ?_⟩
    · have hptr := hstep.ptr_of_ne_zero hp hne
      have hold := ih.data_old p hp hdata (by rwa [hptr])
      rw [hptr] at hold
      rw [hold, hg.blocks (h.data_not_mem_logged hR hg hp hdata hne)]
    · refine List.forall_mem_cons.2 ⟨fun hdata ↦ ?_, ih.data_new⟩
      have hgu := hstep.ptr_new g hmem
      have hold := ih.data_old _ (treeShape_pos.2 hg.pos.1) hdata
        (by rw [hgu]; exact hstep.block_ne_zero hmem)
      rw [hgu] at hold
      rw [hold, h.blocks_new hR hg]

/-! ### Free blocks -/

/-- The blocks that are not marked. -/
def FsState.freeBlocks (sb : Superblock) (s : FsState) : Finset ℕ :=
  (Finset.range sb.size).filter fun b ↦ s.used sb b = false

theorem mem_freeBlocks {b : ℕ} : b ∈ s.freeBlocks sb ↔ b < sb.size ∧ s.used sb b = false := by
  rw [freeBlocks, Finset.mem_filter, Finset.mem_range]

theorem card_freeBlocks_markedDisk {n : ℕ}
    (hs : ∀ c, mkfsSuperblock.bmapstart ≤ c → s.blocks c = markedDisk n c) (hn : n ≤ BPB) :
    (s.freeBlocks mkfsSuperblock).card = FSSIZE - n := by
  have hsub : n ≤ FSSIZE := hn.trans (by decide)
  have heq : s.freeBlocks mkfsSuperblock = Finset.range FSSIZE \ Finset.range n := by
    ext b
    rw [mem_freeBlocks, ← Bool.not_eq_true, used_markedDisk hs hn, Finset.mem_sdiff,
      Finset.mem_range, Finset.mem_range]
    rfl
  rw [heq, Finset.card_sdiff_of_subset (Finset.range_subset_range.2 hsub), Finset.card_range,
    Finset.card_range]

/-- Each new block takes one of the free ones. -/
theorem Extended.card_freeBlocks {R' : ι → ℕ → ℕ} (h : Extended sb R i s l R' t) :
    (t.freeBlocks sb).card + l.length = (s.freeBlocks sb).card := by
  have hnew : (l.map Growth.block).toFinset ⊆ s.freeBlocks sb := by
    intro b hb
    obtain ⟨g, hg, rfl⟩ := List.mem_map.1 (List.mem_toFinset.1 hb)
    exact mem_freeBlocks.2 (h.fresh g hg).2
  have hrest : t.freeBlocks sb = s.freeBlocks sb \ (l.map Growth.block).toFinset := by
    ext b
    rw [Finset.mem_sdiff, mem_freeBlocks, mem_freeBlocks, List.mem_toFinset,
      List.mem_map]
    constructor
    · rintro ⟨hb, hfree⟩
      have hno : ¬((∃ g ∈ l, b = g.block) ∨ s.used sb b = true) := by
        rw [← h.used b hb, hfree]
        exact Bool.false_ne_true
      rw [not_or, Bool.not_eq_true] at hno
      exact ⟨⟨hb, hno.2⟩, fun ⟨g, hg, hgb⟩ ↦ hno.1 ⟨g, hg, hgb.symm⟩⟩
    · rintro ⟨⟨hb, hfree⟩, hno⟩
      refine ⟨hb, Bool.eq_false_iff.2 fun hused ↦ ?_⟩
      rcases (h.used b hb).1 hused with ⟨g, hg, hgb⟩ | hused
      · exact hno ⟨g, hg, hgb.symm⟩
      · rw [hfree] at hused
        exact Bool.false_ne_true hused
  have hcard := Finset.card_sdiff_add_card_eq_card hnew
  rwa [← hrest, List.toFinset_card_of_nodup h.nodup, List.length_map] at hcard

/-- A position of `*ip` where no block is put is as before. -/
theorem Owned.ptr_grows [DecidableEq ι] (h : Owned sb R s) (hR : R i = s.addrs ip)
    (hl : Grows sb ip s l t) {q : ℕ × List ℕ} (hq : blockShape.Pos q)
    (hne : q ∉ l.map Growth.pos) : t.ptr ip q = s.ptr ip q := by
  have hold := (h.grows hR hl).ptr_old ((i, q.1), q.2) (treeShape_pos.2 hq) fun g hg heq ↦ by
    refine hne (List.mem_map.2 ⟨g, hg, ?_⟩)
    simp only [Prod.mk.injEq, true_and] at heq
    exact Prod.ext heq.1.symm heq.2.symm
  rwa [forest_ptr hR, forest_ptr (update_self ..)] at hold

/-- The block that is put into a tree is found there. -/
theorem Owned.ptr_grow_self [DecidableEq ι] (h : Owned sb R s) (hR : R i = s.addrs ip)
    (hg : Grow sb ip s g t) : g.block = t.ptr ip g.pos ∧ g.block ≠ 0 := by
  have hptr := (h.grow hR hg).2.2 ((i, g.pos.1), g.pos.2) (treeShape_pos.2 hg.pos.1)
  rw [if_pos rfl, forest_ptr (update_self ..)] at hptr
  have h1 := h.dataStart_le hg.leastFree
  have h2 : 0 < sb.dataStart := Nat.succ_pos _
  exact ⟨hptr.symm, by omega⟩

end Forest

/-! ### The steps of `bmap` -/

/-- Blocks are put at those of the positions `qs` where there is none, and `a` is then the block at
the position `q`. Only within an operation can blocks be put anywhere. -/
def Reaches (sb : Superblock) (ip : ℕ) (s : FsState) (qs : List (ℕ × List ℕ)) (q : ℕ × List ℕ)
    (a : ℕ) (t : FsState) : Prop :=
  ∃ l, Grows sb ip s l t ∧ l.map Growth.pos = s.missing ip qs ∧ a = t.ptr ip q ∧ a ≠ 0 ∧
    (l ≠ [] → 1 ≤ s.log.outstanding)

theorem word_eq_zero_iff {w : Word} : w = 0 ↔ w.toNat = 0 := by
  rw [BitVec.toNat_eq]
  rfl

theorem missing_singleton_of_ne (h : s.ptr ip q ≠ 0) : s.missing ip [q] = [] := by
  simp [missing, h]

theorem missing_singleton_of_eq (h : s.ptr ip q = 0) : s.missing ip [q] = [q] := by
  simp [missing, h]

/-- Failing to put the first free block at one position. -/
theorem GrowsFail.of_balloc {e : Stop} (hq : s.ptr ip q = 0)
    (hgrow : ∀ b, s.LeastFree sb b → ∃ g t, Grow sb ip s g t ∧ g.pos = q ∧ {sb.BBLOCK b, b} ⊆ g.logged)
    (h : Fs.BallocFails sb s e) : GrowsFail sb ip s (s.missing ip [q]) e := by
  rw [missing_singleton_of_eq hq]
  rcases h with ⟨b, hb, hfails⟩ | ⟨he, hall⟩
  · obtain ⟨g, t, hg, rfl, hsub⟩ := hgrow b hb
    refine .inl ⟨[g], t, .cons hg .nil, List.prefix_rfl, hfails.mono ?_⟩
    rw [footprint, footprint, Finset.union_empty]
    exact hsub
  · exact .inr ⟨[], s, .nil, List.nil_prefix, Nat.one_pos, he, hall⟩

theorem Reaches.of_grow {a : ℕ} (hg : Grow sb ip s g t) (ha : a = t.ptr ip g.pos) (hne : a ≠ 0)
    (hout : 1 ≤ s.log.outstanding) : Reaches sb ip s [g.pos] g.pos a t :=
  ⟨[g], .cons hg .nil, (missing_singleton_of_eq hg.pos.2).symm, ha, hne, fun _ ↦ hout⟩

theorem Reaches.of_ne (h : s.ptr ip q ≠ 0) : Reaches sb ip s [q] q (s.ptr ip q) s :=
  ⟨[], .nil, (missing_singleton_of_ne h).symm, rfl, h, fun hnil ↦ absurd rfl hnil⟩

namespace Fs

variable {env : Env} {ι : Type} [DecidableEq ι] {R : ι → ℕ → ℕ} {i : ι}

theorem rootPtr_sat (h : Owned env.sb R s) (hR : R i = s.addrs ip) (hnodup : s.log.lh.Nodup)
    {k : ℕ} (hk : k < NADDRS) : (rootPtr env ip k).Sat s (Reaches env.sb ip s [(k, [])] (k, []))
      (GrowsFail env.sb ip s (s.missing ip [(k, [])])) := by
  rw [rootPtr, Prog.sat_bind, sat_inode]
  split
  next hnull =>
    have hnull : s.ptr ip (k, []) = 0 := word_eq_zero_iff.1 hnull
    have hgrow (b : ℕ) (hb : s.LeastFree env.sb b) :
        Grow env.sb ip s ⟨(k, []), b, {env.sb.BBLOCK b, b}⟩ _ := .root hk hnull hb
    refine Prog.Sat.bind ((balloc_sat hnodup).mono (fun b t h ↦ h) fun e he ↦
      .of_balloc hnull (fun b hb ↦ ⟨_, _, hgrow b hb, rfl, subset_rfl⟩) he) ?_
    rintro b t ⟨hb, hout, rfl⟩
    obtain ⟨hptr, hne⟩ := h.ptr_grow_self hR (hgrow b hb)
    exact .of_grow (hgrow b hb) hptr hne hout
  next hne =>
    have hne : s.ptr ip (k, []) ≠ 0 := fun h ↦ hne (word_eq_zero_iff.2 h)
    exact .of_ne hne

theorem entryPtr_sat (h : Owned env.sb R s) (hR : R i = s.addrs ip) (hnodup : s.log.lh.Nodup)
    {k j : ℕ} {path : List ℕ} (hpos : blockShape.Pos (k, path ++ [j]))
    (hparent : s.ptr ip (k, path) ≠ 0) : (entryPtr env (s.ptr ip (k, path)) j j).Sat s
      (Reaches env.sb ip s [(k, path ++ [j])] (k, path ++ [j]))
      (GrowsFail env.sb ip s (s.missing ip [(k, path ++ [j])])) := by
  have hj : j < NINDIRECT := hpos.lt_arity j (by simp)
  have hlt : s.ptr ip (k, path) < FSSIZE := by
    have hrange := h.range ((i, k), path) (treeShape_pos.2 hpos.of_append)
    rw [forest_ptr hR] at hrange
    exact (hrange hparent).2.trans_le env.sb.size_le
  have hentry : entry env s (s.ptr ip (k, path)) j = (s.blocks (s.ptr ip (k, path))).word j :=
    if_pos hj
  have hptr : s.ptr ip (k, path ++ [j]) = s.heap (s.ptr ip (k, path)) j :=
    follow_concat s.heap hparent j
  rw [entryPtr, Prog.sat_bind, sat_bread hlt, Prog.sat_get_bind, hentry]
  split
  next hnull =>
    have hnull : s.heap (s.ptr ip (k, path)) j = 0 := word_eq_zero_iff.1 hnull
    have hgrow (b : ℕ) (hb : s.LeastFree env.sb b) := Grow.entry hpos hparent hnull hb
    refine Prog.Sat.bind ((balloc_sat hnodup).mono (fun b t h ↦ h) fun e he ↦
      .of_balloc (hptr.trans hnull)
        (fun b hb ↦ ⟨_, _, hgrow b hb, rfl, Finset.subset_union_left⟩) he) ?_
    rintro b t ⟨hb, hout, rfl⟩
    rw [Prog.sat_get_bind]
    have hlogged := Logged.allocate env.sb s b
    refine Prog.Sat.bind ((logWrite_sat (hlogged.nodup hnodup) _ _).mono (fun _ t h ↦ h)
      fun e he ↦ ?_) ?_
    · refine .inl ⟨_, _, .cons (hgrow b hb) .nil, ?_, ?_⟩
      · rw [missing_singleton_of_eq (hptr.trans hnull)]
        exact List.prefix_rfl
      · rw [footprint, footprint, Finset.union_empty]
        exact hlogged.fails he
    · rintro - t ⟨-, rfl⟩
      obtain ⟨hptr, hne⟩ := h.ptr_grow_self hR (hgrow b hb)
      exact .of_grow (hgrow b hb) hptr hne hout
  next hne =>
    have hne : s.ptr ip (k, path ++ [j]) ≠ 0 := by
      rw [hptr]
      exact fun h ↦ hne (word_eq_zero_iff.2 h)
    have hreach : Reaches env.sb ip s [(k, path ++ [j])] (k, path ++ [j]) _ s := .of_ne hne
    rw [hptr] at hreach
    exact hreach

end Fs

/-! ### Composing the steps -/

section Compose

variable {ι : Type} [DecidableEq ι] {R : ι → ℕ → ℕ} {i : ι}

theorem Grows.append {l' : List Growth} (h : Grows sb ip s l u) (h' : Grows sb ip u l' t) :
    Grows sb ip s (l ++ l') t := by
  induction h with
  | nil => exact h'
  | cons hg _ ih => exact .cons hg (ih h')

theorem footprint_append (l l' : List Growth) : footprint (l ++ l') = footprint l ∪ footprint l' := by
  induction l with
  | nil => rw [List.nil_append, footprint, Finset.empty_union]
  | cons g l ih => rw [List.cons_append, footprint, ih, footprint, Finset.union_assoc]

variable {qs qs' : List (ℕ × List ℕ)} {e : Stop}

/-- Growing at some positions leaves the others missing or present. -/
theorem Owned.missing_grows (h : Owned sb R s) (hR : R i = s.addrs ip) (hl : Grows sb ip s l t)
    (hqs : ∀ q ∈ qs, blockShape.Pos q ∧ q ∉ l.map Growth.pos) : t.missing ip qs = s.missing ip qs :=
  List.filter_congr fun q hq ↦ by rw [h.ptr_grows hR hl (hqs q hq).1 (hqs q hq).2]

theorem missing_append (s : FsState) (ip : ℕ) (qs qs' : List (ℕ × List ℕ)) :
    s.missing ip (qs ++ qs') = s.missing ip qs ++ s.missing ip qs' :=
  List.filter_append ..

/-- Reaching some positions and then others. -/
theorem Owned.reaches_trans (h : Owned sb R s) (hR : R i = s.addrs ip) {q q' : ℕ × List ℕ} {a b : ℕ}
    (hu : Reaches sb ip s qs q a u) (hqs : ∀ x ∈ qs', blockShape.Pos x ∧ x ∉ qs)
    (ht : Reaches sb ip u qs' q' b t) : Reaches sb ip s (qs ++ qs') q' b t := by
  obtain ⟨l, hl, hmiss, -, -, hop⟩ := hu
  obtain ⟨l', hl', hmiss', hb, hne, hop'⟩ := ht
  refine ⟨l ++ l', hl.append hl', ?_, hb, hne, fun hsome ↦ ?_⟩
  case refine_2 =>
    rw [← hl.logged.outstanding] at hop ⊢
    by_cases hnil : l = []
    · exact hop' fun hnil' ↦ hsome (by rw [hnil, hnil', List.append_nil])
    · exact hop hnil
  rw [List.map_append, hmiss, hmiss', missing_append, h.missing_grows hR hl]
  intro x hx
  rw [hmiss]
  exact ⟨(hqs x hx).1, fun hmem ↦ (hqs x hx).2 (List.mem_of_mem_filter hmem)⟩

/-- Failing after some positions have been reached. -/
theorem Owned.growsFail_trans (h : Owned sb R s) (hR : R i = s.addrs ip) {q : ℕ × List ℕ} {a : ℕ}
    (hu : Reaches sb ip s qs q a u) (hqs : ∀ x ∈ qs', blockShape.Pos x ∧ x ∉ qs)
    (he : GrowsFail sb ip u (u.missing ip qs') e) : GrowsFail sb ip s (s.missing ip (qs ++ qs')) e := by
  obtain ⟨l, hl, hmiss, -⟩ := hu
  have hsame : u.missing ip qs' = s.missing ip qs' := by
    refine h.missing_grows hR hl fun x hx ↦ ?_
    rw [hmiss]
    exact ⟨(hqs x hx).1, fun hmem ↦ (hqs x hx).2 (List.mem_of_mem_filter hmem)⟩
  rw [missing_append, ← hsame, ← hmiss]
  rcases he with ⟨l', t, hl', hpre, hfails⟩ | ⟨l', t, hl', hpre, hlen, he, hall⟩
  · refine .inl ⟨l ++ l', t, hl.append hl', ?_, ?_⟩
    · rw [List.map_append]
      exact (List.prefix_append_right_inj _).2 hpre
    · rw [footprint_append]
      exact hl.logged.fails hfails
  · refine .inr ⟨l ++ l', t, hl.append hl', ?_, ?_, he, hall⟩
    · rw [List.map_append]
      exact (List.prefix_append_right_inj _).2 hpre
    · rw [List.length_append, List.length_append, List.length_map]
      omega

/-- Failing before all positions have been reached. -/
theorem GrowsFail.append (h : GrowsFail sb ip s (s.missing ip qs) e) :
    GrowsFail sb ip s (s.missing ip (qs ++ qs')) e := by
  rw [missing_append]
  rcases h with ⟨l, t, hl, hpre, hfails⟩ | ⟨l, t, hl, hpre, hlen, he, hall⟩
  · exact .inl ⟨l, t, hl, hpre.trans (List.prefix_append ..), hfails⟩
  · refine .inr ⟨l, t, hl, hpre.trans (List.prefix_append ..), ?_, he, hall⟩
    rw [List.length_append]
    omega

/-- Some positions are reached, and then others. -/
theorem Owned.sat_walk (h : Owned sb R s) (hR : R i = s.addrs ip) {q q' : ℕ × List ℕ}
    {f : FS ℕ} {rest : ℕ → FS ℕ} (hqs : ∀ x ∈ qs', blockShape.Pos x ∧ x ∉ qs)
    (hf : f.Sat s (Reaches sb ip s qs q) (GrowsFail sb ip s (s.missing ip qs)))
    (hrest : ∀ l u, Grows sb ip s l u → u.ptr ip q ≠ 0 →
      (rest (u.ptr ip q)).Sat u (Reaches sb ip u qs' q') (GrowsFail sb ip u (u.missing ip qs'))) :
    (f >>= rest).Sat s (Reaches sb ip s (qs ++ qs') q') (GrowsFail sb ip s (s.missing ip (qs ++ qs'))) := by
  refine Prog.Sat.bind (hf.mono (fun a u hu ↦ hu) fun e he ↦ he.append) ?_
  intro a u hu
  obtain ⟨l, hl, -, rfl, ha, -⟩ := id hu
  exact (hrest l u hl ha).mono (fun b t ht ↦ h.reaches_trans hR hu hqs ht)
    fun e he ↦ h.growsFail_trans hR hu hqs he

/-- With enough free blocks only the log can be in the way. -/
theorem Owned.growsFail_log (h : Owned sb R s) (hR : R i = s.addrs ip) (he : GrowsFail sb ip s qs e)
    (hfree : qs.length ≤ (s.freeBlocks sb).card) :
    ∃ l t, Grows sb ip s l t ∧ l.map Growth.pos <+: qs ∧ s.log.Fails (footprint l) e := by
  rcases he with he | ⟨l, t, hl, -, hlen, -, hall⟩
  · exact he
  · have hcard := (h.grows hR hl).card_freeBlocks
    have hnone : t.freeBlocks sb = ∅ := by
      refine Finset.eq_empty_of_forall_notMem fun b hb ↦ ?_
      obtain ⟨hb, hfree⟩ := mem_freeBlocks.1 hb
      rw [hall b hb] at hfree
      cases hfree
    rw [hnone, Finset.card_empty] at hcard
    omega

end Compose

namespace Fs

variable {env : Env} {ι : Type} [DecidableEq ι] {R : ι → ℕ → ℕ} {i : ι}

/-- One step, and then the rest of the walk. -/
theorem walkFrom_sat (h : Owned env.sb R s) (hR : R i = s.addrs ip) (hnodup : s.log.lh.Nodup)
    {k : ℕ} (pre : List ℕ) {path : List ℕ} (hpos : blockShape.Pos (k, pre ++ path))
    (hne : s.ptr ip (k, pre) ≠ 0) : (walkFrom env (s.ptr ip (k, pre)) path).Sat s
      (Reaches env.sb ip s (chainFrom k pre path) (k, pre ++ path))
      (GrowsFail env.sb ip s (s.missing ip (chainFrom k pre path))) := by
  induction path generalizing s R pre with
  | nil =>
    rw [List.append_nil]
    exact ⟨[], .nil, rfl, rfl, hne, fun hnil ↦ absurd rfl hnil⟩
  | cons j path ih =>
    have hassoc : pre ++ j :: path = pre ++ [j] ++ path := by simp
    rw [hassoc] at hpos ⊢
    rw [walkFrom, chainFrom, ← List.singleton_append]
    refine h.sat_walk hR (fun x ↦ pos_of_mem_chainFrom hpos) (entryPtr_sat h hR hnodup hpos.of_append hne) ?_
    intro l u hl ha
    exact ih (h.grows hR hl).owned (update_self ..) (hl.logged.nodup hnodup) _ hpos ha

theorem walk_sat (h : Owned env.sb R s) (hR : R i = s.addrs ip) (hnodup : s.log.lh.Nodup)
    {pos : ℕ × List ℕ} (hpos : blockShape.Pos pos) (hk : pos.1 < NADDRS) :
    (walk env ip pos).Sat s (Reaches env.sb ip s (chain pos) pos)
      (GrowsFail env.sb ip s (s.missing ip (chain pos))) := by
  rw [walk, chain, ← List.singleton_append]
  refine h.sat_walk hR (fun x ↦ pos_of_mem_chainFrom hpos) (rootPtr_sat h hR hnodup hk) ?_
  intro l u hl ha
  exact walkFrom_sat (h.grows hR hl).owned (update_self ..) (hl.logged.nodup hnodup) [] hpos ha

theorem pos_locate {bn : ℕ} (hbn : bn < SAFEBLOCKS) : blockShape.Pos (locate bn) where
  length_le := (level_locate bn).le
  lt_arity := locate_snd_lt hbn

/-- `bmap` puts a block at each position on the way to the data block where there is none, and
returns the data block. -/
theorem bmap_sat (h : Owned env.sb R s) (hR : R i = s.addrs ip) (hnodup : s.log.lh.Nodup) {bn : ℕ}
    (hbn : bn < SAFEBLOCKS) :
    (bmap env ip bn).Sat s (Reaches env.sb ip s (chain (locate bn)) (locate bn))
      (GrowsFail env.sb ip s (s.missing ip (chain (locate bn)))) := by
  rw [bmap_eq_walk env hbn]
  exact walk_sat h hR hnodup (pos_locate hbn) (locate_fst_lt bn)

end Fs

end Xv6
