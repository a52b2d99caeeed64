import Xv6.Fs.Walk

/-!
# What `itrunc` does

`itrunc` frees the blocks of an inode in nested loops, one nest for each depth. Each nest lists a
tree in post-order, so that the whole is: release the nodes of thirteen trees, one after another
(`itrunc_sat`). None of them is met twice, because no block is at two positions, and so `bfree` never
finds a block that is already free. All that is logged is the free map and the inode.
-/

namespace Xv6

open PointerTree Function FsState

namespace Dinode

/-- The inode with the first `n` entries of `addrs` set to zero. -/
def clear (d : Dinode) (n : ℕ) : Dinode :=
  { d with addrs := fun k ↦ if (k : ℕ) < n then 0 else d.addrs k }

theorem addr_clear {d : Dinode} {n k : ℕ} (h : n ≤ k) : (d.clear n).addr k = d.addr k := by
  unfold addr clear
  split
  · exact if_neg (by simpa using h)
  · rfl

theorem setAddr_clear (d : Dinode) (n : ℕ) : (d.clear n).setAddr n 0 = d.clear (n + 1) := by
  unfold setAddr clear
  congr 1
  funext k
  by_cases hk : (k : ℕ) = n
  · rw [if_pos hk, if_pos (by omega)]
  · rw [if_neg hk]
    exact if_congr (by omega) rfl rfl

theorem clear_succ {d : Dinode} {n : ℕ} (h : d.addr n = 0) : d.clear (n + 1) = d.clear n := by
  unfold clear
  congr 1
  funext k
  by_cases hk : (k : ℕ) = n
  · rw [if_pos (by omega), if_neg (by omega)]
    rw [addr, dif_pos (hk ▸ k.isLt)] at h
    rw [← h]
    congr 1
    exact Fin.ext hk.symm
  · exact if_congr (by omega) rfl rfl

theorem clear_all (d : Dinode) : d.clear NADDRS = { d with addrs := fun _ ↦ 0 } := by
  unfold clear
  congr 1
  funext k
  exact if_pos k.isLt

end Dinode

namespace FsState

/-- Mark several blocks as free. -/
def releaseAll (sb : Superblock) (s : FsState) (l : List ℕ) : FsState :=
  l.foldl (release sb) s

/-- The blocks of the tree below entry `k` of `addrs`. -/
def addrNodes (s : FsState) (ip k : ℕ) : List ℕ :=
  nodes s.heap NINDIRECT (level k) (s.addrs ip k)

/-- The blocks of the trees below the first `n` entries of `addrs`. -/
def treeNodes (s : FsState) (ip n : ℕ) : List ℕ :=
  (List.range n).flatMap (s.addrNodes ip)

/-- The effect of `iupdate`. -/
def putInode (sb : Superblock) (s : FsState) (ip : ℕ) : FsState :=
  s.store (sb.IBLOCK (s.icache ip).inum) ((s.blocks (sb.IBLOCK (s.icache ip).inum)).setDinode
    ((s.icache ip).inum % IPB) (s.icache ip).toDinode)

/-- The state once the first `n` entries of `addrs` have been dealt with. -/
def truncated (sb : Superblock) (s : FsState) (ip n : ℕ) : FsState :=
  (s.releaseAll sb (s.treeNodes ip n)).setInode ip
    { s.icache ip with toDinode := (s.icache ip).toDinode.clear n }

/-- The effect of `itrunc`. -/
def trunc (sb : Superblock) (s : FsState) (ip : ℕ) : FsState :=
  putInode sb ((s.releaseAll sb (s.treeNodes ip NADDRS)).setInode ip
    { s.icache ip with size := 0, addrs := fun _ ↦ 0 }) ip

variable {sb : Superblock} {s : FsState} {l : List ℕ}

theorem releaseAll_append (s : FsState) (l l' : List ℕ) :
    s.releaseAll sb (l ++ l') = (s.releaseAll sb l).releaseAll sb l' :=
  List.foldl_append ..

theorem releaseAll_memory (s : FsState) (l : List ℕ) :
    (s.releaseAll sb l).icache = s.icache ∧ (s.releaseAll sb l).ftable = s.ftable := by
  induction l generalizing s with
  | nil => exact ⟨rfl, rfl⟩
  | cons b l ih => exact ih (s.release sb b)

/-- Releasing blocks does not look at the inodes in memory. -/
theorem releaseAll_setInode (s : FsState) (ip : ℕ) (i : Inode) (l : List ℕ) :
    (s.setInode ip i).releaseAll sb l = (s.releaseAll sb l).setInode ip i := by
  induction l generalizing s with
  | nil => rfl
  | cons b l ih => exact ih (s.release sb b)

theorem treeNodes_succ (s : FsState) (ip n : ℕ) :
    s.treeNodes ip (n + 1) = s.treeNodes ip n ++ s.addrNodes ip n := by
  rw [treeNodes, treeNodes, List.range_succ, List.flatMap_append, List.flatMap_singleton]

theorem treeNodes_prefix (s : FsState) (ip : ℕ) {m n : ℕ} (h : n ≤ m) :
    s.treeNodes ip n <+: s.treeNodes ip m := by
  induction m, h using Nat.le_induction with
  | base => exact List.prefix_rfl
  | succ m _ ih =>
    rw [treeNodes_succ]
    exact ih.trans (List.prefix_append ..)

theorem truncated_zero (s : FsState) (ip : ℕ) : s.truncated sb ip 0 = s :=
  setInode_eq_self s ip

/-- Releasing blocks changes the free map only. -/
theorem blocks_releaseAll (hl : ∀ b ∈ l, b < sb.size) {c : ℕ}
    (hc : c < sb.bmapstart ∨ sb.dataStart ≤ c) : (s.releaseAll sb l).blocks c = s.blocks c := by
  induction l generalizing s with
  | nil => rfl
  | cons b l ih =>
    rw [List.forall_mem_cons] at hl
    have hne : c ≠ sb.BBLOCK b := by
      have h1 := sb.BBLOCK_lt_dataStart hl.1
      have h2 : sb.bmapstart ≤ sb.BBLOCK b := Nat.le_add_left _ _
      omega
    show ((s.release sb b).releaseAll sb l).blocks c = _
    rw [ih hl.2, release, blocks_store, if_neg hne]

theorem used_releaseAll (s : FsState) (l : List ℕ) (c : ℕ) :
    (s.releaseAll sb l).used sb c = true ↔ c ∉ l ∧ s.used sb c = true := by
  induction l generalizing s with
  | nil => simp [releaseAll]
  | cons b l ih =>
    show ((s.release sb b).releaseAll sb l).used sb c = true ↔ _
    rw [ih, used_release, Bool.and_eq_true, Bool.not_eq_true', decide_eq_false_iff_not,
      List.mem_cons, not_or, and_left_comm, and_assoc]

end FsState

theorem Logged.releaseAll (sb : Superblock) (s : FsState) (l : List ℕ) :
    Logged s (l.toFinset.image sb.BBLOCK) (s.releaseAll sb l) := by
  induction l generalizing s with
  | nil => exact .of_eq rfl rfl
  | cons b l ih =>
    rw [List.toFinset_cons, Finset.image_insert, Finset.insert_eq]
    exact (Logged.store s _ _).trans (ih (s.release sb b))

/-- Blocks that can be released one after another. -/
structure Freeable (sb : Superblock) (s : FsState) (l : List ℕ) : Prop where
  nodup : l.Nodup
  range : ∀ b ∈ l, sb.dataStart ≤ b ∧ b < sb.size
  used : ∀ b ∈ l, s.used sb b = true

theorem Freeable.left {sb : Superblock} {s : FsState} {l l' : List ℕ}
    (h : Freeable sb s (l ++ l')) : Freeable sb s l where
  nodup := h.nodup.of_append_left
  range := fun b hb ↦ h.range b (List.mem_append_left l' hb)
  used := fun b hb ↦ h.used b (List.mem_append_left l' hb)

/-- The rest can be released after a part has been. -/
theorem Freeable.right {sb : Superblock} {s : FsState} {l l' : List ℕ}
    (h : Freeable sb s (l ++ l')) : Freeable sb (s.releaseAll sb l) l' where
  nodup := h.nodup.of_append_right
  range := fun b hb ↦ h.range b (List.mem_append_right l hb)
  used := fun b hb ↦ by
    rw [used_releaseAll]
    exact ⟨fun hbl ↦ List.disjoint_of_nodup_append h.nodup hbl hb,
      h.used b (List.mem_append_right l hb)⟩

namespace Fs

variable {env : Env} {s : FsState}

/-- How releasing the blocks `l` can fail. -/
def ReleaseFails (sb : Superblock) (s : FsState) (l : List ℕ) (e : Stop) : Prop :=
  s.log.Fails (l.toFinset.image sb.BBLOCK) e

theorem ReleaseFails.left {sb : Superblock} {l l' : List ℕ} {e : Stop}
    (h : ReleaseFails sb s l e) : ReleaseFails sb s (l ++ l') e := by
  refine h.mono (Finset.image_subset_image fun x hx ↦ ?_)
  rw [List.mem_toFinset] at hx ⊢
  exact List.mem_append_left l' hx

theorem ReleaseFails.right {sb : Superblock} {l l' : List ℕ} {e : Stop}
    (h : ReleaseFails sb (s.releaseAll sb l) l' e) : ReleaseFails sb s (l ++ l') e := by
  have hfails := (Logged.releaseAll sb s l).fails h
  rwa [← Finset.image_union, ← List.toFinset_append] at hfails

theorem bfree_releases (hnodup : s.log.lh.Nodup) {b : ℕ} (h : Freeable env.sb s [b]) :
    (bfree env b).Sat s (fun _ t ↦ t = s.releaseAll env.sb [b]) (ReleaseFails env.sb s [b]) := by
  refine (bfree_sat hnodup (h.range b (by simp)).2).mono (fun _ t ht ↦ ht.2) fun e he ↦ ?_
  rcases he with he | ⟨-, hfree⟩
  · refine he.mono ?_
    rw [List.toFinset_cons, List.toFinset_nil, Finset.image_insert, Finset.image_empty]
    rfl
  · rw [h.used b (by simp)] at hfree
    cases hfree

/-- Freeing one node of a tree and what lies below it. -/
theorem freeNode_sat (free : ℕ → FS Unit) {h : ℕ → ℕ → ℕ} {depth a : ℕ} (hnodup : s.log.lh.Nodup)
    (ha : a ≠ 0) (hfree : Freeable env.sb s (nodes h NINDIRECT depth a))
    (hbelow : Freeable env.sb s (below h NINDIRECT depth a) →
      (free a).Sat s (fun _ t ↦ t = s.releaseAll env.sb (below h NINDIRECT depth a))
        (ReleaseFails env.sb s (below h NINDIRECT depth a))) : (free a >>= fun _ ↦ bfree env a).Sat s
      (fun _ t ↦ t = s.releaseAll env.sb (nodes h NINDIRECT depth a))
      (ReleaseFails env.sb s (nodes h NINDIRECT depth a)) := by
  rw [nodes_eq_below, if_neg ha] at hfree ⊢
  refine Prog.Sat.bind ((hbelow hfree.left).mono (fun _ t ht ↦ ht) fun e he ↦ he.left) ?_
  rintro - t rfl
  refine (bfree_releases ((Logged.releaseAll env.sb s _).nodup hnodup) hfree.right).mono
    (fun _ t ht ↦ ?_) fun e he ↦ he.right
  rw [ht, releaseAll_append]

/-- The nested loops of `itrunc` release the blocks of a tree, children first. The heap is that of
the state in which `itrunc` starts. -/
theorem freeBelow_sat {h : ℕ → ℕ → ℕ} (depth addr : ℕ) (hnodup : s.log.lh.Nodup)
    (haddr : env.sb.dataStart ≤ addr ∧ addr < env.sb.size)
    (hheap : ∀ c, env.sb.dataStart ≤ c → s.heap c = h c)
    (hfree : Freeable env.sb s (below h NINDIRECT depth addr)) : (freeBelow env depth addr).Sat s
      (fun _ t ↦ t = s.releaseAll env.sb (below h NINDIRECT depth addr))
      (ReleaseFails env.sb s (below h NINDIRECT depth addr)) := by
  induction depth generalizing s addr with
  | zero => rfl
  | succ depth ih =>
    rw [freeBelow, Prog.sat_bind, sat_bread (haddr.2.trans_le env.sb.size_le)]
    unfold freeEntries
    rw [below] at hfree ⊢
    -- the entries `done` have been dealt with, the entries `js` are still to come
    refine (Prog.Sat.forEach (P := fun js u ↦ ∃ done, List.range NINDIRECT = done ++ js ∧
      u = s.releaseAll env.sb (done.flatMap fun j ↦ nodes h NINDIRECT depth (h addr j)))
      ⟨[], rfl, rfl⟩ ?_).imp ?_
    · rintro j js u ⟨done, hdone, rfl⟩
      rw [hdone, List.flatMap_append, List.flatMap_cons] at hfree ⊢
      have hcur := hfree.right.left
      have hword : ((s.blocks addr).word j).toNat = h addr j := by
        rw [← hheap addr haddr.1]
        rfl
      have hstep (u : FsState) (hu : u = (s.releaseAll env.sb (done.flatMap fun j ↦
          nodes h NINDIRECT depth (h addr j))).releaseAll env.sb
            (nodes h NINDIRECT depth (h addr j))) :
          ∃ done', done ++ j :: js = done' ++ js ∧
            u = s.releaseAll env.sb (done'.flatMap fun j ↦ nodes h NINDIRECT depth (h addr j)) := by
        refine ⟨done ++ [j], by rw [List.append_assoc, List.singleton_append], ?_⟩
        rw [hu, List.flatMap_append, List.flatMap_singleton, releaseAll_append]
      split
      next hnull =>
        refine hstep _ ?_
        rw [← hword, word_eq_zero_iff.1 hnull, nodes_eq_below, if_pos rfl]
        rfl
      next hne =>
        have hne : h addr j ≠ 0 := fun h0 ↦ hne (word_eq_zero_iff.2 (hword.trans h0))
        rw [hword]
        have hmem : h addr j ∈ nodes h NINDIRECT depth (h addr j) := by
          rw [nodes_eq_below, if_neg hne]
          exact List.mem_append_right _ (List.mem_singleton_self _)
        have hnodup' := (Logged.releaseAll env.sb s
          (done.flatMap fun j ↦ nodes h NINDIRECT depth (h addr j))).nodup hnodup
        refine (freeNode_sat _ hnodup' hne hcur fun hbelow ↦ ih _ hnodup' (hcur.range _ hmem)
          (fun c hc ↦ ?_) hbelow).mono (fun _ u hu ↦ hstep u hu)
          fun e he ↦ ReleaseFails.right (ReleaseFails.left he)
        funext l
        rw [heap, blocks_releaseAll (fun b hb ↦ (hfree.range b
          (List.mem_append_left _ hb)).2) (.inr hc), ← hheap c hc]
        rfl
    · rintro - t ⟨done, hdone, rfl⟩
      rw [List.append_nil] at hdone
      rw [hdone]

variable {ip : ℕ}

/-- The part of `itrunc` for one entry of `addrs`. -/
theorem truncAddr_sat {n : ℕ} (hnodup : s.log.lh.Nodup) (hfree : Freeable env.sb s (s.treeNodes ip (n + 1))) :
    (truncAddr env ip n (level n)).Sat (s.truncated env.sb ip n)
      (fun _ t ↦ t = s.truncated env.sb ip (n + 1))
      (ReleaseFails env.sb s (s.treeNodes ip (n + 1))) := by
  have hnext : s.truncated env.sb ip (n + 1) =
      ((s.releaseAll env.sb (s.treeNodes ip n)).releaseAll env.sb (s.addrNodes ip n)).setInode ip
        { s.icache ip with toDinode := (s.icache ip).toDinode.clear (n + 1) } := by
    rw [truncated, treeNodes_succ, releaseAll_append]
  rw [treeNodes_succ] at hfree ⊢
  have haddr : ((s.truncated env.sb ip n).icache ip).addr n = (s.icache ip).addr n := by
    rw [truncated, icache_setInode_self]
    exact Dinode.addr_clear (le_refl n)
  rw [truncAddr, Prog.sat_bind, sat_inode, haddr]
  split
  next hnull =>
    have hnone : s.addrNodes ip n = [] := by
      rw [addrNodes, nodes_eq_below, addrs, word_eq_zero_iff.1 hnull, if_pos rfl]
    rw [hnext, hnone, Dinode.clear_succ hnull]
    rfl
  next hne =>
    have hne : s.addrs ip n ≠ 0 := fun h0 ↦ hne (word_eq_zero_iff.2 h0)
    have hnodup' : (s.truncated env.sb ip n).log.lh.Nodup :=
      (Logged.releaseAll env.sb s (s.treeNodes ip n)).nodup hnodup
    have hfree' : Freeable env.sb (s.truncated env.sb ip n) (s.addrNodes ip n) :=
      ⟨hfree.right.nodup, hfree.right.range, hfree.right.used⟩
    have hmem : s.addrs ip n ∈ s.addrNodes ip n := by
      rw [addrNodes, nodes_eq_below, if_neg hne]
      exact List.mem_append_right _ (List.mem_singleton_self _)
    have hheap : ∀ c, env.sb.dataStart ≤ c → (s.truncated env.sb ip n).heap c = s.heap c := by
      intro c hc
      funext l
      show (((s.releaseAll env.sb (s.treeNodes ip n)).blocks c).word l).toNat = s.heap c l
      rw [blocks_releaseAll (fun b hb ↦ (hfree.left.range b hb).2) (.inr hc)]
      rfl
    have hnode := freeNode_sat (freeBelow env (level n)) hnodup' hne hfree' fun hbelow ↦
      freeBelow_sat (level n) _ hnodup' (hfree'.range _ hmem) hheap hbelow
    refine Prog.sat_bind.2 ((Prog.sat_bind.1 hnode).mono (fun _ t ht ↦ ?_) fun e he ↦
      ReleaseFails.right he)
    refine Prog.Sat.bind (ht.mono (fun _ t ht ↦ ht) fun e he ↦ ReleaseFails.right he) ?_
    rintro - t rfl
    show setInode _ ip (Inode.setAddr _ n 0) = _
    rw [hnext, truncated, releaseAll_setInode, setInode_setInode,
      icache_setInode_self, Inode.setAddr, Dinode.setAddr_clear]
    rfl

theorem iupdate_sat (hnodup : s.log.lh.Nodup) (hinum : env.sb.IBLOCK (s.icache ip).inum < FSSIZE) :
    (iupdate env ip).Sat s (fun _ t ↦ t = s.putInode env.sb ip)
      (s.log.Fails {env.sb.IBLOCK (s.icache ip).inum}) := by
  rw [iupdate, Prog.sat_bind, sat_inode, Prog.sat_bind, sat_bread hinum]
  exact (logWrite_sat hnodup _ _).imp fun _ t ht ↦ ht.2

/-- `itrunc` frees exactly the blocks of the inode. -/
theorem itrunc_sat (hnodup : s.log.lh.Nodup) (hinum : env.sb.IBLOCK (s.icache ip).inum < FSSIZE)
    (hfree : Freeable env.sb s (s.treeNodes ip NADDRS)) :
    (itrunc env ip).Sat s (fun _ t ↦ t = s.trunc env.sb ip)
      (s.log.Fails ((s.treeNodes ip NADDRS).toFinset.image env.sb.BBLOCK ∪
        {env.sb.IBLOCK (s.icache ip).inum})) := by
  have hslot (n : ℕ) (hn : n < NADDRS) : (truncAddr env ip n (level n)).Sat
      (s.truncated env.sb ip n) (fun _ t ↦ t = s.truncated env.sb ip (n + 1))
      (s.log.Fails ((s.treeNodes ip NADDRS).toFinset.image env.sb.BBLOCK ∪
        {env.sb.IBLOCK (s.icache ip).inum})) := by
    obtain ⟨r, hr⟩ := s.treeNodes_prefix ip (Nat.succ_le_of_lt hn)
    rw [← hr] at hfree ⊢
    exact (truncAddr_sat hnodup hfree.left).mono (fun _ t ht ↦ ht) fun e he ↦
      he.left.mono Finset.subset_union_left
  rw [itrunc]
  -- the direct blocks: the entries before `n` have been dealt with
  refine Prog.Sat.bind (Prog.Sat.forEach (P := fun ks u ↦ ∃ n ≤ NDIRECT,
    ks = List.range' n (NDIRECT - n) ∧ u = s.truncated env.sb ip n)
    ⟨0, Nat.zero_le _, List.range_eq_range', (truncated_zero s ip).symm⟩ ?_) ?_
  · rintro k ks u ⟨n, hn, hks, rfl⟩
    obtain ⟨m, hm⟩ : ∃ m, NDIRECT - n = m + 1 := by
      refine Nat.exists_eq_succ_of_ne_zero fun h0 ↦ ?_
      rw [h0] at hks
      cases hks
    rw [hm, List.range'_succ, List.cons.injEq] at hks
    obtain ⟨rfl, rfl⟩ := hks
    have hlevel : level k = 0 := if_pos (by omega)
    have hk := hslot k (by rw [NADDRS]; omega)
    rw [hlevel] at hk
    refine hk.imp fun _ t ht ↦ ⟨k + 1, by omega, ?_, ht⟩
    rw [show NDIRECT - (k + 1) = m by omega]
  · rintro - t ⟨n, hn, hks, rfl⟩
    obtain rfl : n = NDIRECT := by
      by_contra hne
      have hlen := congrArg List.length hks
      rw [List.length_range', List.length_nil] at hlen
      omega
    refine Prog.Sat.bind (hslot NDIRECT (by decide)) ?_
    rintro - t rfl
    refine Prog.Sat.bind (hslot (NDIRECT + 1) (by decide)) ?_
    rintro - t rfl
    refine Prog.Sat.bind (hslot (NDIRECT + 2) (by decide)) ?_
    rintro - t rfl
    have hempty : (s.truncated env.sb ip NADDRS).setInode ip
        { (s.truncated env.sb ip NADDRS).icache ip with size := 0 } =
        (s.releaseAll env.sb (s.treeNodes ip NADDRS)).setInode ip
          { s.icache ip with size := 0, addrs := fun _ ↦ 0 } := by
      rw [truncated, setInode_setInode, icache_setInode_self,
        Dinode.clear_all]
    refine Prog.sat_modify_bind.2 ?_
    show (iupdate env ip).Sat ((s.truncated env.sb ip NADDRS).setInode ip
      { (s.truncated env.sb ip NADDRS).icache ip with size := 0 }) _ _
    rw [hempty]
    have hlogged : Logged s _ ((s.releaseAll env.sb (s.treeNodes ip NADDRS)).setInode ip
        { s.icache ip with size := 0, addrs := fun _ ↦ 0 }) :=
      (Logged.releaseAll env.sb s (s.treeNodes ip NADDRS)).setInode ip _
    refine (iupdate_sat (hlogged.nodup hnodup) ?_).mono (fun _ t ht ↦ ht) fun e he ↦ ?_
    · rwa [icache_setInode_self]
    · rw [icache_setInode_self] at he
      exact hlogged.fails he

end Fs

/-! ### The trees after `itrunc` -/

section Forest

variable {ι : Type} {sb : Superblock} {R : ι → ℕ → ℕ} {s : FsState} {ip : ℕ} {i : ι}

theorem mem_treeNodes {b : ℕ} :
    b ∈ s.treeNodes ip NADDRS ↔ b ≠ 0 ∧ ∃ q, blockShape.Pos q ∧ s.ptr ip q = b := by
  rw [treeNodes, List.mem_flatMap]
  constructor
  · rintro ⟨k, -, hb⟩
    obtain ⟨hne, path, hlen, hlt, hpath⟩ := mem_nodes.1 hb
    exact ⟨hne, (k, path), ⟨hlen, hlt⟩, hpath⟩
  · rintro ⟨hne, ⟨k, path⟩, hq, rfl⟩
    refine ⟨k, List.mem_range.2 ?_, mem_nodes.2 ⟨hne, path, hq.length_le, hq.lt_arity, rfl⟩⟩
    by_contra hk
    refine hne ?_
    show follow s.heap (s.addrs ip k) path = 0
    rw [addrs, Dinode.addr_of_ge (Nat.le_of_not_lt hk)]
    exact follow_zero ..

/-- The blocks of an inode can be freed one after another. -/
theorem Owned.freeable (h : Owned sb R s) (hR : R i = s.addrs ip) :
    Freeable sb s (s.treeNodes ip NADDRS) := by
  have hinj : ∀ q q', blockShape.Pos q → blockShape.Pos q' → s.ptr ip q ≠ 0 →
      s.ptr ip q = s.ptr ip q' → q = q' := by
    intro q q' hq hq' hne heq
    have heq' := h.inj ((i, q.1), q.2) ((i, q'.1), q'.2) (treeShape_pos.2 hq)
      (treeShape_pos.2 hq')
    rw [forest_ptr hR, forest_ptr hR] at heq'
    simp only [Prod.mk.injEq, true_and] at heq'
    exact Prod.ext_iff.2 (heq' hne heq)
  have hmem : ∀ b ∈ s.treeNodes ip NADDRS, ∃ p, (treeShape ι).Pos p ∧ (forest R s).ptr p ≠ 0 ∧
      (forest R s).ptr p = b := by
    intro b hb
    obtain ⟨hne, q, hq, rfl⟩ := mem_treeNodes.1 hb
    refine ⟨((i, q.1), q.2), treeShape_pos.2 hq, ?_, forest_ptr hR ..⟩
    rwa [forest_ptr hR]
  refine ⟨List.nodup_flatMap.2 ⟨fun k _ ↦ nodup_nodes ?_, ?_⟩, fun b hb ↦ ?_, fun b hb ↦ ?_⟩
  · intro p q hp hq hpa hqa hne heq
    exact congrArg Prod.snd (hinj (k, p) (k, q) ⟨hp, hpa⟩ ⟨hq, hqa⟩ hne heq)
  · -- the trees of two entries are disjoint
    refine List.Pairwise.imp ?_ List.pairwise_lt_range
    intro k k' hkk' b hb hb'
    obtain ⟨hne, p, hp, hpa, hpb⟩ := mem_nodes.1 hb
    obtain ⟨-, q, hq, hqa, hqb⟩ := mem_nodes.1 hb'
    have heq := hinj (k, p) (k', q) ⟨hp, hpa⟩ ⟨hq, hqa⟩ (by rwa [← hpb] at hne)
      (hpb.trans hqb.symm)
    exact absurd (congrArg Prod.fst heq) hkk'.ne
  · obtain ⟨p, hp, hne, rfl⟩ := hmem b hb
    exact h.range p hp hne
  · obtain ⟨p, hp, hne, rfl⟩ := hmem b hb
    exact h.used_ptr p hp hne

/-- Outside the inode blocks and the free map, `itrunc` changes nothing on disk. -/
theorem blocks_trunc (h : Owned sb R s) (hR : R i = s.addrs ip)
    (hinum : (s.icache ip).inum < sb.ninodes) {c : ℕ} (hc : sb.dataStart ≤ c) :
    (s.trunc sb ip).blocks c = s.blocks c := by
  have hne : c ≠ sb.IBLOCK (s.icache ip).inum := by
    have h1 := sb.IBLOCK_lt_bmapstart hinum
    have h2 := sb.bmapstart_lt_dataStart
    omega
  rw [trunc, putInode, icache_setInode_self, blocks_store,
    if_neg hne]
  exact blocks_releaseAll (fun b hb ↦ ((h.freeable hR).range b hb).2) (.inr hc)

theorem used_trunc (hinum : (s.icache ip).inum < sb.ninodes) (c : ℕ) :
    (s.trunc sb ip).used sb c = true ↔ c ∉ s.treeNodes ip NADDRS ∧ s.used sb c = true := by
  have hne : sb.BBLOCK c ≠ sb.IBLOCK (s.icache ip).inum := by
    have h1 := sb.IBLOCK_lt_bmapstart hinum
    have h2 : sb.bmapstart ≤ sb.BBLOCK c := Nat.le_add_left _ _
    omega
  rw [trunc, putInode, icache_setInode_self, used_store_of_ne hne]
  exact used_releaseAll s _ c

variable [DecidableEq ι]

theorem ptr_trunc (h : Owned sb R s) (hR : R i = s.addrs ip)
    (hinum : (s.icache ip).inum < sb.ninodes) {p : (ι × ℕ) × List ℕ} (hp : (treeShape ι).Pos p) :
    (forest (update R i fun _ ↦ 0) (s.trunc sb ip)).ptr p =
      if p.1.1 = i then 0 else (forest R s).ptr p := by
  obtain ⟨⟨i', k⟩, path⟩ := p
  by_cases hi : i' = i
  · rw [if_pos hi, hi]
    show follow _ (update R i (fun _ ↦ 0) i k) path = 0
    rw [update_self, follow_zero]
  · rw [if_neg hi]
    refine Forest.ptr_congr ?_ fun q j r hpath hne ↦ ?_
    · show update R i (fun _ ↦ 0) i' k = R i' k
      rw [update_of_ne hi]
    · subst hpath
      show (((s.trunc sb ip).blocks _).word j).toNat = _
      rw [blocks_trunc h hR hinum (h.range _ hp.of_append hne).1]
      rfl

/-- The trees of the other inodes and the free map after `itrunc`. -/
theorem Owned.trunc (h : Owned sb R s) (hR : R i = s.addrs ip)
    (hinum : (s.icache ip).inum < sb.ninodes) : Owned sb (update R i fun _ ↦ 0) (s.trunc sb ip) := by
  have hptr := fun p hp ↦ ptr_trunc h hR hinum (p := p) hp
  have hother : ∀ p, (treeShape ι).Pos p →
      (forest (update R i fun _ ↦ 0) (s.trunc sb ip)).ptr p ≠ 0 →
      p.1.1 ≠ i ∧ (forest R s).ptr p ≠ 0 ∧
        (forest (update R i fun _ ↦ 0) (s.trunc sb ip)).ptr p = (forest R s).ptr p := by
    intro p hp hne
    rw [hptr p hp] at hne
    by_cases hi : p.1.1 = i
    · exact absurd (if_pos hi) hne
    · rw [if_neg hi] at hne
      exact ⟨hi, hne, by rw [hptr p hp, if_neg hi]⟩
  refine ⟨fun p q hp hq hne heq ↦ ?_, fun p hp hne ↦ ?_, fun p hp hne ↦ ?_, fun b hb ↦ ?_⟩
  · obtain ⟨-, hpne, hpp⟩ := hother p hp hne
    obtain ⟨-, -, hqq⟩ := hother q hq (heq ▸ hne)
    exact h.inj p q hp hq hpne (by rw [← hpp, ← hqq, heq])
  · obtain ⟨-, hpne, hpp⟩ := hother p hp hne
    rw [hpp]
    exact h.range p hp hpne
  · obtain ⟨hi, hpne, hpp⟩ := hother p hp hne
    rw [hpp, used_trunc hinum]
    refine ⟨fun hmem ↦ ?_, h.used_ptr p hp hpne⟩
    obtain ⟨-, q, hq, hqp⟩ := mem_treeNodes.1 hmem
    rw [← forest_ptr hR] at hqp
    exact hi (congrArg (fun x ↦ x.1.1) (h.inj _ p (treeShape_pos.2 hq) hp (hqp ▸ hpne) hqp)).symm
  · rw [used_trunc hinum]
    refine ⟨fun hmem ↦ ?_, h.used_meta b hb⟩
    have hrange := (h.freeable hR).range b hmem
    omega

end Forest

end Xv6
