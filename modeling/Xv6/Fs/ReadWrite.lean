import Xv6.Fs.Content
import Xv6.Fs.Trunc

/-!
# Reading and writing an inode

`readi` and `writei` of `fs.c`, and what they do. The offsets are checked as `uint`; after the checks
nothing can overflow, and the loops count in natural numbers.

`readi` calls the same `bmap` as `writei`: where there is no block it allocates one, so that a read
of a hole logs blocks (`readLoop_sat`). `writei` leaves out the check that the write starts inside
the file, which is how holes come about.
-/

namespace Xv6

open Function FsState

namespace Fs

variable (env : Env)

/-! ### `readi` -/

/-- The loop of `readi`, for `n` bytes from `off` on. -/
def readLoop (ip off n : ℕ) : FS (List Byte) :=
  if n = 0 then
    return []
  else do
    let addr ← bmap env ip (off / BSIZE)
    let bp ← bread addr
    let m := min n (BSIZE - off % BSIZE)
    let rest ← readLoop ip (off + m) (n - m)
    return bp.slice (off % BSIZE) m ++ rest
termination_by n
decreasing_by
  have hmod : off % BSIZE < BSIZE := Nat.mod_lt _ (by decide)
  omega

/-- Read data from inode: the result of `readi`, and the bytes it stores at `dst`. -/
def readi (ip : ℕ) (off n : Word) : FS (ℤ × List Byte) := do
  let i ← inode ip
  if i.type = T_DEV then
    if i.major.toInt < 0 ∨ NDEV ≤ i.major.toInt then
      return (-1, [])
    else
      match env.devRead i.major.toNat with
      | none => return (-1, [])
      | some read => return read n
  else if i.size < off ∨ off + n < off then
    return (-1, [])
  else
    let n := if i.size < off + n then i.size - off else n
    let bytes ← readLoop env ip off.toNat n.toNat
    return (n.toInt, bytes)

/-! ### `writei` -/

/-- The loop of `writei`, for `n` bytes at `src`, from `off` on. -/
def writeLoop (ip : ℕ) (src : ℕ → Byte) (off n : ℕ) : FS Unit :=
  if n = 0 then
    return ()
  else do
    let addr ← bmap env ip (off / BSIZE)
    let bp ← bread addr
    let m := min n (BSIZE - off % BSIZE)
    logWrite addr (bp.copyIn (off % BSIZE) ((List.range m).map src))
    writeLoop ip (fun j ↦ src (m + j)) (off + m) (n - m)
termination_by n
decreasing_by
  have hmod : off % BSIZE < BSIZE := Nat.mod_lt _ (by decide)
  omega

/-- Write data to inode. -/
def writei (ip : ℕ) (src : ℕ → Byte) (off n : Word) : FS ℤ := do
  let i ← inode ip
  if i.type = T_DEV then
    if i.major.toInt < 0 ∨ NDEV ≤ i.major.toInt then
      return -1
    else
      match env.devWrite i.major.toNat with
      | none => return -1
      | some write => return write ((List.range n.toNat).map src)
  else if off + n < off then
    -- a write may start beyond the end of the file
    return -1
  else if MAXFILE * BSIZE < (off + n).toNat then
    return -1
  else
    writeLoop env ip src off.toNat n.toNat
    let i ← inode ip
    -- here `off` has advanced by `n`
    if 0 < n ∧ i.size < off + n then
      modifyInode ip fun i ↦ { i with size := off + n }
      iupdate env ip
    return n.toInt

/-! ### The loops -/

variable {env} {ι : Type} {R : ι → ℕ → ℕ} {i : ι} {ip : ℕ} {s : FsState}

/-- How a loop that goes through the blocks of a range can fail: there is no room in the log for the
blocks it logs, or there are too few free blocks. -/
def RangeFails (sb : Superblock) (s : FsState) (ip off n : ℕ) (e : Stop) : Prop :=
  (∃ F, F.card ≤ 3 * (s.needed ip off n).card + n + 1 ∧ s.log.Fails F e) ∨
    (e = .panic .outOfBlocks ∧ (s.freeBlocks sb).card < (s.needed ip off n).card)

/-- The same for a loop that logs at most `d` blocks besides those of the trees. -/
def RoomFails (sb : Superblock) (s : FsState) (ip off n d : ℕ) (e : Stop) : Prop :=
  (∃ F, F.card ≤ 3 * (s.needed ip off n).card + d ∧ s.log.Fails F e) ∨
    (e = .panic .outOfBlocks ∧ (s.freeBlocks sb).card < (s.needed ip off n).card)

variable {sb : Superblock} {off n m : ℕ} {e : Stop} {u : FsState} {l : List Growth}

theorem RoomFails.rangeFails (h : RoomFails sb s ip off n 0 e) : RangeFails sb s ip off n e :=
  h.imp_left fun ⟨F, hF, hfails⟩ ↦ ⟨F, hF.trans (by omega), hfails⟩

/-- Failing at the first part of a range is failing. -/
theorem RoomFails.left {d d' : ℕ} (hd : d ≤ d') (h : RoomFails sb s ip off m d e) (n : ℕ) :
    RoomFails sb s ip off (m + n) d' e := by
  have hcard := Finset.card_le_card (needed_subset_add s ip off m n)
  refine h.imp (fun ⟨F, hF, hfails⟩ ↦ ⟨F, hF.trans ?_, hfails⟩)
    fun ⟨he, hlt⟩ ↦ ⟨he, hlt.trans_le hcard⟩
  omega

theorem RangeFails.left (h : RangeFails sb s ip off m e) (n : ℕ) : RangeFails sb s ip off (m + n) e :=
  RoomFails.left (d := m + 1) (Nat.succ_le_succ (Nat.le_add_right m n)) h n

/-- Failing at the rest of a range, when blocks have been found for the first part, is failing. -/
theorem RoomFails.right {R' : ι → ℕ → ℕ} {F : Finset ℕ} {c d : ℕ} (hext : Extended sb R i s l R' u)
    (hlog : Logged s F u) (hR : R i = s.addrs ip) (hR' : R' i = u.addrs ip) (hsafe : off + m + n ≤ SAFEBYTES)
    (hl : (l.map Growth.pos).toFinset = s.needed ip off m) (hF : F.card ≤ 3 * l.length + c)
    (he : RoomFails sb u ip (off + m) n d e) : RoomFails sb s ip off (m + n) (c + d) e := by
  have hdisj : Disjoint (l.map Growth.pos).toFinset (u.needed ip (off + m) n) := by
    refine Finset.disjoint_left.2 fun q hq hq' ↦ ?_
    obtain ⟨⟨bn, hbn, hchain⟩, h0⟩ := mem_needed.1 hq'
    have hpos := pos_of_mem_chain (lt_SAFEBLOCKS_of_mem hsafe hbn) hchain
    exact ((hext.ptr_eq_zero_iff hR hR' hpos).1 h0).2 (List.mem_toFinset.1 hq)
  have hneeded : (s.needed ip off (m + n)).card = l.length + (u.needed ip (off + m) n).card := by
    rw [hext.needed_add hR hR' hsafe hl, Finset.card_union_of_disjoint hdisj,
      List.toFinset_card_of_nodup hext.nodup_pos, List.length_map]
  rcases he with ⟨G, hG, hfails⟩ | ⟨he, hlt⟩
  · refine .inl ⟨_, (Finset.card_union_le _ _).trans ?_, hlog.fails hfails⟩
    omega
  · refine .inr ⟨he, ?_⟩
    have hcard := hext.card_freeBlocks
    omega

/-- The bytes of the block that `bmap` returns. -/
theorem slice_block {R' : ι → ℕ → ℕ} {a : ℕ} (hgrown : Grown sb R i s l R' u) (hR : R i = s.addrs ip)
    (hsafe : off + m ≤ SAFEBYTES) (hm : m ≤ BSIZE - off % BSIZE)
    (ha : a = (forest R' u).ptr (dataPos i (off / BSIZE))) (hne : a ≠ 0) :
    (u.blocks a).slice (off % BSIZE) m =
      (List.range m).map fun j ↦ s.byteAt (s.addrs ip) (off + j) := by
  refine (slice_eq_byteAt hm ha hne).trans (List.map_congr_left fun j hj ↦ ?_)
  rw [List.mem_range] at hj
  rw [← hR]
  exact hgrown.byteAt i (by omega)

variable [DecidableEq ι]

/-- `bmap` fails for one block of the range. -/
theorem RoomFails.of_growsFail (h : Owned sb R s) (hR : R i = s.addrs ip)
    (hm : blocksOf off m = {off / BSIZE})
    (he : GrowsFail sb ip s (s.missing ip (chain (locate (off / BSIZE)))) e) :
    (s.needed ip off m).Nonempty ∧ RoomFails sb s ip off m 0 e := by
  have hcard : (s.needed ip off m).card = _ := card_needed_of_block hm
  have hpos : (s.needed ip off m).Nonempty := by
    rw [← Finset.card_pos, hcard]
    rcases he with ⟨l, t, -, hpre, hfails⟩ | ⟨l, t, -, -, hlen, -⟩
    · -- something is logged, so a block is missing
      have hne : l ≠ [] := by
        rintro rfl
        exact Finset.not_nonempty_empty hfails.1
      have hle := hpre.length_le
      rw [List.length_map] at hle
      exact (List.length_pos_of_ne_nil hne).trans_le hle
    · exact (Nat.zero_le _).trans_lt hlen
  have hbound {l : List Growth} {t : FsState} (hl : Grows sb ip s l t)
      (hpre : l.map Growth.pos <+: s.missing ip (chain (locate (off / BSIZE)))) :
      (footprint l).card ≤ 3 * (s.needed ip off m).card + 0 := by
    have hle := hpre.length_le
    rw [List.length_map] at hle
    have := hl.card_footprint
    omega
  refine ⟨hpos, ?_⟩
  by_cases hfree : (s.missing ip (chain (locate (off / BSIZE)))).length ≤ (s.freeBlocks sb).card
  · obtain ⟨l, t, hl, hpre, hfails⟩ := h.growsFail_log hR he hfree
    exact .inl ⟨_, hbound hl hpre, hfails⟩
  · rcases he with ⟨l, t, hl, hpre, hfails⟩ | ⟨l, t, -, -, -, he, -⟩
    · exact .inl ⟨_, hbound hl hpre, hfails⟩
    · exact .inr ⟨he, by omega⟩

/-- The part of the range that lies in its first block. -/
theorem firstPart (hn : n ≠ 0) (off : ℕ) : 0 < min n (BSIZE - off % BSIZE) ∧
    min n (BSIZE - off % BSIZE) ≤ BSIZE - off % BSIZE ∧
    min n (BSIZE - off % BSIZE) + (n - min n (BSIZE - off % BSIZE)) = n := by
  have hmod : off % BSIZE < BSIZE := Nat.mod_lt _ (by decide)
  omega

theorem Reaches.lt_FSSIZE {bn a : ℕ} (h : Owned sb R s) (hR : R i = s.addrs ip) (hbn : bn < SAFEBLOCKS)
    (hu : Reaches sb ip s (chain (locate bn)) (locate bn) a u) : a < FSSIZE := by
  obtain ⟨l, hl, -, rfl, hne, -⟩ := hu
  have hR' : update R i (u.addrs ip) i = u.addrs ip := update_self ..
  rw [← forest_dataPos hR'] at hne ⊢
  exact ((h.grows hR hl).owned.range _ (pos_dataPos hbn) hne).2.trans_le sb.size_le

/-- The loop of `writei` writes the range. -/
theorem writeLoop_sat (h : Owned env.sb R s) (hR : R i = s.addrs ip) (hnodup : s.log.lh.Nodup)
    {src : ℕ → Byte} (hsafe : off + n ≤ SAFEBYTES) : (writeLoop env ip src off n).Sat s
      (fun _ t ↦ ∃ l, Wrote env.sb R i ip s off src n l (update R i (t.addrs ip)) t)
      (RangeFails env.sb s ip off n) := by
  induction n using Nat.strong_induction_on generalizing s R src off with
  | _ n ih =>
    rw [writeLoop]
    split
    next hn =>
      refine ⟨[], ?_⟩
      rw [← hR, update_eq_self, hn]
      exact .refl h hR off src
    next hn =>
      obtain ⟨hm0, hm, hsplit⟩ := firstPart hn off
      have hbn : off / BSIZE < SAFEBLOCKS := div_BSIZE_lt (by omega)
      generalize min n (BSIZE - off % BSIZE) = m at hm0 hm hsplit ⊢
      refine Prog.Sat.bind ((bmap_sat h hR hnodup hbn).mono (fun a u hu ↦ hu) fun e he ↦ ?_) ?_
      · have hfails := (RoomFails.of_growsFail h hR (blocksOf_of_le hm0 hm) he).2.rangeFails.left (n - m)
        rwa [hsplit] at hfails
      intro a u hu
      rw [Prog.sat_bind, sat_bread (Reaches.lt_FSSIZE h hR hbn hu)]
      obtain ⟨l, hw⟩ : ∃ l, Wrote env.sb R i ip s off src m l _ (u.store a _) :=
        h.wrote_block hR (by omega) hm0 hm hu _ rfl
      obtain ⟨l₀, hl₀, hmiss, -⟩ := id hu
      have hlen : l₀.length = (s.needed ip off m).card := by
        rw [card_needed_of_block (blocksOf_of_le hm0 hm), ← hmiss, List.length_map]
      refine Prog.Sat.bind ((logWrite_sat (hl₀.logged.nodup hnodup) _ _).mono
        (fun _ t ht ↦ ht) fun e he ↦ Or.inl ⟨_, (Finset.card_union_le _ _).trans ?_,
          hl₀.logged.fails he⟩) ?_
      · have h1 := hl₀.card_footprint
        have h2 := Finset.card_le_card (needed_subset_add s ip off m (n - m))
        rw [hsplit] at h2
        rw [Finset.card_singleton]
        omega
      rintro - t ⟨-, rfl⟩
      refine Prog.Sat.mono (ih (n - m) (by omega) hw.owned hw.roots.2 (hw.logged.nodup hnodup)
        (by omega)) ?_ fun e he ↦ ?_
      · rintro - t ⟨l', hw'⟩
        refine ⟨l ++ l', ?_⟩
        have hboth := hw.trans (by omega) hw'
        rwa [update_idem, hsplit] at hboth
      · have hfails : RangeFails env.sb s ip off (m + (n - m)) e :=
          RoomFails.right (n := n - m) (d := n - m + 1) hw.toExtended hw.logged hR hw.roots.2 (by omega)
            hw.needed hw.card_logged_le he
        rwa [hsplit] at hfails

/-- The loop of `readi` returns the bytes of the range, and puts a block wherever there is none. -/
theorem readLoop_sat (h : Owned env.sb R s) (hR : R i = s.addrs ip) (hnodup : s.log.lh.Nodup)
    (hsafe : off + n ≤ SAFEBYTES) : (readLoop env ip off n).Sat s
      (fun bytes t ↦ bytes = (List.range n).map (fun j ↦ s.byteAt (s.addrs ip) (off + j)) ∧
        ∃ l, Grows env.sb ip s l t ∧ (l.map Growth.pos).toFinset = s.needed ip off n ∧
          (l ≠ [] → 1 ≤ s.log.outstanding))
      fun e ↦ (s.needed ip off n).Nonempty ∧ RoomFails env.sb s ip off n 0 e := by
  induction n using Nat.strong_induction_on generalizing s R off with
  | _ n ih =>
    rw [readLoop]
    split
    next hn =>
      rw [hn]
      exact ⟨rfl, [], .nil, rfl, fun hnil ↦ absurd rfl hnil⟩
    next hn =>
      obtain ⟨hm0, hm, hsplit⟩ := firstPart hn off
      have hbn : off / BSIZE < SAFEBLOCKS := div_BSIZE_lt (by omega)
      generalize min n (BSIZE - off % BSIZE) = m at hm0 hm hsplit ⊢
      have hone := blocksOf_of_le hm0 hm
      have hsub := needed_subset_add s ip off m (n - m)
      refine Prog.Sat.bind ((bmap_sat h hR hnodup hbn).mono (fun a u hu ↦ hu) fun e he ↦ ?_) ?_
      · obtain ⟨hne, hfails⟩ := RoomFails.of_growsFail h hR hone he
        have hfails := hfails.left (Nat.le_refl 0) (n - m)
        rw [hsplit] at hfails hsub
        exact ⟨hne.mono hsub, hfails⟩
      intro a u hu
      rw [Prog.sat_bind, sat_bread (Reaches.lt_FSSIZE h hR hbn hu)]
      obtain ⟨l, hl, hmiss, ha, hne, hop⟩ := hu
      have hgrown := h.grows hR hl
      have hR' : update R i (u.addrs ip) i = u.addrs ip := update_self ..
      have hpos : (l.map Growth.pos).toFinset = s.needed ip off m := by
        rw [hmiss, needed_of_block hone]
      have hadd := hgrown.needed_add hR hR' (n := n - m) (by omega) hpos
      rw [hsplit] at hadd
      have hslice := slice_block hgrown hR (by omega) hm
        (by rw [forest_dataPos hR', ha]) hne
      refine Prog.Sat.bind (Prog.Sat.mono (ih (n - m) (by omega) hgrown.owned hR'
        (hl.logged.nodup hnodup) (by omega)) (fun _ _ ht ↦ ht) fun e he ↦ ?_) ?_
      · obtain ⟨hsome, he⟩ := he
        have hfails := RoomFails.right hgrown.toExtended hl.logged hR hR' (by omega) hpos
          (c := 0) hl.card_footprint he
        rw [hsplit] at hfails
        exact ⟨hadd ▸ hsome.mono Finset.subset_union_right, hfails⟩
      · rintro rest t ⟨rfl, l', hl', hpos', hop'⟩
        refine ⟨?_, l ++ l', hl.append hl', ?_, fun hsome ↦ ?_⟩
        · nth_rewrite 2 [← hsplit]
          rw [hslice, List.range_add, List.map_append, List.map_map]
          congr 1
          refine List.map_congr_left fun j hj ↦ ?_
          rw [List.mem_range] at hj
          rw [Function.comp_apply, ← hR, ← hR', hgrown.byteAt i (by omega), Nat.add_assoc]
        · rw [List.map_append, List.toFinset_append, hpos', hadd]
        · rw [← hl.logged.outstanding] at hop ⊢
          by_cases hnil : l = []
          · exact hop' fun hnil' ↦ hsome (by rw [hnil, hnil', List.append_nil])
          · exact hop hnil

/-! ### `writei` -/

/-- A write of `n` bytes from `off` on makes the file longer. -/
def Enlarges (d : Dinode) (off n : ℕ) : Prop :=
  0 < n ∧ d.size.toNat < off + n

instance (d : Dinode) (off n : ℕ) : Decidable (Enlarges d off n) :=
  inferInstanceAs (Decidable (_ ∧ _))

/-- The size of a file after a write of `n` bytes from `off` on. -/
def sizeAfter (d : Dinode) (off n : ℕ) : Word :=
  if Enlarges d off n then BitVec.ofNat 32 (off + n) else d.size

theorem toNat_sizeAfter {d : Dinode} (hsafe : off + n ≤ SAFEBYTES) :
    (sizeAfter d off n).toNat = if Enlarges d off n then off + n else d.size.toNat := by
  have hS : SAFEBYTES = 16847872 := rfl
  rw [sizeAfter]
  split
  · rw [BitVec.toNat_ofNat, Nat.mod_eq_of_lt (by omega)]
  · rfl

/-- What `writei` logs besides the tree and the data: the inode, if the file gets longer. -/
def inodeBlocks (sb : Superblock) (i : Inode) (off n : ℕ) : Finset ℕ :=
  if Enlarges i.toDinode off n then {sb.IBLOCK i.inum} else ∅

/-- `writei` has written `n` bytes to the inode `i`, which is `*ip`. -/
structure Written (sb : Superblock) (R : ι → ℕ → ℕ) (i : ι) (ip : ℕ) (s : FsState)
    (off : ℕ) (src : ℕ → Byte) (n : ℕ) (l : List Growth) (R' : ι → ℕ → ℕ) (t : FsState) : Prop
    extends RangeFilled sb R i ip s off src n l R' t where
  /-- The other inodes in memory. -/
  icache_ne : ∀ jp ≠ ip, t.icache jp = s.icache jp
  /-- The inode in memory. -/
  icache_eq : ∃ a, t.icache ip =
    { s.icache ip with addrs := a, size := sizeAfter (s.icache ip).toDinode off n }
  /-- The open files. -/
  ftable : t.ftable = s.ftable
  /-- What has been logged. -/
  logged : Logged s
    (footprint l ∪ t.dataBlocks ip off n ∪ inodeBlocks sb (s.icache ip) off n) t
  /-- The inode on disk, if the file has become longer. -/
  inode_eq : Enlarges (s.icache ip).toDinode off n → t.blocks (sb.IBLOCK (s.icache ip).inum) =
    (s.blocks (sb.IBLOCK (s.icache ip).inum)).setDinode ((s.icache ip).inum % IPB)
      (t.icache ip).toDinode
  /-- Everything else on disk is as before. -/
  frame : ∀ c ∉ footprint l ∪ t.dataBlocks ip off n ∪ inodeBlocks sb (s.icache ip) off n,
    t.blocks c = s.blocks c

section Written

variable {sb : Superblock} {R' : ι → ℕ → ℕ} {u : FsState} {off n : ℕ} {src : ℕ → Byte}
  {l : List Growth}

/-- The loop is all there is to do when the file does not get longer. -/
theorem Written.of_wrote (h : Wrote sb R i ip s off src n l R' u)
    (hsize : ¬Enlarges (s.icache ip).toDinode off n) : Written sb R i ip s off src n l R' u where
  toRangeFilled := h.toRangeFilled
  icache_ne := h.memory.icache_ne
  icache_eq := by
    obtain ⟨a, ha⟩ := h.memory.icache_eq
    exact ⟨a, by rw [ha, sizeAfter, if_neg hsize]⟩
  ftable := h.memory.ftable
  logged := by
    rw [inodeBlocks, if_neg hsize, Finset.union_empty]
    exact h.logged
  inode_eq := fun hlonger ↦ absurd hlonger hsize
  frame := fun c hc ↦ by
    rw [inodeBlocks, if_neg hsize, Finset.union_empty] at hc
    exact h.frame c hc

/-- Otherwise the inode is written to disk with the new size. -/
theorem Written.of_wrote_resize (h : Wrote sb R i ip s off src n l R' u)
    (hsafe : off + n ≤ SAFEBYTES) (hinum : (s.icache ip).inum < sb.ninodes)
    (hsize : Enlarges (s.icache ip).toDinode off n) : Written sb R i ip s off src n l R'
      ((u.setInode ip { u.icache ip with size := BitVec.ofNat 32 (off + n) }).putInode sb ip) := by
  obtain ⟨a, ha⟩ := h.memory.icache_eq
  have hIB := sb.IBLOCK_lt_bmapstart hinum
  have hset : inodeBlocks sb (s.icache ip) off n = {sb.IBLOCK (s.icache ip).inum} := if_pos hsize
  -- the state at the end: one more block has changed, and the size in memory
  obtain ⟨i', hi'⟩ : ∃ i' : Inode, i' =
    { s.icache ip with addrs := a, size := BitVec.ofNat 32 (off + n) } := ⟨_, rfl⟩
  obtain ⟨v, hv⟩ : ∃ v, v = (u.blocks (sb.IBLOCK (s.icache ip).inum)).setDinode
    ((s.icache ip).inum % IPB) i'.toDinode := ⟨_, rfl⟩
  have hstate : (u.setInode ip { u.icache ip with size := BitVec.ofNat 32 (off + n) }).putInode sb ip =
      (u.setInode ip i').store (sb.IBLOCK (s.icache ip).inum) v := by
    rw [putInode, icache_setInode_self, ha, hv, hi']
    rfl
  rw [hstate]
  obtain ⟨t, ht⟩ : ∃ t, t = (u.setInode ip i').store (sb.IBLOCK (s.icache ip).inum) v := ⟨_, rfl⟩
  rw [← ht]
  have hblocks (c : ℕ) : t.blocks c = if c = sb.IBLOCK (s.icache ip).inum then v else u.blocks c := by
    rw [ht]
    exact blocks_store ..
  have htail (c : ℕ) (hc : sb.bmapstart ≤ c) : t.blocks c = u.blocks c := by
    rw [hblocks, if_neg (by omega)]
  have hR' : R' i = t.addrs ip := by
    rw [h.roots.2]
    funext k
    rw [addrs, addrs, ha, ht, show ((u.setInode ip i').store _ v).icache ip = i' from
      icache_setInode_self .., hi']
    rfl
  have hext := h.owned.extended_of_blocks (i := i) htail
  have hdata : t.dataBlocks ip off n = u.dataBlocks ip off n :=
    hext.dataBlocks_eq h.roots.2 hR' hsafe h.mapped
  have hframe : u.blocks (sb.IBLOCK (s.icache ip).inum) = s.blocks (sb.IBLOCK (s.icache ip).inum) :=
    h.frame _ fun hmem ↦ absurd (h.bmapstart_le_of_mem hsafe hmem) (by omega)
  refine ⟨⟨List.append_nil l ▸ h.toExtended.trans hext, fun j x hx ↦ ?_, h.needed, ⟨h.roots.1, hR'⟩,
    fun bn hbn ↦ ?_⟩, fun jp hjp ↦ ?_, ⟨a, ?_⟩, ?_, ?_, fun _ ↦ ?_, fun c hc ↦ ?_⟩
  · rw [h.owned.byteAt_of_blocks (fun c hc ↦ htail c (sb.bmapstart_lt_dataStart.le.trans hc)) j hx,
      h.bytes j x hx]
  · have hpos := Fs.pos_locate (lt_SAFEBLOCKS_of_mem hsafe hbn)
    exact fun h0 ↦ h.mapped bn hbn ((hext.ptr_eq_zero_iff h.roots.2 hR' hpos).1 h0).1
  · rw [ht]
    exact (icache_setInode_of_ne hjp).trans (h.memory.icache_ne jp hjp)
  · rw [ht, sizeAfter, if_pos hsize, ← hi']
    exact icache_setInode_self ..
  · rw [ht]
    exact h.memory.ftable
  · rw [hdata, hset, ht]
    exact (h.logged.setInode ip i').trans (Logged.store _ _ _)
  · rw [hblocks, if_pos rfl, hv, hframe, ht]
    congr 2
    exact (icache_setInode_self ..).symm
  · rw [hdata, hset, Finset.mem_union, not_or, Finset.mem_singleton] at hc
    rw [hblocks, if_neg hc.2, h.frame c hc.1]

end Written

/-- `writei` on a file writes the range, if it is one that the code admits. -/
theorem writei_sat (h : Owned env.sb R s) (hR : R i = s.addrs ip) (hnodup : s.log.lh.Nodup)
    (hinum : (s.icache ip).inum < env.sb.ninodes) (htype : (s.icache ip).type ≠ T_DEV)
    {src : ℕ → Byte} {off n : Word} (hsafe : off.toNat + n.toNat ≤ SAFEBYTES) :
    (writei env ip src off n).Sat s
      (fun r t ↦ r = n.toNat ∧ ∃ l, Written env.sb R i ip s off.toNat src n.toNat l
        (update R i (t.addrs ip)) t) (RangeFails env.sb s ip off.toNat n.toNat) := by
  have hS : SAFEBYTES = 16847872 := rfl
  have hM : MAXFILE * BSIZE = 1082201088 := rfl
  have hadd : (off + n).toNat = off.toNat + n.toNat := by
    rw [BitVec.toNat_add, Nat.mod_eq_of_lt (by omega)]
  have hword : BitVec.ofNat 32 (off.toNat + n.toNat) = off + n := by
    rw [← hadd, BitVec.ofNat_toNat, BitVec.setWidth_eq]
  have hint : n.toInt = n.toNat := BitVec.toInt_eq_toNat_of_lt (by omega)
  rw [writei, Prog.sat_bind, sat_inode, if_neg htype, if_neg, if_neg (by omega)]
  · refine Prog.Sat.bind (writeLoop_sat h hR hnodup hsafe) ?_
    rintro - u ⟨l, hw⟩
    rw [Prog.sat_bind, sat_inode]
    obtain ⟨a, ha⟩ := hw.memory.icache_eq
    have hiff : (0 < n ∧ (u.icache ip).size < off + n) ↔
        Enlarges (s.icache ip).toDinode off.toNat n.toNat := by
      rw [ha, Enlarges, BitVec.lt_def, BitVec.lt_def, hadd]
      rfl
    split
    next hlonger =>
      have hwr := Written.of_wrote_resize hw hsafe hinum (hiff.1 hlonger)
      have hroots := hwr.roots.2
      rw [update_self] at hroots
      have hlogged : Logged s _ (u.setInode ip { u.icache ip with size := off + n }) :=
        hw.logged.setInode ip _
      rw [modifyInode, Prog.sat_modify_bind]
      refine Prog.Sat.bind ((iupdate_sat (hlogged.nodup hnodup) ?_).mono (fun _ t ht ↦ ht)
        fun e he ↦ Or.inl ⟨_, (Finset.card_union_le _ _).trans ?_, hlogged.fails he⟩) ?_
      · rw [icache_setInode_self, ha]
        exact IBLOCK_lt_FSSIZE hinum
      · rw [Finset.card_singleton, ← hw.length_eq]
        exact Nat.succ_le_succ hw.card_logged_le
      · rintro - t rfl
        exact ⟨hint, l, hroots ▸ hwr⟩
    next hnot => exact ⟨hint, l, .of_wrote hw fun hlonger ↦ hnot (hiff.2 hlonger)⟩
  · rw [BitVec.lt_def]
    omega

/-! ### `readi` -/

/-- `readi` refuses a read that starts beyond the end of the file, or that overflows. -/
def ReadRefused (d : Dinode) (off n : Word) : Prop :=
  d.size < off ∨ off + n < off

instance (d : Dinode) (off n : Word) : Decidable (ReadRefused d off n) :=
  inferInstanceAs (Decidable (_ ∨ _))

/-- The number of bytes that a read of `n` bytes from `off` on delivers. -/
def readCount (d : Dinode) (off n : Word) : ℕ :=
  min n.toNat (d.size.toNat - off.toNat)

theorem toNat_readLength {size off n : Word} (h : ¬(size < off ∨ off + n < off)) :
    (if size < off + n then size - off else n).toNat = min n.toNat (size.toNat - off.toNat) := by
  rw [not_or, BitVec.not_lt, BitVec.not_lt, BitVec.le_def, BitVec.le_def] at h
  obtain ⟨hoff, hadd⟩ := h
  have h1 := off.isLt
  have h2 := n.isLt
  -- the sum does not overflow
  have hsum : (off + n).toNat = off.toNat + n.toNat := by
    rw [BitVec.toNat_add] at hadd ⊢
    omega
  split
  next hlt =>
    rw [BitVec.lt_def, hsum] at hlt
    rw [BitVec.toNat_sub_of_le (by rwa [BitVec.le_def])]
    omega
  next hge =>
    rw [BitVec.lt_def, hsum] at hge
    omega

/-- `readi` on a file delivers the bytes of the range, as far as the file goes. -/
theorem readi_sat (h : Owned env.sb R s) (hR : R i = s.addrs ip) (hnodup : s.log.lh.Nodup)
    (htype : (s.icache ip).type ≠ T_DEV) (hsize : (s.icache ip).size.toNat ≤ SAFEBYTES) (off n : Word) :
    (readi env ip off n).Sat s (fun out t ↦
        if ReadRefused (s.icache ip).toDinode off n then out = (-1, []) ∧ t = s else
          out = ((readCount (s.icache ip).toDinode off n : ℤ),
            (List.range (readCount (s.icache ip).toDinode off n)).map
              fun j ↦ s.byteAt (s.addrs ip) (off.toNat + j)) ∧
          ∃ l, Grows env.sb ip s l t ∧ (l.map Growth.pos).toFinset =
            s.needed ip off.toNat (readCount (s.icache ip).toDinode off n) ∧
            (l ≠ [] → 1 ≤ s.log.outstanding)) fun e ↦ ¬ReadRefused (s.icache ip).toDinode off n ∧
        (s.needed ip off.toNat (readCount (s.icache ip).toDinode off n)).Nonempty ∧
        RoomFails env.sb s ip off.toNat (readCount (s.icache ip).toDinode off n) 0 e := by
  rw [readi, Prog.sat_bind, sat_inode, if_neg htype]
  split
  next href =>
    have href : ReadRefused (s.icache ip).toDinode off n := href
    rw [Prog.sat_pure, if_pos href]
    exact ⟨rfl, rfl⟩
  next hok =>
    have hS : SAFEBYTES = 16847872 := rfl
    have hcount := toNat_readLength hok
    have hoff : off.toNat ≤ (s.icache ip).size.toNat := by
      rw [not_or, BitVec.not_lt, BitVec.le_def] at hok
      exact hok.1
    generalize hm : (if (s.icache ip).size < off + n then (s.icache ip).size - off else n) = m
      at hcount ⊢
    have hm' : m.toNat = readCount (s.icache ip).toDinode off n := hcount
    have hint : m.toInt = m.toNat := BitVec.toInt_eq_toNat_of_lt (by omega)
    have hok' : ¬ReadRefused (s.icache ip).toDinode off n := hok
    rw [← hm']
    refine Prog.Sat.bind ((readLoop_sat h hR hnodup (by omega)).imp_error
      fun e he ↦ ⟨hok', he⟩) ?_
    rintro bytes t ⟨rfl, hl⟩
    rw [Prog.sat_pure, if_neg hok', hint]
    exact ⟨rfl, hl⟩

end Fs

end Xv6
