import Xv6.Fs.ReadWrite

/-!
# Reading blocks that are there

Where `bmap` finds a block at each position on the way, it allocates none and changes nothing. This
needs neither the free map nor the log: a read of such a range delivers its bytes on any disk
(`Fs.readLoop_mapped`).
-/

namespace Xv6

open PointerTree

/-- There is a block of the disk at each position on the way to data block `bn`. -/
def FsState.Mapped (s : FsState) (ip bn : ℕ) : Prop :=
  ∀ q ∈ chain (locate bn), s.ptr ip q ≠ 0 ∧ s.ptr ip q < FSSIZE

namespace Fs

variable {env : Env} {s : FsState} {ip : ℕ}

variable {k : ℕ}

theorem rootPtr_mapped (hne : s.ptr ip (k, []) ≠ 0) :
    (rootPtr env ip k).Sat s (fun a t ↦ a = s.ptr ip (k, []) ∧ t = s) fun _ ↦ False := by
  have hroot : (s.icache ip).addr k ≠ 0 := fun h0 ↦ hne (word_eq_zero_iff.1 h0)
  rw [rootPtr, Prog.sat_bind, sat_inode, if_neg hroot]
  exact ⟨rfl, rfl⟩

theorem entryPtr_mapped {j : ℕ} {path : List ℕ} (hj : j < NINDIRECT)
    (hparent : s.ptr ip (k, path) ≠ 0 ∧ s.ptr ip (k, path) < FSSIZE) (hne : s.ptr ip (k, path ++ [j]) ≠ 0) :
    (entryPtr env (s.ptr ip (k, path)) j j).Sat s
      (fun a t ↦ a = s.ptr ip (k, path ++ [j]) ∧ t = s) fun _ ↦ False := by
  have hptr : s.ptr ip (k, path ++ [j]) = s.heap (s.ptr ip (k, path)) j :=
    follow_concat s.heap hparent.1 j
  have hentry : entry env s (s.ptr ip (k, path)) j = (s.blocks (s.ptr ip (k, path))).word j :=
    if_pos hj
  rw [hptr] at hne ⊢
  rw [entryPtr, Prog.sat_bind, sat_bread hparent.2, Prog.sat_get_bind, hentry,
    if_neg fun h0 ↦ hne (word_eq_zero_iff.1 h0)]
  exact ⟨rfl, rfl⟩

theorem walkFrom_mapped (pre : List ℕ) {path : List ℕ} (hpos : blockShape.Pos (k, pre ++ path))
    (hpre : s.ptr ip (k, pre) ≠ 0 ∧ s.ptr ip (k, pre) < FSSIZE)
    (h : ∀ q ∈ chainFrom k pre path, s.ptr ip q ≠ 0 ∧ s.ptr ip q < FSSIZE) :
    (walkFrom env (s.ptr ip (k, pre)) path).Sat s
      (fun a t ↦ a = s.ptr ip (k, pre ++ path) ∧ t = s) fun _ ↦ False := by
  induction path generalizing pre with
  | nil =>
    rw [List.append_nil]
    exact ⟨rfl, rfl⟩
  | cons j path ih =>
    rw [List.append_cons] at hpos ⊢
    rw [chainFrom, List.forall_mem_cons] at h
    rw [walkFrom]
    refine (entryPtr_mapped (hpos.of_append.lt_arity j (by simp)) hpre h.1.1).bind ?_
    rintro a t ⟨rfl, rfl⟩
    exact ih _ hpos h.1 h.2

/-- `bmap` finds the block and changes nothing. -/
theorem bmap_mapped {bn : ℕ} (hbn : bn < SAFEBLOCKS) (h : s.Mapped ip bn) :
    (bmap env ip bn).Sat s (fun a t ↦ a = s.ptr ip (locate bn) ∧ t = s) fun _ ↦ False := by
  rw [FsState.Mapped, chain, List.forall_mem_cons] at h
  rw [bmap_eq_walk env hbn, walk]
  refine (rootPtr_mapped h.1.1).bind ?_
  rintro a t ⟨rfl, rfl⟩
  exact walkFrom_mapped [] (pos_locate hbn) h.1 h.2

theorem Mapped.locate {bn : ℕ} (h : s.Mapped ip bn) :
    s.ptr ip (locate bn) ≠ 0 ∧ s.ptr ip (locate bn) < FSSIZE :=
  h _ (mem_chain.2 ⟨_, List.prefix_rfl, rfl⟩)

/-- A read of the range delivers its bytes and changes nothing. -/
theorem readLoop_mapped {off n : ℕ} (hsafe : off + n ≤ SAFEBYTES)
    (h : ∀ bn ∈ blocksOf off n, s.Mapped ip bn) : (readLoop env ip off n).Sat s
      (fun bytes t ↦ bytes = (List.range n).map (fun j ↦ s.byteAt (s.addrs ip) (off + j)) ∧ t = s)
      fun _ ↦ False := by
  have hB : BSIZE = 512 := rfl
  induction n using Nat.strong_induction_on generalizing off with
  | _ n ih =>
    rw [readLoop]
    split
    next hn =>
      rw [hn]
      exact ⟨rfl, rfl⟩
    next hn =>
      obtain ⟨hm0, hm, hsplit⟩ := firstPart hn off
      generalize min n (BSIZE - off % BSIZE) = m at hm0 hm hsplit ⊢
      rw [← hsplit, blocksOf_add, blocksOf_of_le hm0 hm] at h
      simp only [Finset.mem_union, Finset.mem_singleton] at h
      have hmapped := h _ (.inl rfl)
      obtain ⟨hne, hdisk⟩ := Mapped.locate hmapped
      refine (bmap_mapped (div_BSIZE_lt (by omega)) hmapped).bind ?_
      rintro a t ⟨rfl, rfl⟩
      rw [Prog.sat_bind, sat_bread hdisk]
      refine (ih (n - m) (by omega) (by omega) fun bn hbn ↦ h bn (.inr hbn)).bind ?_
      rintro rest u ⟨rfl, rfl⟩
      refine ⟨?_, rfl⟩
      nth_rewrite 2 [← hsplit]
      rw [List.range_add, List.map_append, List.map_map]
      congr 1
      · exact slice_eq_byteAt hm rfl hne
      · refine List.map_congr_left fun j _ ↦ ?_
        rw [Function.comp_apply, Nat.add_assoc]

end Fs

end Xv6
