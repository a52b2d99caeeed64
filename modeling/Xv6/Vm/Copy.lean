import Mathlib.Data.List.Perm.Subperm
import Xv6.Vm.Pages

/-!
# Private copies

In a memory where no page is used twice, `copyuvm` makes an exact copy of an address space on pages of its
own, or it gives back all that it took. Both follow from the account: the pages of the copy are the ones that
the free list has lost, so that they are distinct, the parent has none of them, and `freevm` gives back
exactly these.
-/

namespace Xv6

open Prog Function

namespace Vm

/-- No page is used twice, and only pages of the allocator are used. -/
structure Mem.Sound (m : Mem) : Prop where
  wf : m.Wf
  once : ∀ x, m.pages x ≤ 1
  managed : m.AllManaged

section

variable {m : Mem} {d va va' : ℕ}

variable {e : Pte}

/-- The page of an entry counts once for it. -/
theorem PageDir.pages_clear {pd : PageDir} (hva : UserPage va) (he : pd.pte va = some e) (x : ℕ) :
    (pd.table (PDX va)).isSome ∧ (pd.setPte va none).pages x + isPage e.page x = pd.pages x := by
  cases ht : pd.table (PDX va) with
  | none => exact nomatch (PageDir.pte_eq_none ht).symm.trans he
  | some t =>
    have hset := PageDir.pages_setPte hva.lt ht none x
    have hsome : entryPages (some e) x = isPage e.page x := rfl
    have hnone : entryPages none x = 0 := rfl
    rw [he] at hset
    exact ⟨rfl, by omega⟩

/-- Two entries for one page count twice. -/
theorem PageDir.two_le_pages {pd : PageDir} {e' : Pte} (hva : UserPage va) (hva' : UserPage va')
    (hne : va ≠ va') (he : pd.pte va = some e) (he' : pd.pte va' = some e') (hpage : e'.page = e.page) :
    2 ≤ pd.pages e.page := by
  obtain ⟨ht, hclear⟩ := PageDir.pages_clear hva he e.page
  have he'' : (pd.setPte va none).pte va' = some e' := by
    rw [PageDir.pte_setPte hva hva' ht, if_neg (Ne.symm hne), he']
  have hclear' := (PageDir.pages_clear hva' he'' e.page).2
  rw [hpage, isPage_self] at hclear'
  rw [isPage_self] at hclear
  omega

/-- A page that is mapped is not free, and it is mapped nowhere else in the directory. -/
theorem Mem.Sound.not_loose (h : m.Sound) {S : ℕ → Prop} (hva : UserPage va) (he : m.pte d va = some e)
    (hS : ¬S va) : ¬m.Loose d S e.page := by
  obtain ⟨pd, hpd, he⟩ := Option.bind_eq_some_iff.1 he
  have hown := (own_le_pages h.wf d e.page).trans (h.once e.page)
  rw [Mem.own_of_dir hpd] at hown
  rintro (hfree | ⟨va', e', hva', hS', he', hpage⟩)
  · have hclear := (PageDir.pages_clear hva he e.page).2
    have hcount := List.count_pos_iff.2 hfree
    rw [isPage_self] at hclear
    omega
  · rw [Mem.pte_of_dir hpd] at he'
    have htwo := PageDir.two_le_pages hva hva' (fun h ↦ hS (h ▸ hS')) he he' hpage
    omega

end

/-- In `m'` the directory `d` is an exact copy of the first `sz` bytes of `pgdir` in `m`. -/
structure ExactCopy (m m' : Mem) (pgdir d sz : ℕ) : Prop where
  new : m.dir d = none
  /-- A page of the copy was free, and has the flags and the contents of the original. -/
  entry : ∀ va, UserPage va → va < sz → ∃ e p, m.pte pgdir va = some e ∧
    m'.pte d va = some ⟨p, e.writable, e.user⟩ ∧ p ∈ m.freelist ∧ m'.data p = m.data e.page
  distinct : ∀ va va' e e', UserPage va → UserPage va' → va ≠ va' → m'.pte d va = some e →
    m'.pte d va' = some e' → e'.page ≠ e.page
  only : ∀ va, UserPage va → sz ≤ va → m'.pte d va = none

/-- The pages `taken` have gone from the free list, and whenever `d` is freed as it is now, they come back. -/
def TakenFor (m m' : Mem) (d : ℕ) (taken : List ℕ) : Prop :=
  m.freelist.Perm (taken ++ m'.freelist) ∧ ∀ m₁ : Mem, m₁.dir d = m'.dir d → m₁.kend = m'.kend →
    (∀ v ∈ m₁.freelist, m₁.Managed v) → ∃ m₂, (freevm (some d)).run m₁ = .ok ((), m₂) ∧ m₂.freelist.Perm (taken ++ m₁.freelist)

section

variable {m m' : Mem} {pgdir sz d : ℕ}

theorem own_ndirs (hwf : m.Wf) (x : ℕ) : m.own m.ndirs x = m.freelist.count x := by
  rw [Mem.own, hwf.dir_ndirs]
  rfl

/-- A directory that is made gets its pages from the free list. -/
theorem takenFor_of_kept (hm : m.Sound) (hkept : Kept m.ndirs m m') (hd : (m'.dir m.ndirs).isSome) :
    TakenFor m m' m.ndirs (m.freelist.diff m'.freelist) := by
  have hown : ∀ x, m'.freelist.count x + dirPages (m'.dir m.ndirs) x = m.freelist.count x := by
    intro x
    rw [← own_ndirs hm.wf]
    exact hkept.own x
  have hperm : (m'.freelist ++ m.freelist.diff m'.freelist).Perm m.freelist :=
    List.subperm_append_diff_self_of_count_le fun x _ ↦ by have := hown x; omega
  refine ⟨hperm.symm.trans List.perm_append_comm, fun m₁ hdir hkend hfree ↦ ?_⟩
  have hd₁ : (m₁.dir m.ndirs).isSome := by rw [hdir, hd]
  have hsat : (freevm (some m.ndirs)).Sat m₁ (fun _ m₂ ↦ Kept m.ndirs m₁ m₂ ∧ m₂.ndirs = m₁.ndirs ∧
      m₂.dir = update m₁.dir m.ndirs none) fun _ ↦ False := by
    refine ((freevm_kept hd₁).and (freevm_sat hd₁)).mono (fun _ _ h ↦ h) ?_
    intro e ⟨hrefused, he⟩
    obtain ⟨v, hpos, hv⟩ := hrefused he
    have hx := hown v
    have hcount := List.count_eq_zero.2 fun h ↦ hv (hfree v h)
    have hle := own_le_pages hm.wf m.ndirs v
    rw [Mem.own, hdir] at hpos
    rw [Mem.Managed, hkend, hkept.kend] at hv
    rw [own_ndirs hm.wf, hm.managed v hv] at hle
    omega
  obtain ⟨_, m₂, hrun, hkept₂, -, hdir₂⟩ := hsat.exists_ok
  refine ⟨m₂, hrun, List.perm_iff_count.2 fun x ↦ ?_⟩
  have hx := hown x
  have hx₂ := hkept₂.own x
  have htaken := hperm.count_eq x
  rw [Mem.own, Mem.own, hdir₂, update_self, hdir] at hx₂
  have hnone : dirPages none x = 0 := rfl
  rw [List.count_append] at htaken ⊢
  omega

/-- **`copyuvm` makes an exact private copy or does nothing.** The pages below `sz` are there, and no page is
used twice. -/
theorem copyuvm_copies (hm : m.Sound) (hp : (m.dir pgdir).isSome) (hsz : sz ≤ KERNBASE)
    (hpages : ∀ va, UserPage va → va < sz → m.Present pgdir va) :
    ∃ r m', (copyuvm pgdir sz).run m = .ok (r, m') ∧
      -- The parent is as it was.
      m'.dir pgdir = m.dir pgdir ∧
      (∀ va e, UserPage va → m.pte pgdir va = some e → m'.data e.page = m.data e.page) ∧
      ((r = none ∧ m'.freelist.Perm m.freelist) ∨
        ∃ d, r = some d ∧ ExactCopy m m' pgdir d sz ∧ ∃ taken, TakenFor m m' d taken) := by
  have hfree : ∀ va e, UserPage va → m.pte pgdir va = some e → e.page ∉ m.freelist :=
    fun va e hva he h ↦ hm.not_loose (S := fun _ ↦ False) hva he id (.inl h)
  refine ((((copyuvm_kept hm.wf hsz).and (copyuvm_sat hm.wf hp hsz)).mono ?_ ?_ :
    (copyuvm pgdir sz).Sat m _ fun _ ↦ False)).exists_ok
  · intro r m' hpost
    obtain ⟨hkept, hmade, hcopy⟩ := hpost
    have hown : ∀ x, m'.own m.ndirs x = m.freelist.count x := by
      intro x
      rw [← own_ndirs hm.wf]
      exact hkept.own x
    refine ⟨hmade.other _ (hm.wf _ hp).ne, fun va e hva he ↦ hkept.data _ ?_ rfl, ?_⟩
    · rw [own_ndirs hm.wf, List.count_eq_zero]
      exact hfree va e hva he
    · cases r with
      | none =>
        refine .inl ⟨rfl, List.perm_iff_count.2 fun x ↦ ?_⟩
        rw [← hown x, Mem.own, hmade.none rfl]
        rfl
      | some d =>
        obtain ⟨rfl, hd⟩ := hmade.eq d rfl
        obtain ⟨pd, hpd⟩ := Option.isSome_iff_exists.1 hd
        have hpd_le : ∀ x, pd.pages x ≤ m.freelist.count x := by
          intro x
          have hx := hown x
          rw [Mem.own_of_dir hpd] at hx
          omega
        have hnodup : m.freelist.Nodup := by
          refine List.nodup_iff_count_le_one.2 fun x ↦ ?_
          rw [← own_ndirs hm.wf]
          exact (own_le_pages hm.wf _ x).trans (hm.once x)
        refine .inr ⟨_, rfl, ⟨hm.wf.dir_ndirs, fun va hva hlt ↦ ?_, ?_, fun va hva hle ↦ ?_⟩, _,
          takenFor_of_kept hm hkept hd⟩
        · obtain ⟨e, bytes, he, ⟨-, p, hp', hdata⟩, hbytes⟩ := (hcopy _ rfl va hva).2 hlt
          refine ⟨e, p, he, hp', ?_, by rw [hdata hnodup, hbytes (hfree va e hva he)]⟩
          rw [Mem.pte_of_dir hpd] at hp'
          have hclear := (PageDir.pages_clear hva hp' p).2
          rw [isPage_self] at hclear
          have hle := hpd_le p
          exact List.count_pos_iff.1 (by omega)
        · intro va va' e e' hva hva' hne he he' hpage
          rw [Mem.pte_of_dir hpd] at he he'
          have htwo := PageDir.two_le_pages hva hva' hne he he' hpage
          have hle := hpd_le e.page
          have hone := List.nodup_iff_count_le_one.1 hnodup e.page
          omega
        · rw [← Option.not_isSome_iff_eq_none, (hcopy _ rfl va hva).1]
          exact Nat.not_lt.2 hle
  · rintro e ⟨hrefused, rfl | ⟨-, va, hva, hlt, hnone⟩⟩
    · exact hm.managed.not_refused hm.wf hrefused
    · have hpresent := hpages va hva hlt
      rw [Mem.Present, hnone] at hpresent
      cases hpresent

/-- A directory with one page table. -/
def oneTable : PageDir := ⟨1, [], update (fun _ ↦ none) (PDX 0) (some ⟨2, fun _ ↦ none⟩)⟩

/-- A memory with one address space of one page. -/
def onePage : Mem where
  freelist := List.range' 4 100
  ndirs := 1
  dir := update (fun _ ↦ none) 0 (some (oneTable.setPte 0 (some ⟨3, true, true⟩)))
  data := fun p _ ↦ p
  kend := 0

theorem onePage_pages (x : ℕ) : onePage.pages x =
    (List.range' 4 100).count x + (isPage 1 x + isPage 2 x + isPage 3 x) := by
  have hzero : (0 : ℕ) < KERNBASE := by decide
  have hempty : PageDir.pages ⟨1, [], fun _ ↦ none⟩ x = isPage 1 x := by
    show isPage 1 x + 0 + ∑ _ ∈ Finset.range NUPDENTRIES, 0 = _
    rw [Finset.sum_const_zero, Nat.add_zero, Nat.add_zero]
  have htable : oneTable.pages x = isPage 1 x + isPage 2 x := by
    rw [← hempty]
    exact @PageDir.pages_addTable ⟨1, [], fun _ ↦ none⟩ 0 hzero rfl 2 x
  have hentry := @PageDir.pages_setPte oneTable 0 _ hzero rfl (some ⟨3, true, true⟩) x
  have hnone : entryPages (oneTable.pte 0) x = 0 := rfl
  have hsome : entryPages (some ⟨3, true, true⟩) x = isPage 3 x := rfl
  show _ + ∑ d ∈ Finset.range 1, dirPages (onePage.dir d) x = _
  rw [Finset.sum_range_one]
  show _ + PageDir.pages _ x = _
  rw [show onePage.freelist = List.range' 4 100 from rfl]
  omega

theorem onePage_sound : onePage.Sound := by
  refine ⟨fun d hd ↦ ?_, fun x ↦ ?_, ?_⟩
  · rcases eq_or_ne d 0 with rfl | hne
    · decide
    · have hd : (update (fun _ ↦ none) 0 (some _) d : Option PageDir).isSome := hd
      rw [update_of_ne hne] at hd
      cases hd
  · rw [onePage_pages, isPage, isPage, isPage]
    have hone := List.nodup_iff_count_le_one.1 (List.nodup_range' (s := 4) (n := 100)) x
    have hmem : x < 4 → (List.range' 4 100).count x = 0 := by
      rw [List.count_eq_zero, List.mem_range'_1]
      omega
    split_ifs <;> omega
  · intro x hx
    have hstop : PHYSTOP / PGSIZE = 57344 := rfl
    rw [Mem.Managed, hstop, not_and_or, Nat.not_lt, Nat.not_lt, show onePage.kend = 0 from rfl] at hx
    have hmem : (List.range' 4 100).count x = 0 := by
      rw [List.count_eq_zero, List.mem_range'_1]
      omega
    rw [onePage_pages, isPage, isPage, isPage]
    split_ifs <;> omega

theorem onePage_present {va : ℕ} (hva : UserPage va) : onePage.Present 0 va ↔ va < PGSIZE := by
  show ((oneTable.setPte 0 (some ⟨3, true, true⟩)).pte va).isSome ↔ _
  rw [PageDir.pte_setPte ⟨Nat.dvd_zero _, by decide⟩ hva rfl]
  split
  next h0 => exact iff_of_true rfl (h0 ▸ PGSIZE_pos)
  next h0 =>
    have hnone : oneTable.pte va = none := by
      show (update (fun _ ↦ none) (PDX 0) (some _) (PDX va) : Option PageTable).bind _ = none
      rcases eq_or_ne (PDX va) (PDX 0) with h | h
      · rw [h, update_self]
        rfl
      · rw [update_of_ne h]
        rfl
    rw [hnone]
    exact iff_of_false nofun fun hlt ↦ h0 (Nat.eq_zero_of_dvd_of_lt hva.aligned hlt)

/-- The page is copied. -/
theorem copyuvm_copies_onePage : onePage.Sound ∧ (∀ va, UserPage va → va < PGSIZE → onePage.Present 0 va) ∧
    ∃ d m', (copyuvm 0 PGSIZE).run onePage = .ok (some d, m') ∧ ExactCopy onePage m' 0 d PGSIZE := by
  have hpages : ∀ va, UserPage va → va < PGSIZE → onePage.Present 0 va :=
    fun va hva ↦ (onePage_present hva).2
  have hsome : (copyuvm 0 PGSIZE).returns onePage (fun r _ ↦ r.isSome) = true := by decide +kernel
  obtain ⟨r, m', hrun, -, -, hr⟩ := copyuvm_copies onePage_sound (rfl : (onePage.dir 0).isSome)
    (by decide) hpages
  rcases hr with ⟨rfl, -⟩ | ⟨d, rfl, hcopy, -⟩
  · cases (sat_of_returns hsome).of_ok hrun
  · exact ⟨onePage_sound, hpages, d, m', hrun, hcopy⟩

end

end Vm

end Xv6
