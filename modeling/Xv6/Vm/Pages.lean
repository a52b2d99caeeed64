import Xv6.Lib.Sums
import Xv6.Vm.Frame

/-!
# An account of the pages

A page that has been taken from the free list is recorded in the page directory that it serves: as the
directory itself, as a page table, or in an entry. `Mem.pages` counts how often a page is on the free list
or recorded. The functions of `vm.c` neither lose a page nor make one up: `Moved d m m' lost gained` is the
balance of a piece of code on the directory `d`, where `lost` is what it has handed to its caller and
`gained` what it got. It also says which pages have not been written to.

As a page is freed only where it is recorded, `kfree` panics only if a page that is not the allocator's is in
the account.
-/

namespace Xv6

open Prog Function

namespace Vm

/-! ### Counting -/

/-- `v` counts once for the page `v`. -/
def isPage (v x : ℕ) : ℕ := if v = x then 1 else 0

/-- The page of an entry. -/
def entryPages (e : Option Pte) (x : ℕ) : ℕ := e.elim 0 fun e ↦ isPage e.page x

/-- The page of a page table, and those of its entries. -/
def PageTable.pages (t : PageTable) (x : ℕ) : ℕ :=
  isPage t.page x + ∑ i ∈ Finset.range 1024, entryPages (t.pte i) x

/-- The pages of a page table that may be absent. -/
def tablePages (t : Option PageTable) (x : ℕ) : ℕ := t.elim 0 fun t ↦ t.pages x

/-- The page of a directory, and those of its page tables. -/
def PageDir.pages (pd : PageDir) (x : ℕ) : ℕ :=
  isPage pd.page x + pd.kernel.count x + ∑ i ∈ Finset.range NUPDENTRIES, tablePages (pd.table i) x

/-- The pages of a directory that may have been freed. -/
def dirPages (pd : Option PageDir) (x : ℕ) : ℕ := pd.elim 0 fun pd ↦ pd.pages x

/-- How often a page is free or in a directory. -/
def Mem.pages (m : Mem) (x : ℕ) : ℕ :=
  m.freelist.count x + ∑ d ∈ Finset.range m.ndirs, dirPages (m.dir d) x

/-- How often a page is free or in the directory `d`. -/
def Mem.own (m : Mem) (d x : ℕ) : ℕ := m.freelist.count x + dirPages (m.dir d) x

variable {pd : PageDir} {va : ℕ}

theorem Mem.own_of_dir {m : Mem} {d : ℕ} (h : m.dir d = some pd) (x : ℕ) :
    m.own d x = m.freelist.count x + pd.pages x := by
  rw [Mem.own, h]
  rfl

theorem isPage_self (x : ℕ) : isPage x x = 1 := if_pos rfl

theorem isPage_eq_zero {v x : ℕ} (h : isPage v x = 0) : x ≠ v := by
  rintro rfl
  exact absurd h (by rw [isPage_self]; decide)

theorem count_cons_eq (v x : ℕ) (l : List ℕ) : (v :: l).count x = l.count x + isPage v x := by
  rw [List.count_cons, isPage]
  simp only [beq_iff_eq]

theorem PDX_lt (h : va < KERNBASE) : PDX va < NUPDENTRIES := by
  rw [KERNBASE] at h
  rw [PDX, NUPDENTRIES]
  omega

theorem PTX_lt (va : ℕ) : PTX va < 1024 := Nat.mod_lt _ (by decide)

/-- An entry is rewritten. -/
theorem PageDir.pages_setPte {t : PageTable} (hva : va < KERNBASE) (ht : pd.table (PDX va) = some t)
    (e : Option Pte) (x : ℕ) :
    (pd.setPte va e).pages x + entryPages (pd.pte va) x = pd.pages x + entryPages e x := by
  have hpte : pd.pte va = t.pte (PTX va) := by rw [PageDir.pte, ht, Option.bind_some]
  have htable := sum_range_update (fun t ↦ tablePages t x) pd.table (PDX_lt hva)
    (some { t with pte := update t.pte (PTX va) e })
  have hentry := sum_range_update (fun e ↦ entryPages e x) t.pte (PTX_lt va) e
  rw [ht] at htable
  rw [hpte, PageDir.pages, PageDir.pages, PageDir.setPte]
  rw [ht, Option.map_some]
  simp only [tablePages, Option.elim_some, PageTable.pages] at htable ⊢
  omega

/-- A page table is added. -/
theorem PageDir.pages_addTable (hva : va < KERNBASE) (ht : pd.table (PDX va) = none) (pgtab x : ℕ) :
    PageDir.pages { pd with
      table := update pd.table (PDX va) (some ⟨pgtab, fun _ ↦ none⟩) } x =
      pd.pages x + isPage pgtab x := by
  have htable := sum_range_update (fun t ↦ tablePages t x) pd.table (PDX_lt hva)
    (some ⟨pgtab, fun _ ↦ none⟩)
  have hempty : tablePages (some ⟨pgtab, fun _ ↦ none⟩) x = isPage pgtab x := by
    rw [tablePages, Option.elim_some, PageTable.pages]
    show isPage pgtab x + ∑ i ∈ Finset.range 1024, 0 = isPage pgtab x
    rw [Finset.sum_const_zero, Nat.add_zero]
  rw [ht] at htable
  have hnone : tablePages none x = 0 := rfl
  rw [PageDir.pages, PageDir.pages]
  dsimp only
  omega

/-- The page of a table without entries. -/
theorem PageTable.pages_of_none {t : PageTable} (h : ∀ i, i < 1024 → t.pte i = none) (x : ℕ) :
    t.pages x = isPage t.page x := by
  rw [PageTable.pages, Finset.sum_eq_zero, Nat.add_zero]
  intro i hi
  rw [h i (Finset.mem_range.1 hi)]
  rfl

/-- Pages that are found at some of the first `n` indexes. -/
theorem count_filterMap_range (g : ℕ → Option ℕ) (n x : ℕ) : ((List.range n).filterMap g).count x =
    ∑ i ∈ Finset.range n, (g i).elim 0 fun v ↦ isPage v x := by
  induction n with
  | zero => rfl
  | succ n ih =>
    rw [List.range_succ, List.filterMap_append, List.count_append, ih, Finset.sum_range_succ]
    cases h : g n with
    | none => rw [List.filterMap_cons_none h]; rfl
    | some v =>
      rw [List.filterMap_cons_some h, List.filterMap_nil, count_cons_eq, List.count_nil, Nat.zero_add]
      rfl

/-- All the pages of the directory satisfy `P`. -/
def PageDir.Among (pd : PageDir) (P : ℕ → Prop) : Prop :=
  P pd.page ∧ (∀ v ∈ pd.kernel, P v) ∧ ∀ i < NUPDENTRIES, ∀ t ∈ pd.table i,
    P t.page ∧ ∀ j < 1024, ∀ e ∈ t.pte j, P e.page

instance (pd : PageDir) (P : ℕ → Prop) [DecidablePred P] : Decidable (pd.Among P) :=
  inferInstanceAs (Decidable (_ ∧ _ ∧ _))

theorem PageDir.Among.of_pages {P : ℕ → Prop} (h : pd.Among P) {x : ℕ} (hx : pd.pages x ≠ 0) : P x := by
  by_contra hP
  obtain ⟨hpage, hkernel, htable⟩ := h
  have hne {v : ℕ} (hv : P v) : isPage v x = 0 := if_neg fun heq : v = x ↦ hP (heq ▸ hv)
  refine hx ?_
  rw [PageDir.pages, hne hpage, List.count_eq_zero.2 fun hk ↦ hP (hkernel x hk)]
  refine (Nat.zero_add _).trans (Finset.sum_eq_zero fun i hi ↦ ?_)
  cases ht : pd.table i with
  | none => rfl
  | some t =>
    obtain ⟨htpage, hpte⟩ := htable i (Finset.mem_range.1 hi) t ht
    show t.pages x = 0
    rw [PageTable.pages, hne htpage]
    refine (Nat.zero_add _).trans (Finset.sum_eq_zero fun j hj ↦ ?_)
    cases he : t.pte j with
    | none => rfl
    | some e => exact hne (hpte j (Finset.mem_range.1 hj) e he)

/-! ### The balance of code -/

/-- From `m` to `m'` the pages `lost` have gone from the free list and the directory `d`, and the pages
`gained` have come. Only pages that were there or have come have been written to. -/
structure Moved (d : ℕ) (m m' : Mem) (lost gained : ℕ → ℕ) : Prop where
  own : ∀ x, m'.own d x + lost x = m.own d x + gained x
  data : ∀ x, m.own d x = 0 → gained x = 0 → m'.data x = m.data x
  kend : m'.kend = m.kend

/-- No page has come or gone. -/
abbrev Kept (d : ℕ) (m m' : Mem) : Prop := Moved d m m' (fun _ ↦ 0) fun _ ↦ 0

namespace Moved

variable {d : ℕ} {m m' m'' : Mem} {l g l' g' : ℕ → ℕ}

theorem refl (d : ℕ) (m : Mem) : Kept d m m := ⟨fun _ ↦ rfl, fun _ _ _ ↦ rfl, rfl⟩

theorem trans (h : Moved d m m' l g) (h' : Moved d m' m'' l' g') :
    Moved d m m'' (fun x ↦ l x + l' x) fun x ↦ g x + g' x := by
  refine ⟨fun x ↦ ?_, fun x hx hg ↦ ?_, h'.kend.trans h.kend⟩
  · have hx := h.own x
    have hx' := h'.own x
    omega
  · have hown := h.own x
    rw [h'.data x (by omega) (by omega), h.data x hx (by omega)]

/-- What has gone and come back does not count, if it was there before. -/
theorem cancel (h : Moved d m m' l g)
    (heq : ∀ x, l x + g' x = g x + l' x ∧ g x ≤ m.own d x + g' x) : Moved d m m' l' g' := by
  refine ⟨fun x ↦ ?_, fun x hx hg ↦ h.data x hx ?_, h.kend⟩
  · have hx := h.own x
    have heqx := heq x
    omega
  · have heqx := heq x
    omega

theorem managed (h : Moved d m m' l g) {v : ℕ} : m'.Managed v ↔ m.Managed v := by
  rw [Mem.Managed, Mem.Managed, h.kend]

end Moved

theorem own_le_pages {m : Mem} (hwf : m.Wf) (d x : ℕ) : m.own d x ≤ m.pages x := by
  rw [Mem.own, Mem.pages]
  refine Nat.add_le_add_left ?_ _
  cases hd : m.dir d with
  | none => exact Nat.zero_le _
  | some pd =>
    rw [← hd]
    exact Finset.single_le_sum (f := fun d ↦ dirPages (m.dir d) x) (fun _ _ ↦ Nat.zero_le _)
      (Finset.mem_range.2 (hwf d (by rw [hd]; rfl)))

section

variable {m : Mem} {d : ℕ}

/-- A page that is not the allocator's is freed only if it is in the account. -/
def Refused (d : ℕ) (m : Mem) (e : Fault) : Prop := e = .panic .kfree → ∃ v, 0 < m.own d v ∧ ¬m.Managed v

theorem Refused.of_moved {m' : Mem} {l g : ℕ → ℕ} {e : Fault} (he : Refused d m' e)
    (h : Moved d m m' l g) (hg : ∀ x, g x ≤ l x) : Refused d m e := by
  intro hkfree
  obtain ⟨v, hpos, hv⟩ := he hkfree
  refine ⟨v, ?_, mt h.managed.2 hv⟩
  have heq := h.own v
  have hgv := hg v
  omega

/-- Only pages of the allocator are in the account. -/
def Mem.AllManaged (m : Mem) : Prop := ∀ x, ¬m.Managed x → m.pages x = 0

/-- Then `kfree` refuses none. -/
theorem Mem.AllManaged.not_refused (h : m.AllManaged) (hwf : m.Wf) : ¬Refused d m (.panic .kfree) := by
  intro hrefused
  obtain ⟨v, hpos, hv⟩ := hrefused rfl
  have hle := own_le_pages hwf d v
  rw [h v hv] at hle
  omega

/-- A directory is rewritten. -/
theorem moved_setDir {pd pd' : PageDir} (hpd : m.dir d = some pd) {l g : ℕ → ℕ}
    (h : ∀ x, pd'.pages x + l x = pd.pages x + g x) :
    Moved d m { m with dir := update m.dir d (some pd') } l g := by
  refine ⟨fun x ↦ ?_, fun _ _ _ ↦ rfl, rfl⟩
  have hx := h x
  rw [Mem.own_of_dir hpd, Mem.own_of_dir (update_self d (some pd') m.dir)]
  dsimp only
  omega

/-- A page that is taken from the free list is in the account. -/
theorem own_pos {p : ℕ} (hp : some p = m.freelist.head?) : 0 < m.own d p := by
  rw [Mem.own, List.eq_cons_of_mem_head? hp.symm, count_cons_eq, isPage_self]
  omega

variable {E : Fault → Prop} {oldsz newsz : ℕ}

theorem kalloc_moved : kalloc.Sat m (fun r m' ↦ r = m.freelist.head? ∧
    m' = { m with freelist := m.freelist.tail } ∧
      Moved d m m' (fun x ↦ r.elim 0 fun v ↦ isPage v x) fun _ ↦ 0) E := by
  refine kalloc_takes.imp ?_
  rintro r _ ⟨rfl, rfl⟩
  refine ⟨rfl, rfl, fun x ↦ ?_, fun _ _ _ ↦ rfl, rfl⟩
  rw [Mem.own, Mem.own]
  dsimp only
  cases m.freelist with
  | nil => rfl
  | cons v next =>
    rw [count_cons_eq, List.head?_cons, Option.elim_some, List.tail_cons]
    omega

theorem kfree_moved {v : ℕ} (hE : ¬m.Managed v → E (.panic .kfree)) : (kfree v).Sat m (fun _ m' ↦
    m'.ndirs = m.ndirs ∧ m'.dir = m.dir ∧ Moved d m m' (fun _ ↦ 0) (isPage v)) E := by
  refine sat_kfree hE fun _ ↦ ⟨rfl, rfl, fun x ↦ ?_, fun x _ hx ↦ update_of_ne (isPage_eq_zero hx) .., rfl⟩
  rw [Mem.own, Mem.own]
  show (v :: m.freelist).count x + dirPages (m.dir d) x + 0 = _
  rw [count_cons_eq]
  omega

theorem walkpgdir_kept {va : ℕ} (hva : va < KERNBASE) (alloc : Bool) (hd : (m.dir d).isSome) :
    (walkpgdir d va alloc).Sat m (fun _ m' ↦ Kept d m m') E := by
  obtain ⟨pd, hpd⟩ := Option.isSome_iff_exists.1 hd
  rw [walkpgdir]
  refine sat_bind.2 (pageDir_sat hpd ?_)
  split
  · exact .refl d m
  next ht =>
    rw [Option.not_isSome_iff_eq_none] at ht
    split
    · refine (kalloc_moved (d := d)).bind ?_
      intro r m₁ hpost
      obtain ⟨_, hm₁, hmoved⟩ := hpost
      cases r with
      | none => exact hmoved
      | some pgtab =>
        have hpd₁ : m₁.dir d = some pd := hm₁ ▸ hpd
        have hset := moved_setDir (l := fun _ ↦ 0) (g := isPage pgtab) hpd₁ fun x ↦ (Nat.add_zero _).trans (PageDir.pages_addTable hva ht pgtab x)
        refine (hmoved.trans hset).cancel fun x ↦ ?_
        have hx := hmoved.own x
        rw [Option.elim_some] at hx ⊢
        omega
    · exact .refl d m

/-- `mappages` records the page, or leaves it to the caller. -/
theorem mappages_moved {va page : ℕ} {w u : Bool} (hva : UserPage va) (hd : (m.dir d).isSome) :
    (mappages d va page w u).Sat m
      (fun r m' ↦ Moved d m m' (fun _ ↦ 0) fun x ↦ if r then isPage page x else 0)
      fun e ↦ e = .panic .remap := by
  rw [mappages]
  have hwalk := (walkpgdir_kept (E := fun _ ↦ False) hva.lt true hd).and
    (walkpgdir_alloc_sat (E := fun _ ↦ False) hd)
  refine (hwalk.imp_error fun _ h ↦ h.1.elim).bind ?_
  intro r m₁ hpost
  obtain ⟨hkept, _, hr⟩ := hpost
  cases r with
  | false => exact hkept
  | true =>
    obtain ⟨pd, hpd, ht⟩ := hr rfl
    obtain ⟨t, ht⟩ := Option.isSome_iff_exists.1 ht
    refine sat_bind.2 (pageDir_sat hpd ?_)
    split
    · rfl
    next hnone =>
      rw [Option.not_isSome_iff_eq_none] at hnone
      refine (hkept.trans (moved_setDir (l := fun _ ↦ 0) (g := isPage page) hpd ?_)).cancel ?_
      · intro x
        have hset := PageDir.pages_setPte hva.lt ht (some ⟨page, w, u⟩) x
        rw [hnone] at hset
        exact hset
      · intro x
        rw [if_pos rfl]
        omega

/-- A page is taken, filled and recorded, or it is left to the caller. -/
theorem newPage_moved {m₁ : Mem} {a p : ℕ} {bytes : ℕ → BitVec 8} {w u : Bool} (ha : UserPage a)
    (hd : (m.dir d).isSome) (hp : some p = m.freelist.head?)
    (hm₁ : m₁ = { m with freelist := m.freelist.tail, data := update m.data p bytes }) :
    (mappages d a p w u).Sat m₁
      (fun r m' ↦ Moved d m m' (fun x ↦ if r then 0 else isPage p x) (fun _ ↦ 0) ∧ (m'.dir d).isSome)
      (Refused d m) := by
  have hfree := List.eq_cons_of_mem_head? hp.symm
  have hmoved : Moved d m m₁ (isPage p) fun _ ↦ 0 := by
    rw [hm₁]
    refine ⟨fun x ↦ ?_, fun x hx _ ↦ ?_, rfl⟩
    · rw [Mem.own, Mem.own, hfree, count_cons_eq]
      dsimp only
      rw [List.tail_cons]
      omega
    · rw [Mem.own, hfree, count_cons_eq] at hx
      exact update_of_ne (isPage_eq_zero (by omega)) ..
  refine ((mappages_moved ha (by rw [hm₁]; exact hd)).and (newPage_sat ha hd hp hm₁)).mono ?_
    fun e he hkfree ↦ by cases he.1.symm.trans hkfree
  intro r m' h
  refine ⟨(hmoved.trans h.1).cancel fun x ↦ ?_, by rw [h.2.changed.isSome, hd]⟩
  have hx := hmoved.own x
  cases r with
  | true => rw [if_pos rfl, if_pos rfl]; omega
  | false => rw [if_neg Bool.false_ne_true, if_neg Bool.false_ne_true]; omega

/-- The loop of `deallocuvm` frees what was recorded. -/
theorem deallocPages_kept {n a : ℕ} (hold : oldsz ≤ KERNBASE) (hd : (m.dir d).isSome) :
    (deallocPages d oldsz n a).Sat m (fun _ m' ↦ Kept d m m') (Refused d m) := by
  induction n generalizing m a with
  | zero => simp [deallocPages, Refused]
  | succ n ih =>
    rw [deallocPages]
    split
    next hlt =>
      obtain ⟨pd, hpd⟩ := Option.isSome_iff_exists.1 hd
      refine sat_bind.2 (pageDir_sat hpd ?_)
      split
      · exact ih hd
      next t ht =>
        split
        · exact ih hd
        next e he =>
          have hpte : pd.pte a = some e := by rw [PageDir.pte, ht, Option.bind_some, he]
          have hset : ∀ x, (pd.setPte a none).pages x + isPage e.page x = pd.pages x + 0 := by
            intro x
            have hset := PageDir.pages_setPte (hlt.trans_le hold) ht none x
            rw [hpte] at hset
            exact hset
          refine sat_bind.2 (sat_freePte (fun hpage _ ↦ ⟨e.page, ?_, hpage⟩) fun _ ↦ ?_)
          · -- The page is recorded in the entry.
            have hx := (moved_setDir hpd hset).own e.page
            rw [isPage_self] at hx
            omega
          · have hkept : Kept d m (m.freed d a pd e) := by
              refine ⟨fun x ↦ ?_, fun x hx _ ↦ update_of_ne (isPage_eq_zero ?_) .., rfl⟩
              · have hx := hset x
                rw [Mem.own_of_dir hpd, Mem.own_of_dir (update_self ..)]
                show (e.page :: m.freelist).count x + _ + 0 = _
                rw [count_cons_eq]
                omega
              · have hx' := hset x
                rw [Mem.own_of_dir hpd] at hx
                omega
            refine (ih ?_).mono (fun _ _ h ↦ hkept.trans h) fun e he ↦ he.of_moved hkept fun _ ↦ le_rfl
            show (update m.dir d _ d).isSome = true
            rw [update_self]
            rfl
    · exact .refl d m

theorem deallocuvm_kept (hold : oldsz ≤ KERNBASE) (hd : (m.dir d).isSome) :
    (deallocuvm d oldsz newsz).Sat m (fun _ m' ↦ Kept d m m') (Refused d m) := by
  rw [deallocuvm]
  split
  · exact .refl d m
  · exact (deallocPages_kept hold hd).bind fun _ _ h ↦ h

/-- The loop of `allocuvm` records what it takes. -/
theorem allocPages_kept {as : List ℕ} (hnew : newsz ≤ KERNBASE) (has : ∀ a ∈ as, UserPage a)
    (hd : (m.dir d).isSome) :
    (allocPages d oldsz newsz as).Sat m (fun _ m' ↦ Kept d m m') (Refused d m) := by
  induction as generalizing m with
  | nil => exact .refl d m
  | cons a as ih =>
    have ha := has a List.mem_cons_self
    rw [allocPages]
    refine (kalloc_moved (d := d)).bind ?_
    intro r m₁ hpost
    obtain ⟨hr, hm₁, hmoved⟩ := hpost
    cases r with
    | none =>
      have hd₁ : (m₁.dir d).isSome := hm₁ ▸ hd
      refine ((deallocuvm_kept hnew hd₁).mono (fun _ _ h ↦ ?_) fun e he ↦
        he.of_moved hmoved fun _ ↦ Nat.zero_le _).bind fun _ _ h ↦ h
      exact (hmoved.trans h).cancel fun _ ↦ ⟨rfl, Nat.zero_le _⟩
    | some page =>
      refine sat_modify_bind.2 ((newPage_moved ha hd hr (by rw [hm₁])).bind ?_)
      intro r m₂ hpost
      obtain ⟨hmoved₂, hd₂⟩ := hpost
      cases r with
      | true =>
        refine (ih (fun b hb ↦ has b (List.mem_cons_of_mem _ hb)) hd₂).mono ?_ ?_
        · intro _ m₃ h
          exact (hmoved₂.trans h).cancel fun _ ↦ ⟨rfl, Nat.zero_le _⟩
        · intro e he
          exact he.of_moved hmoved₂ fun _ ↦ Nat.zero_le _
      | false =>
        refine ((deallocuvm_kept hnew hd₂).imp_error fun e he ↦
          he.of_moved hmoved₂ fun _ ↦ Nat.zero_le _).bind ?_
        intro _ m₃ h₃
        have hmoved₃ := hmoved₂.trans h₃
        refine (kfree_moved (d := d) fun h _ ↦ ⟨page, own_pos hr, mt hmoved₃.managed.2 h⟩).bind ?_
        intro _ m₄ hpost
        obtain ⟨_, _, h₄⟩ := hpost
        refine (hmoved₃.trans h₄).cancel fun x ↦ ?_
        have hx := hmoved₂.own x
        rw [if_neg Bool.false_ne_true] at hx ⊢
        omega

theorem allocuvm_kept (hd : (m.dir d).isSome) :
    (allocuvm d oldsz newsz).Sat m (fun _ m' ↦ Kept d m m') (Refused d m) := by
  rw [allocuvm]
  split
  · exact .refl d m
  next hlt =>
    rw [ge_iff_le, Nat.not_le] at hlt
    split
    · exact .refl d m
    · refine allocPages_kept hlt.le ?_ hd
      intro a ha
      obtain ⟨h₁, -, h₂⟩ := (mem_pagesFrom (dvd_PGROUNDUP oldsz)).1 ha
      exact ⟨h₁, h₂.trans hlt⟩

end

/-! ### Directories that come and go -/

section

variable {m : Mem} {d : ℕ}

/-- A loop that frees the pages that `g` finds. -/
theorem freeAll_moved {β : Type} {f : β → VM Unit} (g : β → Option ℕ)
    (hf : ∀ b, f b = (g b).elim (pure ()) kfree) (l : List β) {E : Fault → Prop}
    (hE : ∀ v ∈ l.filterMap g, ¬m.Managed v → E (.panic .kfree)) :
    (forEach l f).Sat m (fun _ m' ↦ m'.dir = m.dir ∧
      Moved d m m' (fun _ ↦ 0) fun x ↦ (l.filterMap g).count x) E := by
  induction l generalizing m with
  | nil => exact ⟨rfl, .refl d m⟩
  | cons b l ih =>
    rw [forEach_cons, hf]
    cases hg : g b with
    | none =>
      rw [List.filterMap_cons_none hg] at hE ⊢
      exact ih hE
    | some v =>
      rw [List.filterMap_cons_some hg] at hE ⊢
      refine (kfree_moved (d := d) (hE v List.mem_cons_self)).bind ?_
      intro _ m₁ ⟨_, hdir₁, h₁⟩
      refine (ih fun w hw h ↦ hE w (.tail _ hw) (mt h₁.managed.2 h)).imp ?_
      intro _ m₂ ⟨hdir₂, h₂⟩
      refine ⟨hdir₂.trans hdir₁, (h₁.trans h₂).cancel fun x ↦ ?_⟩
      rw [count_cons_eq]
      omega

/-- `freevm` gives back all pages of the directory. -/
theorem freevm_kept (hd : (m.dir d).isSome) :
    (freevm (some d)).Sat m (fun _ m' ↦ Kept d m m') (Refused d m) := by
  rw [freevm]
  generalize his : List.range NUPDENTRIES = is
  refine (((deallocuvm_kept le_rfl hd).and (deallocuvm_sat (by decide) le_rfl hd)).mono
    (fun _ _ h ↦ h) fun _ h ↦ h.1).bind ?_
  intro _ m₁ hpost
  obtain ⟨hkept, _, hclear⟩ := hpost
  obtain ⟨pd, hpd⟩ := Option.isSome_iff_exists.1 (hclear.changed.isSome ▸ hd)
  -- All entries are clear, so that only the tables are left.
  have htable : ∀ i, i < NUPDENTRIES → ∀ x, tablePages (pd.table i) x =
      ((pd.table i).map PageTable.page).elim 0 fun v ↦ isPage v x := by
    intro i hi x
    cases ht : pd.table i with
    | none => rfl
    | some t =>
      refine PageTable.pages_of_none (fun j hj ↦ ?_) x
      rw [NUPDENTRIES] at hi
      have hindex : PDX (PGADDR i j 0) = i ∧ PTX (PGADDR i j 0) = j := by
        rw [PDX, PTX, PGADDR]
        omega
      have hva : UserPage (PGADDR i j 0) := by
        refine ⟨⟨i * 1024 + j, ?_⟩, ?_⟩
        · rw [PGADDR, PGSIZE]
          omega
        · rw [PGADDR, KERNBASE]
          omega
      have hnone := hclear.clear _ hva (Nat.zero_le _) hva.lt
      rwa [Mem.pte_of_dir hpd, PageDir.pte, hindex.1, hindex.2, ht, Option.bind_some] at hnone
  have hsum : ∀ x, pd.pages x = (is.filterMap fun i ↦ (pd.table i).map PageTable.page).count x +
      (pd.kernel.filterMap some).count x + isPage pd.page x := by
    intro x
    have htables := Finset.sum_congr rfl fun i hi ↦ htable i (Finset.mem_range.1 hi) x
    rw [← count_filterMap_range, his] at htables
    rw [PageDir.pages, htables, List.filterMap_some]
    omega
  have hpanic : ∀ x, 0 < pd.pages x → ¬m₁.Managed x → Refused d m (.panic .kfree) := by
    intro x hpos hx _
    have hown := hkept.own x
    rw [Mem.own_of_dir hpd] at hown
    exact ⟨x, by omega, mt hkept.managed.2 hx⟩
  refine sat_bind.2 (pageDir_sat hpd ?_)
  refine (freeAll_moved (d := d) (fun i ↦ (pd.table i).map PageTable.page) ?_ _ fun v hv ↦ ?_).bind ?_
  · intro i
    cases pd.table i with
    | none | some t => rfl
  · have hcount := List.count_pos_iff.2 hv
    have hv := hsum v
    exact hpanic v (by omega)
  intro _ m₂ hpost
  obtain ⟨hdir₂, h₂⟩ := hpost
  refine (freeAll_moved (d := d) some (fun _ ↦ rfl) _ fun v hv hpage ↦ ?_).bind ?_
  · have hcount := List.count_pos_iff.2 hv
    have hv := hsum v
    exact hpanic v (by omega) (mt h₂.managed.2 hpage)
  intro _ m₃ hpost
  obtain ⟨hdir₃, h₃⟩ := hpost
  refine (kfree_moved (d := d) fun hpage ↦ hpanic pd.page ?_ (mt (h₂.trans h₃).managed.2 hpage)).bind ?_
  · have hself := hsum pd.page
    rw [isPage_self] at hself
    omega
  intro _ m₄ hpost
  obtain ⟨_, hdir₄, h₄⟩ := hpost
  have hpd₄ : m₄.dir d = some pd := by rw [hdir₄, hdir₃, hdir₂, hpd]
  have hgone : Moved d m₄ { m₄ with dir := update m₄.dir d none } pd.pages fun _ ↦ 0 := by
    refine ⟨fun x ↦ ?_, fun _ _ _ ↦ rfl, rfl⟩
    have hnone : dirPages none x = 0 := rfl
    rw [Mem.own_of_dir hpd₄, Mem.own]
    dsimp only
    rw [update_self]
    omega
  refine ((((hkept.trans h₂).trans h₃).trans h₄).trans hgone).cancel fun x ↦ ?_
  have hown := hkept.own x
  have hx := hsum x
  rw [Mem.own_of_dir hpd] at hown
  omega

/-- `setupkvm` records the tables of the kernel half as it takes them. -/
theorem kernelTables_kept {n : ℕ} {E : Fault → Prop} (hd : (m.dir d).isSome) :
    (kernelTables d n).Sat m (fun _ m' ↦ Kept d m m') E := by
  induction n generalizing m with
  | zero => exact .refl d m
  | succ n ih =>
    rw [kernelTables]
    refine (kalloc_moved (d := d)).bind ?_
    intro r m₁ ⟨_, hm₁, hmoved⟩
    cases r with
    | none => exact hmoved
    | some pgtab =>
      obtain ⟨pd, hpd⟩ : ∃ pd, m₁.dir d = some pd := Option.isSome_iff_exists.1 (hm₁ ▸ hd)
      refine sat_bind.2 (pageDir_sat hpd ?_)
      have hset : Moved d m₁ { m₁ with
          dir := update m₁.dir d (some { pd with kernel := pd.kernel ++ [pgtab] }) }
          (fun _ ↦ 0) (isPage pgtab) := moved_setDir hpd fun x ↦ by
        rw [PageDir.pages, PageDir.pages, List.count_append, count_cons_eq, List.count_nil]
        dsimp only
        omega
      rw [setDir, sat_modify_bind]
      refine (ih (by dsimp only; rw [update_self]; rfl)).imp fun _ m₃ h₃ ↦
        ((hmoved.trans hset).trans h₃).cancel fun x ↦ ?_
      have hx := hmoved.own x
      rw [Option.elim_some] at hx ⊢
      omega

/-- The pages of a new directory come from the free list. -/
theorem setupkvm_kept (hwf : m.Wf) :
    setupkvm.Sat m (fun _ m' ↦ Kept m.ndirs m m') (Refused m.ndirs m) := by
  rw [setupkvm]
  refine (kalloc_moved (d := m.ndirs)).bind ?_
  intro r m₁ ⟨_, hm₁, hmoved⟩
  cases r with
  | none => exact hmoved
  | some page =>
    have hn₁ : m₁.ndirs = m.ndirs := by rw [hm₁]
    have hnone₁ : m₁.dir m.ndirs = none := by
      rw [hm₁]
      exact hwf.dir_ndirs
    refine sat_get_bind.2 (sat_modify_bind.2 (sat_modify_bind.2 ?_))
    rw [hn₁]
    generalize hm₂ : ({ m₁ with
      ndirs := m.ndirs + 1
      dir := update m₁.dir m.ndirs (some ⟨page, [], fun _ ↦ none⟩) } : Mem) = m₂
    have hself : m₂.dir m.ndirs = some ⟨page, [], fun _ ↦ none⟩ := by
      rw [← hm₂]
      exact update_self ..
    have hkept : Kept m.ndirs m m₂ := by
      have hnew : Moved m.ndirs m₁ m₂ (fun _ ↦ 0) (isPage page) := by
        refine ⟨fun x ↦ ?_, fun _ _ _ ↦ by rw [← hm₂], by rw [← hm₂]⟩
        have hempty : PageDir.pages ⟨page, [], fun _ ↦ none⟩ x = isPage page x := by
          show isPage page x + 0 + ∑ _ ∈ Finset.range NUPDENTRIES, 0 = _
          rw [Finset.sum_const_zero, Nat.add_zero, Nat.add_zero]
        have hfree : m₂.freelist = m₁.freelist := by rw [← hm₂]
        rw [Mem.own_of_dir hself, Mem.own, hnone₁, hfree, hempty]
        rfl
      refine (hmoved.trans hnew).cancel fun x ↦ ?_
      have hx := hmoved.own x
      rw [Option.elim_some] at hx ⊢
      omega
    have hd₂ : (m₂.dir m.ndirs).isSome := by rw [hself]; rfl
    refine (((kernelTables_kept (E := fun _ ↦ False) hd₂).and
      (kernelTables_sat (E := fun _ ↦ False) hd₂)).imp_error fun _ h ↦ h.1.elim).bind ?_
    intro r m₃ ⟨hkept₃, hch, _⟩
    have hkept₃ : Kept m.ndirs m m₃ := hkept.trans hkept₃
    cases r with
    | true => exact hkept₃
    | false =>
      refine ((freevm_kept (by rw [hch.isSome, hd₂])).mono (fun _ _ h ↦ hkept₃.trans h)
        fun e he ↦ he.of_moved hkept₃ fun _ ↦ le_rfl).bind fun _ _ h ↦ h

/-- The loop of `copyuvm` records what it takes, or gives everything back. -/
theorem copyPages_kept {pgdir : ℕ} {is : List ℕ} (his : ∀ i ∈ is, UserPage i) (hd : (m.dir d).isSome) :
    (copyPages pgdir d is).Sat m (fun _ m' ↦ Kept d m m') (Refused d m) := by
  induction is generalizing m with
  | nil => exact .refl d m
  | cons i is ih =>
    have hi := his i List.mem_cons_self
    rw [copyPages]
    refine (walkpgdir_sat_or.imp_error fun e he hkfree ↦ by cases he.symm.trans hkfree).bind ?_
    rintro r m ⟨rfl, pd, hpd, -⟩
    split
    · refine sat_bind.2 (pageDir_sat hpd ?_)
      split
      · exact fun h ↦ by cases h
      next e he =>
        refine (kalloc_moved (d := d)).bind ?_
        intro r m₁ hpost
        obtain ⟨hr, hm₁, hmoved⟩ := hpost
        cases r with
        | none =>
          have hd₁ : (m₁.dir d).isSome := hm₁ ▸ hd
          refine ((freevm_kept hd₁).mono (fun _ _ h ↦ ?_) fun e he ↦
            he.of_moved hmoved fun _ ↦ Nat.zero_le _).bind fun _ _ h ↦ h
          exact hmoved.trans h
        | some page =>
          refine sat_get_bind.2 (sat_modify_bind.2 ((newPage_moved hi hd hr (by rw [hm₁])).bind ?_))
          intro r m₂ hpost
          obtain ⟨hmoved₂, hd₂⟩ := hpost
          cases r with
          | true =>
            exact (ih (fun j hj ↦ his j (List.mem_cons_of_mem _ hj)) hd₂).mono
              (fun _ _ h ↦ hmoved₂.trans h) fun e he ↦ he.of_moved hmoved₂ fun _ ↦ Nat.zero_le _
          | false =>
            refine (kfree_moved (d := d) fun h _ ↦ ⟨page, own_pos hr, mt hmoved₂.managed.2 h⟩).bind ?_
            intro _ m₃ hpost
            obtain ⟨_, hdir₃, h₃⟩ := hpost
            have hkept : Kept d m m₃ := by
              refine (hmoved₂.trans h₃).cancel fun x ↦ ?_
              have hx := hmoved₂.own x
              rw [if_neg Bool.false_ne_true] at hx ⊢
              omega
            exact ((freevm_kept (by rw [hdir₃, hd₂])).mono (fun _ _ h ↦ hkept.trans h) fun e he ↦
              he.of_moved hkept fun _ ↦ le_rfl).bind fun _ _ h ↦ h
    · exact fun h ↦ by cases h

/-- `copyuvm` takes the pages of the copy from the free list, or gives everything back. -/
theorem copyuvm_kept {pgdir sz : ℕ} (hwf : m.Wf) (hsz : sz ≤ KERNBASE) :
    (copyuvm pgdir sz).Sat m (fun _ m' ↦ Kept m.ndirs m m') (Refused m.ndirs m) := by
  rw [copyuvm]
  refine (((setupkvm_kept hwf).and (setupkvm_sat hwf)).imp_error fun _ h ↦ h.1).bind ?_
  intro r m₁ hpost
  obtain ⟨hkept, hmade, _⟩ := hpost
  cases r with
  | none => exact hkept
  | some d =>
    obtain ⟨rfl, hd⟩ := hmade.eq d rfl
    refine (copyPages_kept (fun i hi ↦ ?_) hd).mono (fun _ _ h ↦ hkept.trans h) fun e he ↦
      he.of_moved hkept fun _ ↦ le_rfl
    obtain ⟨h₁, -, h₂⟩ := (mem_pagesFrom (Nat.dvd_zero _)).1 hi
    exact ⟨h₁, h₂.trans_le hsz⟩

end

end Vm

end Xv6
