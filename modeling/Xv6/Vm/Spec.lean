import Mathlib.Order.Nat
import Mathlib.Data.List.Nodup
import Xv6.Vm.Basic

/-!
# What the functions of `vm.c` do to an address space

One specification for each function of `Xv6.Vm.Basic`, in terms of the entries `Mem.pte` at page
boundaries: `Changed m m' d S` says that between `m` and `m'` only entries of `d` at addresses in `S`
have changed. Callers use these and not the loops.

`deallocuvm` clears exactly the entries from `PGROUNDUP newsz` to `oldsz`: the jump over an absent page
table passes entries that are clear. `allocuvm` fills exactly these entries or changes none outside
them, and panics only at an entry that was in use. `copyuvm` panics only at an entry that is clear.
-/

namespace Xv6

open Prog Function

theorem PGSIZE_pos : 0 < PGSIZE := by decide

theorem dvd_PGROUNDUP (n : ℕ) : PGSIZE ∣ PGROUNDUP n := Nat.dvd_mul_left ..

theorem le_PGROUNDUP (n : ℕ) : n ≤ PGROUNDUP n := by
  have h := Nat.div_add_mod (n + PGSIZE - 1) PGSIZE
  have hlt := Nat.mod_lt (n + PGSIZE - 1) PGSIZE_pos
  have hpos := PGSIZE_pos
  rw [Nat.mul_comm] at h
  show n ≤ (n + PGSIZE - 1) / PGSIZE * PGSIZE
  omega

variable {n a : ℕ}

theorem uint_natCast (h : n < 4294967296) : uint (n : ℤ) = n := by
  unfold uint
  omega

/-- A page boundary at or above `n` is at or above the next page boundary. -/
theorem PGROUNDUP_le (ha : PGSIZE ∣ a) (h : n ≤ a) : PGROUNDUP n ≤ a := by
  obtain ⟨k, rfl⟩ := ha
  have hk : (n + PGSIZE - 1) / PGSIZE ≤ k := by
    rw [← Nat.lt_succ_iff, Nat.div_lt_iff_lt_mul PGSIZE_pos, Nat.succ_mul, Nat.mul_comm k]
    have hpos := PGSIZE_pos
    omega
  calc PGROUNDUP n = PGSIZE * ((n + PGSIZE - 1) / PGSIZE) := Nat.mul_comm ..
    _ ≤ PGSIZE * k := Nat.mul_le_mul_left _ hk

theorem PGROUNDUP_le_iff (ha : PGSIZE ∣ a) : PGROUNDUP n ≤ a ↔ n ≤ a :=
  ⟨(le_PGROUNDUP n).trans, PGROUNDUP_le ha⟩

theorem PGROUNDDOWN_of_dvd (ha : PGSIZE ∣ a) : PGROUNDDOWN a = a := Nat.div_mul_cancel ha

theorem lt_PGROUNDUP_iff (ha : PGSIZE ∣ a) : a < PGROUNDUP n ↔ a < n := by
  rw [← Nat.not_le, ← Nat.not_le, PGROUNDUP_le_iff ha]

theorem indexes_PGROUNDDOWN (a : ℕ) : PDX (PGROUNDDOWN a) = PDX a ∧ PTX (PGROUNDDOWN a) = PTX a := by
  simp only [PGSIZE, PDX, PTX, PGROUNDDOWN]
  omega

/-- The page of an address is determined by the two indexes. -/
theorem eq_of_indexes {b : ℕ} (ha : a < KERNBASE) (hb : b < KERNBASE) (hb' : PGSIZE ∣ b) (hd : PDX b = PDX a)
    (ht : PTX b = PTX a) : b = PGROUNDDOWN a := by
  obtain ⟨i, rfl⟩ := hb'
  simp only [PGSIZE, KERNBASE, PDX, PTX, PGROUNDDOWN] at *
  omega

namespace Vm

/-- A page boundary of the user half. -/
structure UserPage (va : ℕ) : Prop where
  aligned : PGSIZE ∣ va
  lt : va < KERNBASE

variable {a b d : ℕ} {pd : PageDir} {m m' : Mem} {S : ℕ → Prop}

theorem mem_pagesFrom {va : ℕ} (ha : PGSIZE ∣ a) : va ∈ pagesFrom a b ↔ PGSIZE ∣ va ∧ a ≤ va ∧ va < b := by
  obtain ⟨k, rfl⟩ := ha
  simp only [pagesFrom, List.mem_map, List.mem_range, PGSIZE]
  constructor
  · rintro ⟨i, hi, rfl⟩
    refine ⟨⟨k + i, by omega⟩, by omega, ?_⟩
    have := Nat.div_mul_le_self (b - 4096 * k + 4096 - 1) 4096
    omega
  · rintro ⟨⟨j, rfl⟩, hle, hlt⟩
    refine ⟨j - k, ?_, by omega⟩
    omega

theorem pagesFrom_cons (h : a < b) : pagesFrom a b = a :: pagesFrom (a + PGSIZE) b := by
  have hlen : (b - a + PGSIZE - 1) / PGSIZE = (b - (a + PGSIZE) + PGSIZE - 1) / PGSIZE + 1 := by
    simp only [PGSIZE]
    omega
  rw [pagesFrom, pagesFrom, hlen, List.range_succ_eq_map, List.map_cons, List.map_map, Nat.zero_mul, Nat.add_zero]
  refine congrArg _ (List.map_congr_left fun i _ ↦ ?_)
  rw [Function.comp_apply, Nat.add_one_mul]
  omega

theorem pagesFrom_of_le (h : b ≤ a) : pagesFrom a b = [] := by
  have hlen : (b - a + PGSIZE - 1) / PGSIZE = 0 := by
    simp only [PGSIZE]
    omega
  rw [pagesFrom, hlen]
  rfl

theorem nodup_pagesFrom (a b : ℕ) : (pagesFrom a b).Nodup := by
  refine List.Nodup.map ?_ List.nodup_range
  intro i j hij
  have hpos := PGSIZE_pos
  have h : i * PGSIZE = j * PGSIZE := by simpa using hij
  exact Nat.eq_of_mul_eq_mul_right hpos h

/-! ### Entries -/

/-- An entry is written at an address within a page. -/
theorem PageDir.pte_setPte_of_lt {e : Option Pte} (ha : a < KERNBASE) (hb : UserPage b)
    (ht : (pd.table (PDX a)).isSome) : (pd.setPte a e).pte b = if b = PGROUNDDOWN a then e else pd.pte b := by
  obtain ⟨t, ht⟩ := Option.isSome_iff_exists.1 ht
  have hdown := indexes_PGROUNDDOWN a
  show (update pd.table (PDX a) _ (PDX b)).bind _ = _
  rw [ht, Option.map_some]
  rcases eq_or_ne (PDX b) (PDX a) with hd | hd
  · rw [hd, update_self, Option.bind_some]
    dsimp only
    rcases eq_or_ne (PTX b) (PTX a) with hx | hx
    · rw [hx, update_self, if_pos (eq_of_indexes ha hb.lt hb.aligned hd hx)]
    · rw [update_of_ne hx, if_neg (fun h : b = PGROUNDDOWN a ↦ hx (h ▸ hdown.2)), PageDir.pte, hd, ht, Option.bind_some]
  · rw [update_of_ne hd, if_neg (fun h : b = PGROUNDDOWN a ↦ hd (h ▸ hdown.1)), PageDir.pte]

theorem PageDir.pte_setPte {e : Option Pte} (ha : UserPage a) (hb : UserPage b)
    (ht : (pd.table (PDX a)).isSome) : (pd.setPte a e).pte b = if b = a then e else pd.pte b := by
  rw [PageDir.pte_setPte_of_lt ha.lt hb ht, PGROUNDDOWN_of_dvd ha.aligned]

theorem Mem.pte_of_dir (h : m.dir d = some pd) (va : ℕ) : m.pte d va = pd.pte va := by
  rw [Mem.pte, h, Option.bind_some]

theorem PageDir.pte_eq_none {va : ℕ} (h : pd.table (PDX va) = none) : pd.pte va = none := by
  rw [PageDir.pte, h, Option.bind_none]

/-- Between `m` and `m'` only entries of the directory `d` have changed, and of those at page
boundaries only the ones in `S`. -/
structure Changed (m m' : Mem) (d : ℕ) (S : ℕ → Prop) : Prop where
  ndirs : m'.ndirs = m.ndirs
  other : ∀ d', d' ≠ d → m'.dir d' = m.dir d'
  isSome : (m'.dir d).isSome = (m.dir d).isSome
  pte : ∀ va, UserPage va → ¬S va → m'.pte d va = m.pte d va

namespace Changed

variable {m m' m'' : Mem} {d : ℕ} {S T : ℕ → Prop}

theorem refl (m : Mem) (d : ℕ) (S : ℕ → Prop) : Changed m m d S :=
  ⟨rfl, fun _ _ ↦ rfl, rfl, fun _ _ _ ↦ rfl⟩

theorem trans (h : Changed m m' d S) (h' : Changed m' m'' d S) : Changed m m'' d S :=
  ⟨h'.ndirs.trans h.ndirs, fun d' hd ↦ (h'.other d' hd).trans (h.other d' hd),
    h'.isSome.trans h.isSome, fun va hva hS ↦ (h'.pte va hva hS).trans (h.pte va hva hS)⟩

theorem mono (h : Changed m m' d S) (hST : ∀ va, S va → T va) : Changed m m' d T :=
  ⟨h.ndirs, h.other, h.isSome, fun va hva hT ↦ h.pte va hva fun hS ↦ hT (hST va hS)⟩

/-- The entries of the other directories are as they were. -/
theorem pte_other (h : Changed m m' d S) {d' : ℕ} (hd : d' ≠ d) (va : ℕ) :
    m'.pte d' va = m.pte d' va := by
  rw [Mem.pte, Mem.pte, h.other d' hd]

theorem isSome_dir (h : Changed m m' d S) (d' : ℕ) : (m'.dir d').isSome = (m.dir d').isSome := by
  rcases eq_or_ne d' d with rfl | hd
  · exact h.isSome
  · rw [h.other d' hd]

/-- Only the free list has changed. -/
theorem of_dir (hn : m'.ndirs = m.ndirs) (h : m'.dir = m.dir) : Changed m m' d S :=
  ⟨hn, fun d' _ ↦ by rw [h], by rw [h], fun va _ _ ↦ by rw [Mem.pte, Mem.pte, h]⟩

/-- One directory has been rewritten. -/
theorem of_update {pd pd' : PageDir} (hn : m'.ndirs = m.ndirs) (hpd : m.dir d = some pd)
    (h : m'.dir = update m.dir d (some pd'))
    (hpte : ∀ va, UserPage va → ¬S va → pd'.pte va = pd.pte va) : Changed m m' d S := by
  have hd : m'.dir d = some pd' := by rw [h, update_self]
  refine ⟨hn, fun d' hd' ↦ by rw [h, update_of_ne hd'], by rw [hd, hpd]; rfl, ?_⟩
  intro va hva hS
  rw [Mem.pte_of_dir hd, Mem.pte_of_dir hpd, hpte va hva hS]

/-- What is left without the directory is as it was. -/
theorem update_none (h : Changed m m' d S) : update m'.dir d none = update m.dir d none := by
  funext d'
  rcases eq_or_ne d' d with rfl | hne
  · rw [update_self, update_self]
  · rw [update_of_ne hne, update_of_ne hne, h.other d' hne]

end Changed

/-- Between `m` and `m'` only entries of the directory `d` have changed. -/
def OnlyDir (d : ℕ) (m m' : Mem) : Prop := Changed m m' d fun _ ↦ True

instance (d : ℕ) : IsPreorder Mem (OnlyDir d) where
  refl m := Changed.refl m d _
  trans _ _ _ := Changed.trans

theorem Changed.only (h : Changed m m' d S) : OnlyDir d m m' :=
  h.mono fun _ _ ↦ trivial

/-- The directory `d` has been rewritten. -/
theorem OnlyDir.of_update (hpd : m.dir d = some pd) (pd' : PageDir) :
    OnlyDir d m { m with dir := update m.dir d (some pd') } :=
  Changed.of_update rfl hpd rfl fun _ _ h ↦ absurd trivial h

/-! ### Pages that are present -/

/-- The page at `va` is present in directory `d`. -/
def Mem.Present (m : Mem) (d va : ℕ) : Prop := (m.pte d va).isSome = true

/-- Between `m` and `m'` only pages of the directory `d` at addresses in `S` may have come or gone. -/
structure Pages (m m' : Mem) (d : ℕ) (S : ℕ → Prop) : Prop where
  ndirs : m'.ndirs = m.ndirs
  dir : ∀ d', (m'.dir d').isSome = (m.dir d').isSome
  present : ∀ d' va, UserPage va → (d' ≠ d ∨ ¬S va) → (m'.Present d' va ↔ m.Present d' va)

namespace Pages

variable {m m' m'' : Mem} {d : ℕ} {S : ℕ → Prop}

theorem trans (h : Pages m m' d S) (h' : Pages m' m'' d S) : Pages m m'' d S :=
  ⟨h'.ndirs.trans h.ndirs, fun d' ↦ (h'.dir d').trans (h.dir d'),
    fun d' va hva hd ↦ (h'.present d' va hva hd).trans (h.present d' va hva hd)⟩

theorem of_dir (hn : m'.ndirs = m.ndirs) (h : m'.dir = m.dir) : Pages m m' d S :=
  ⟨hn, fun d' ↦ by rw [h], fun d' va _ _ ↦ by rw [Mem.Present, Mem.Present, Mem.pte, Mem.pte, h]⟩

end Pages

theorem Changed.pages (h : Changed m m' d S) : Pages m m' d S := by
  refine ⟨h.ndirs, h.isSome_dir, fun d' va hva hor ↦ ?_⟩
  rcases eq_or_ne d' d with rfl | hd
  · rw [Mem.Present, Mem.Present, h.pte va hva (hor.resolve_left (fun h ↦ h rfl))]
  · rw [Mem.Present, Mem.Present, h.pte_other hd]

/-- Entries have changed, but pages have neither come nor gone. -/
theorem Changed.pages_of_iff {T : ℕ → Prop} (h : Changed m m' d S)
    (hiff : ∀ va, UserPage va → (m'.Present d va ↔ m.Present d va)) : Pages m m' d T := by
  refine ⟨h.ndirs, h.isSome_dir, fun d' va hva _ ↦ ?_⟩
  rcases eq_or_ne d' d with rfl | hd
  · exact hiff va hva
  · rw [Mem.Present, Mem.Present, h.pte_other hd]

/-! ### A directory that is made -/

/-- The directories that have been made are the ones below `ndirs`. -/
def Mem.Wf (m : Mem) : Prop := ∀ d, (m.dir d).isSome → d < m.ndirs

theorem OnlyDir.wf (h : OnlyDir d m m') (hwf : m.Wf) : m'.Wf := by
  intro d' hd'
  rw [h.isSome_dir] at hd'
  rw [h.ndirs]
  exact hwf d' hd'

theorem Mem.Wf.dir_ndirs (h : m.Wf) : m.dir m.ndirs = none := by
  rw [← Option.not_isSome_iff_eq_none]
  exact fun hd ↦ lt_irrefl _ (h _ hd)

/-- What making a directory does: it is new and its user half is empty, or there is none. -/
structure Made (m m' : Mem) (r : Option ℕ) : Prop where
  eq : ∀ d, r = some d → d = m.ndirs ∧ (m'.dir d).isSome
  /-- If there is none, then no directory is there that was not there before. -/
  none : r = none → m'.dir m.ndirs = none
  other : ∀ d, d ≠ m.ndirs → m'.dir d = m.dir d
  ndirs : m.ndirs ≤ m'.ndirs
  lt : ∀ d, (m'.dir d).isSome → d < m'.ndirs

section

variable {m m₁ m₂ : Mem} {d : ℕ}

/-- None has been made. -/
theorem made_of_dir (hwf : m.Wf) (hn : m₁.ndirs = m.ndirs) (hdir : m₁.dir = m.dir) :
    Made m m₁ none := by
  refine ⟨nofun, fun _ ↦ by rw [hdir, hwf.dir_ndirs], fun _ _ ↦ by rw [hdir], hn.ge, ?_⟩
  rw [hdir, hn]
  exact hwf

/-- A directory that has been made is new, and there are no others that were not there. -/
theorem made_of_onlyDir (h : Made m m₁ (some d)) (h' : OnlyDir d m₁ m₂) : Made m m₂ (some d) := by
  have hd := (h.eq d rfl).1
  refine ⟨fun d' hd' ↦ ?_, nofun, fun d' hne ↦ ?_, h'.ndirs ▸ h.ndirs, ?_⟩
  · obtain rfl := Option.some.inj hd'
    refine ⟨hd, ?_⟩
    rw [h'.isSome]
    exact (h.eq d rfl).2
  · rw [h'.other d' (hd ▸ hne), h.other d' hne]
  · exact h'.wf h.lt

/-- A directory that has been made and freed again. -/
theorem made_of_freed {r : Option ℕ} (h : Made m m₁ r) (hn : m₂.ndirs = m₁.ndirs)
    (hdir : m₂.dir = update m₁.dir m.ndirs none) : Made m m₂ none := by
  refine ⟨nofun, fun _ ↦ by rw [hdir, update_self], fun d hd ↦ ?_, hn ▸ h.ndirs, fun d hd ↦ ?_⟩
  · rw [hdir, update_of_ne hd, h.other d hd]
  · rw [hn]
    refine h.lt d ?_
    rcases eq_or_ne d m.ndirs with rfl | hne
    · rw [hdir, update_self] at hd
      cases hd
    · rwa [hdir, update_of_ne hne] at hd

end

/-! ### `kalloc`, `walkpgdir` and `mappages` -/

section

variable {m : Mem} {d : ℕ}

variable {E : Fault → Prop} {va : ℕ}

/-- The directory that is there is found. -/
theorem pageDir_sat {pd : PageDir} {Q : PageDir → Mem → Prop} (hpd : m.dir d = some pd) (h : Q pd m) :
    (pageDir d).Sat m Q E := by
  rw [pageDir, sat_get_bind]
  simp only [hpd]
  exact h

theorem pageDir_sat_or {Q : PageDir → Mem → Prop} (hE : E .dangling) (h : ∀ pd, m.dir d = some pd → Q pd m) :
    (pageDir d).Sat m Q E := by
  rw [pageDir, sat_get_bind]
  cases hd : m.dir d with
  | none => exact hE
  | some pd => exact h pd hd

theorem keeps_pageDir {r : Mem → Mem → Prop} [IsPreorder Mem r] (d' : ℕ) : (pageDir d').Keeps r :=
  fun m ↦ pageDir_sat_or trivial fun _ _ ↦ refl m

/-- `kalloc` takes the first page of the free list. -/
theorem kalloc_takes : kalloc.Sat m (fun r m' ↦ r = m.freelist.head? ∧
    m' = { m with freelist := m.freelist.tail }) E := by
  rw [kalloc, sat_get_bind]
  cases h : m.freelist with
  | nil => exact ⟨rfl, by rw [List.tail_nil, ← h]⟩
  | cons r next => exact ⟨rfl, rfl⟩

theorem kalloc_sat : kalloc.Sat m (fun _ m' ↦ m'.ndirs = m.ndirs ∧ m'.dir = m.dir) E := by
  refine kalloc_takes.imp ?_
  rintro _ _ ⟨-, rfl⟩
  exact ⟨rfl, rfl⟩

/-- `kfree` puts a page of the allocator on the free list, and panics at any other one. -/
theorem sat_kfree {v : ℕ} {Q : Unit → Mem → Prop} (hE : ¬m.Managed v → E (.panic .kfree))
    (h : m.Managed v → Q () { m with freelist := v :: m.freelist, data := update m.data v fun _ ↦ 1 }) :
    (kfree v).Sat m Q E := by
  rw [kfree, sat_get_bind]
  split
  next hv => exact h hv
  next hv => exact hE hv

theorem kfree_sat {v : ℕ} (hE : E (.panic .kfree)) :
    (kfree v).Sat m (fun _ m' ↦ m'.ndirs = m.ndirs ∧ m'.dir = m.dir) E :=
  sat_kfree (fun _ ↦ hE) fun _ ↦ ⟨rfl, rfl⟩

/-- `walkpgdir` with `alloc` makes sure that there is a page table, and changes no entry. -/
theorem walkpgdir_alloc_sat (hd : (m.dir d).isSome) :
    (walkpgdir d va true).Sat m (fun r m' ↦ Changed m m' d (fun _ ↦ False) ∧
      (r = true → ∃ pd, m'.dir d = some pd ∧ (pd.table (PDX va)).isSome)) E := by
  obtain ⟨pd, hpd⟩ := Option.isSome_iff_exists.1 hd
  unfold walkpgdir
  refine sat_bind.2 (pageDir_sat hpd ?_)
  split
  next ht => exact ⟨.refl .., fun _ ↦ ⟨pd, hpd, ht⟩⟩
  next ht =>
    refine kalloc_sat.bind ?_
    intro r m₁ hm₁
    have hpd₁ : m₁.dir d = some pd := by rw [hm₁.2, hpd]
    cases r with
    | none => exact ⟨.of_dir hm₁.1 hm₁.2, nofun⟩
    | some pgtab =>
      refine ⟨?_, fun _ ↦ ⟨_, update_self .., ?_⟩⟩
      · refine (Changed.of_dir hm₁.1 hm₁.2).trans (.of_update rfl hpd₁ rfl ?_)
        intro va' _ _
        -- The new page table has no entries, and before there was no page table.
        rw [Bool.not_eq_true, Option.isSome_eq_false_iff, Option.isNone_iff_eq_none] at ht
        show (update pd.table (PDX va) _ (PDX va')).bind _ = _
        rcases eq_or_ne (PDX va') (PDX va) with h | h
        · rw [h, update_self, PageDir.pte, h, ht]
          rfl
        · rw [update_of_ne h]
          rfl
      · dsimp only
        rw [update_self]
        rfl

/-- `walkpgdir` without `alloc` only looks. -/
theorem walkpgdir_eq (d va : ℕ) :
    walkpgdir d va false = pageDir d >>= fun pd ↦ return (pd.table (PDX va)).isSome := by
  unfold walkpgdir
  congr 1
  funext pd
  rw [if_neg Bool.false_ne_true]
  split
  next ht => rw [ht]
  next ht => rw [Bool.eq_false_iff.2 ht]

theorem walkpgdir_sat {pd : PageDir} (hpd : m.dir d = some pd) :
    (walkpgdir d va false).Sat m (fun r m' ↦ m' = m ∧ r = (pd.table (PDX va)).isSome) E := by
  rw [walkpgdir_eq]
  exact sat_bind.2 (pageDir_sat hpd ⟨rfl, rfl⟩)

theorem walkpgdir_sat_or : (walkpgdir d va false).Sat m (fun r m' ↦ m' = m ∧
    ∃ pd, m.dir d = some pd ∧ r = (pd.table (PDX va)).isSome) fun e ↦ e = .dangling := by
  rw [walkpgdir_eq]
  exact sat_bind.2 (pageDir_sat_or rfl fun pd hpd ↦ ⟨rfl, pd, hpd, rfl⟩)

/-- `mappages` fills one entry or changes none, and panics if the entry was in use. -/
theorem mappages_sat {page : ℕ} {w u : Bool} (hva : UserPage va) (hd : (m.dir d).isSome) :
    (mappages d va page w u).Sat m (fun r m' ↦ Changed m m' d (fun a ↦ r = true ∧ a = va) ∧
        (r = true → m.pte d va = none ∧ m'.pte d va = some ⟨page, w, u⟩))
      fun e ↦ e = .panic .remap ∧ (m.pte d va).isSome := by
  unfold mappages
  refine (walkpgdir_alloc_sat hd).bind ?_
  intro r m₁ ⟨hch, hr⟩
  cases r with
  | false => exact ⟨hch.mono fun _ h ↦ h.elim, nofun⟩
  | true =>
    obtain ⟨pd, hpd, ht⟩ := hr rfl
    refine sat_bind.2 (pageDir_sat hpd ?_)
    have hpte : m.pte d va = pd.pte va := by rw [← hch.pte va hva id, Mem.pte_of_dir hpd]
    split
    next h => exact ⟨rfl, by rw [hpte, h]⟩
    next h =>
      refine ⟨(hch.mono fun _ h ↦ h.elim).trans (.of_update rfl hpd rfl ?_), fun _ ↦ ⟨?_, ?_⟩⟩
      · intro a ha hne
        rw [PageDir.pte_setPte hva ha ht, if_neg fun h ↦ hne ⟨rfl, h⟩]
      · rw [hpte, Option.not_isSome_iff_eq_none.1 h]
      · rw [Mem.pte_of_dir (update_self ..), PageDir.pte_setPte hva hva ht, if_pos rfl]

/-- Pages have been taken from the free list, and no page has been written to. -/
structure Takes (m m' : Mem) : Prop where
  data : m'.data = m.data
  free : m'.freelist <:+ m.freelist

instance : IsPreorder Mem Takes where
  refl _ := ⟨rfl, List.suffix_refl _⟩
  trans _ _ _ h h' := ⟨h'.data.trans h.data, h'.free.trans h.free⟩

theorem takes_walkpgdir (va : ℕ) (alloc : Bool) : (walkpgdir d va alloc).Keeps Takes := by
  have hkalloc : kalloc.Keeps Takes := by
    refine fun m ↦ kalloc_takes.imp ?_
    rintro _ _ ⟨-, rfl⟩
    exact ⟨rfl, List.tail_suffix _⟩
  rw [walkpgdir]
  refine (keeps_pageDir d).bind fun pd ↦ .ite (.pure _) (.ite (hkalloc.bind fun r ↦ ?_) (.pure _))
  cases r with
  | none => exact .pure _
  | some pgtab => exact fun m ↦ ⟨rfl, List.suffix_refl _⟩

theorem takes_mappages (va page : ℕ) (w u : Bool) : (mappages d va page w u).Keeps Takes := by
  rw [mappages]
  refine (takes_walkpgdir va true).bind fun r ↦ .ite ((keeps_pageDir d).bind fun pd ↦ ?_) (.pure _)
  exact .ite (.fail _) fun m ↦ ⟨rfl, List.suffix_refl _⟩

end

/-! ### New pages -/

/-- From `m` to `m'` the page `p` has been taken and filled, and then `mappages` has mapped it at `a` or
not. -/
structure NewPage (m m' : Mem) (d a p : ℕ) (bytes : ℕ → BitVec 8) (w u r : Bool) : Prop where
  changed : Changed m m' d fun va ↦ r = true ∧ va = a
  entry : r = true → m.pte d a = none ∧ m'.pte d a = some ⟨p, w, u⟩
  mem : p ∈ m.freelist
  free : ∀ x, x ∈ m'.freelist → x ∈ m.freelist
  nodup : m.freelist.Nodup → m'.freelist.Nodup ∧ p ∉ m'.freelist
  data : m'.data = update m.data p bytes

/-- The entry for `va` was clear, and is for a new page that contains `bytes`. -/
def NewAt (m m' : Mem) (d va : ℕ) (w u : Bool) (bytes : ℕ → BitVec 8) : Prop :=
  m.pte d va = none ∧ ∃ p, m'.pte d va = some ⟨p, w, u⟩ ∧ (m.freelist.Nodup → m'.data p = bytes)

section

variable {m m' m'' : Mem} {d a p va : ℕ} {bytes : ℕ → BitVec 8} {w u : Bool}

theorem newPage_sat {m₁ : Mem} (ha : UserPage a) (hd : (m.dir d).isSome)
    (hp : some p = m.freelist.head?)
    (hm₁ : m₁ = { m with freelist := m.freelist.tail, data := update m.data p bytes }) :
    (mappages d a p w u).Sat m₁ (fun r m' ↦ NewPage m m' d a p bytes w u r)
      fun e ↦ e = .panic .remap ∧ (m.pte d a).isSome := by
  have hfree : m.freelist = p :: m₁.freelist := by
    rw [hm₁]
    exact List.eq_cons_of_mem_head? hp.symm
  have hch₁ : Changed m m₁ d fun _ ↦ False := by
    rw [hm₁]
    exact .of_dir rfl rfl
  refine ((mappages_sat ha (hch₁.isSome ▸ hd)).and (takes_mappages a p w u _)).mono ?_ fun e h ↦ ?_
  · intro r m' ⟨⟨hch, hentry⟩, htakes⟩
    rw [hch₁.pte a ha id] at hentry
    refine ⟨(hch₁.mono fun _ h ↦ h.elim).trans hch, hentry, ?_, fun x hx ↦ ?_, fun hnd ↦ ?_, ?_⟩
    · exact hfree ▸ List.mem_cons_self
    · exact hfree ▸ List.mem_cons_of_mem _ (htakes.free.subset hx)
    · rw [hfree, List.nodup_cons] at hnd
      exact ⟨hnd.2.sublist htakes.free.sublist, fun h ↦ hnd.1 (htakes.free.subset h)⟩
    · rw [htakes.data, hm₁]
  · rw [← hch₁.pte a ha id]
    exact h.1

theorem NewPage.data_of_notMem {r : Bool} (h : NewPage m m' d a p bytes w u r) {x : ℕ}
    (hx : x ∉ m.freelist) : m'.data x = m.data x := by
  rw [h.data]
  exact update_of_ne (fun hxp : x = p ↦ hx (hxp ▸ h.mem)) ..

/-- The new page stays if only free pages are written to. -/
theorem NewPage.newAt (h : NewPage m m' d a p bytes w u true) (hpte : m''.pte d a = m'.pte d a)
    (hdata : ∀ x, x ∉ m'.freelist → m''.data x = m'.data x) : NewAt m m'' d a w u bytes := by
  refine ⟨(h.entry rfl).1, p, by rw [hpte, (h.entry rfl).2], fun hnd ↦ ?_⟩
  rw [hdata p (h.nodup hnd).2, h.data]
  exact update_self ..

theorem NewAt.of_newPage {w' u' r : Bool} {bytes' : ℕ → BitVec 8} (hn : NewAt m' m'' d va w' u' bytes')
    (h : NewPage m m' d a p bytes w u r) (hva : UserPage va) : NewAt m m'' d va w' u' bytes' := by
  obtain ⟨hnone, q, hq, hdata⟩ := hn
  refine ⟨?_, q, hq, fun hnd ↦ hdata (h.nodup hnd).1⟩
  by_cases hva' : r = true ∧ va = a
  · rw [hva'.2, (h.entry hva'.1).2] at hnone
    cases hnone
  · rw [← h.changed.pte va hva hva', hnone]

theorem NewAt.present (h : NewAt m m' d va w u bytes) : m'.Present d va := by
  obtain ⟨-, q, hq, -⟩ := h
  rw [Mem.Present, hq]
  rfl

end

/-! ### Pages that may be written to -/

/-- The page `x` is free, or it is the one of an entry of `d` at an address in `S`. -/
def Mem.Loose (m : Mem) (d : ℕ) (S : ℕ → Prop) (x : ℕ) : Prop :=
  x ∈ m.freelist ∨ ∃ va e, UserPage va ∧ S va ∧ m.pte d va = some e ∧ e.page = x

/-- From `m` to `m'` no page has come to be loose, and only loose ones have been written to. -/
structure Within (m m' : Mem) (d : ℕ) (S : ℕ → Prop) : Prop where
  loose : ∀ x, m'.Loose d S x → m.Loose d S x
  data : ∀ x, ¬m.Loose d S x → m'.data x = m.data x

namespace Within

variable {m m' m'' : Mem} {d v : ℕ} {S : ℕ → Prop}

theorem refl (m : Mem) (d : ℕ) (S : ℕ → Prop) : Within m m d S := ⟨fun _ h ↦ h, fun _ _ ↦ rfl⟩

theorem trans (h : Within m m' d S) (h' : Within m' m'' d S) : Within m m'' d S :=
  ⟨fun x hx ↦ h.loose x (h'.loose x hx),
    fun x hx ↦ (h'.data x fun hx' ↦ hx (h.loose x hx')).trans (h.data x hx)⟩

theorem fill (h : Within m m' d S) (hv : m.Loose d S v) (bytes : ℕ → BitVec 8) :
    Within m { m' with data := update m'.data v bytes } d S :=
  ⟨h.loose, fun x hx ↦ (update_of_ne (fun hxv : x = v ↦ hx (hxv ▸ hv)) ..).trans (h.data x hx)⟩

theorem kfree (h : Within m m' d S) (hv : m.Loose d S v) :
    Within m { m' with freelist := v :: m'.freelist, data := update m'.data v fun _ ↦ 1 } d S := by
  refine ⟨?_, (h.fill hv _).data⟩
  rintro x (hx | hx)
  · rcases List.mem_cons.1 hx with rfl | hx
    · exact hv
    · exact h.loose x (.inl hx)
  · exact h.loose x (.inr hx)

/-- An entry is cleared. -/
theorem clear {a : ℕ} (h : Within m m' d S) (hfree : m''.freelist = m'.freelist)
    (hdata : m''.data = m'.data) (hch : Changed m' m'' d fun va ↦ va = a) (ha : m''.pte d a = none) :
    Within m m'' d S := by
  refine ⟨?_, fun x hx ↦ by rw [hdata, h.data x hx]⟩
  rintro x (hx | ⟨va, e, hva, hS, he, hpage⟩)
  · exact h.loose x (.inl (hfree ▸ hx))
  · have hne : va ≠ a := by
      rintro rfl
      cases ha.symm.trans he
    exact h.loose x (.inr ⟨va, e, hva, hS, by rw [← hch.pte va hva hne, he], hpage⟩)

/-- A page is taken and perhaps mapped. -/
theorem newPage {a p : ℕ} {bytes : ℕ → BitVec 8} {w u r : Bool} (h : NewPage m m' d a p bytes w u r) :
    Within m m' d S := by
  refine ⟨?_, fun x hx ↦ h.data_of_notMem fun hmem ↦ hx (.inl hmem)⟩
  rintro x (hx | ⟨va, e, hva, hS, he, rfl⟩)
  · exact .inl (h.free x hx)
  · by_cases hva' : r = true ∧ va = a
    · obtain ⟨hr, rfl⟩ := hva'
      obtain rfl := Option.some.inj ((h.entry hr).2.symm.trans he)
      exact .inl h.mem
    · exact .inr ⟨va, e, hva, hS, by rw [← h.changed.pte va hva hva', he], rfl⟩

end Within

/-! ### `deallocuvm` -/

/-- From `m` to `m'` the entries of `d` from `a` to `b` have been cleared. -/
structure Cleared (m m' : Mem) (d a b : ℕ) : Prop where
  changed : Changed m m' d fun va ↦ a ≤ va ∧ va < b
  clear : ∀ va, UserPage va → a ≤ va → va < b → m'.pte d va = none
  within : ∀ S, (∀ va, a ≤ va → va < b → S va) → Within m m' d S

section

variable {m : Mem} {d : ℕ}

variable {a oldsz newsz : ℕ}

theorem cleared_of_le (m : Mem) (d : ℕ) {b : ℕ} (h : b ≤ a) : Cleared m m d a b :=
  ⟨.refl .., fun _ _ h1 h2 ↦ absurd (h1.trans_lt h2) (Nat.not_lt.2 h), fun _ _ ↦ .refl ..⟩

/-- A turn of the loop of `deallocuvm` if it visits every page. -/
def deallocPage (d a : ℕ) : VM Unit := do
  let pd ← pageDir d
  match pd.pte a with
  | none => return ()
  | some e => freePte d a pd e

/-- The memory when the page of the entry `e` at `a` has been freed. -/
def Mem.freed (m : Mem) (d a : ℕ) (pd : PageDir) (e : Pte) : Mem :=
  { m with
    freelist := e.page :: m.freelist
    dir := update m.dir d (some (pd.setPte a none))
    data := update m.data e.page fun _ ↦ 1 }

/-- An entry is freed if its page is one of the allocator's. Page 0 is not. -/
theorem run_freePte (d a : ℕ) (pd : PageDir) {e : Pte} (he : m.Managed e.page) :
    (freePte d a pd e).run m = .ok ((), m.freed d a pd e) := by
  rw [freePte, if_neg (Nat.ne_zero_of_lt he.1), kfree, bind_assoc, run_bind_of_ok run_get, if_pos he]
  rfl

theorem run_freePte_of_not (d a : ℕ) (pd : PageDir) {e : Pte} (he : ¬m.Managed e.page) :
    (freePte d a pd e).run m = .error (.panic .kfree) := by
  rw [freePte]
  split
  · rfl
  · rw [kfree, bind_assoc, run_bind_of_ok run_get, if_neg he]
    rfl

theorem sat_freePte {pd : PageDir} {e : Pte} {Q : Unit → Mem → Prop} {E : Fault → Prop}
    (hE : ¬m.Managed e.page → E (.panic .kfree)) (h : m.Managed e.page → Q () (m.freed d a pd e)) :
    (freePte d a pd e).Sat m Q E := by
  rw [Sat]
  by_cases he : m.Managed e.page
  · rw [run_freePte _ _ _ he]
    exact h he
  · rw [run_freePte_of_not _ _ _ he]
    exact hE he

section

variable {pd : PageDir} (hpd : m.dir d = some pd)

include hpd

theorem run_pageDir : (pageDir d).run m = .ok (pd, m) := by
  rw [pageDir, run_bind_of_ok run_get, hpd]
  rfl

theorem run_deallocPage_none (h : pd.pte a = none) : (deallocPage d a).run m = .ok ((), m) := by
  rw [deallocPage, run_bind_of_ok (run_pageDir hpd), h]
  rfl

theorem run_deallocPage_some {e : Pte} (h : pd.pte a = some e) :
    (deallocPage d a).run m = (freePte d a pd e).run m := by
  rw [deallocPage, run_bind_of_ok (run_pageDir hpd), h]

/-- Where there is no page table, the pages need not be visited. -/
theorem forEach_deallocPage_skip (k : ℕ) (h : ∀ i < k, pd.pte (a + i * PGSIZE) = none) :
    (Prog.forEach (pagesFrom a oldsz) (deallocPage d)).run m =
      (Prog.forEach (pagesFrom (a + k * PGSIZE) oldsz) (deallocPage d)).run m := by
  induction k generalizing a with
  | zero => rw [Nat.zero_mul, Nat.add_zero]
  | succ k ih =>
    rcases Nat.lt_or_ge a oldsz with hlt | hge
    · have hnone := h 0 (Nat.succ_pos k)
      rw [Nat.zero_mul, Nat.add_zero] at hnone
      rw [pagesFrom_cons hlt, run_forEach_of_ok _ (run_deallocPage_none hpd hnone), Nat.add_one_mul,
        Nat.add_comm (k * PGSIZE), ← Nat.add_assoc]
      refine ih fun i hi ↦ ?_
      have hi' := h (i + 1) (Nat.succ_lt_succ hi)
      rwa [Nat.add_one_mul, Nat.add_comm (i * PGSIZE), ← Nat.add_assoc] at hi'
    · rw [pagesFrom_of_le hge, pagesFrom_of_le (hge.trans (Nat.le_add_right ..))]

end

/-- The loop of `deallocuvm` does what the loop does that visits every page. -/
theorem deallocPages_eq {n k : ℕ} (hold : oldsz ≤ KERNBASE) (ha : PGSIZE ∣ a) (hn : oldsz ≤ a + n * PGSIZE)
    (hk : n < k) :
    (deallocPages d oldsz k a).run m = (Prog.forEach (pagesFrom a oldsz) (deallocPage d)).run m := by
  induction k generalizing m a n with
  | zero => exact absurd hk (Nat.not_lt_zero n)
  | succ k ih =>
    rw [deallocPages]
    split
    next hlt =>
      obtain ⟨n, rfl⟩ := Nat.exists_eq_add_one_of_ne_zero fun h : n = 0 ↦ by rw [h] at hn; omega
      rw [Nat.add_one_mul] at hn
      have hk := Nat.lt_of_succ_lt_succ hk
      have hnext := fun m ↦ ih (m := m) (a := a + PGSIZE) ((Nat.dvd_add_right ha).2 (Nat.dvd_refl _)) (by omega) hk
      cases hpd : m.dir d with
      | none =>
        have hdir : (pageDir d).run m = .error .dangling := by
          rw [pageDir, run_bind_of_ok run_get, hpd]
          rfl
        rw [run_bind_of_error hdir, pagesFrom_cons hlt, run_forEach_of_error]
        rw [deallocPage, run_bind_of_error hdir]
      | some pd =>
        rw [run_bind_of_ok (run_pageDir hpd)]
        split
        next ht =>
          -- The jump passes addresses with the same directory entry, which is absent.
          obtain ⟨j, rfl⟩ := ha
          obtain ⟨l, hj⟩ : ∃ l, PGADDR (PDX (PGSIZE * j) + 1) 0 0 = PGSIZE * j + l * PGSIZE :=
            ⟨(PDX (PGSIZE * j) + 1) * 1024 - j, by simp only [PGADDR, PDX, KERNBASE, PGSIZE] at *; omega⟩
          rw [ih ⟨(PDX (PGSIZE * j) + 1) * 1024, by simp only [PGADDR, PGSIZE]; omega⟩ (by
            simp only [PGADDR, PDX, KERNBASE, PGSIZE] at *; omega) hk, hj]
          refine (forEach_deallocPage_skip hpd l fun i hi ↦ ?_).symm
          have hsame : PDX (PGSIZE * j + i * PGSIZE) = PDX (PGSIZE * j) := by
            simp only [PGADDR, PDX, KERNBASE, PGSIZE] at *
            omega
          exact PageDir.pte_eq_none (hsame ▸ ht)
        next t ht =>
          have hpte : pd.pte a = t.pte (PTX a) := by rw [PageDir.pte, ht, Option.bind_some]
          rw [pagesFrom_cons hlt]
          split
          next hnone => rw [run_forEach_of_ok _ (run_deallocPage_none hpd (hpte.trans hnone)), hnext]
          next e he =>
            have hturn := run_deallocPage_some hpd (hpte.trans he)
            by_cases hpage : m.Managed e.page
            · have hfree := run_freePte d a pd hpage
              rw [run_bind_of_ok hfree, run_forEach_of_ok _ (hturn.trans hfree), hnext]
            · have hpanic := run_freePte_of_not d a pd hpage
              rw [run_bind_of_error hpanic, run_forEach_of_error _ (hturn.trans hpanic)]
    next hge => rw [pagesFrom_of_le (Nat.not_lt.1 hge)]; rfl

/-- The entries at `as` have been cleared and their pages freed, each once. -/
structure Freed (m m' : Mem) (d : ℕ) (as : List ℕ) : Prop where
  changed : Changed m m' d fun va ↦ va ∈ as
  clear : ∀ va ∈ as, m'.pte d va = none
  within : ∀ S : ℕ → Prop, (∀ va ∈ as, S va) → Within m m' d S
  freelist : m'.freelist = (as.filterMap fun va ↦ (m.pte d va).map Pte.page).reverse ++ m.freelist
  kend : m'.kend = m.kend

/-- The pages at `as` are the allocator's. -/
def MapsManaged (m : Mem) (d : ℕ) (as : List ℕ) : Prop :=
  ∀ va ∈ as, ∀ e, m.pte d va = some e → m.Managed e.page

theorem deallocPage_sat (ha : UserPage a) (hd : (m.dir d).isSome) : (deallocPage d a).Sat m
    (fun _ m' ↦ Freed m m' d [a]) fun e ↦ e = .panic .kfree ∧ ¬MapsManaged m d [a] := by
  obtain ⟨pd, hpd⟩ := Option.isSome_iff_exists.1 hd
  have hpte : m.pte d a = pd.pte a := Mem.pte_of_dir hpd a
  rw [Sat]
  cases h : pd.pte a with
  | none =>
    rw [run_deallocPage_none hpd h]
    refine ⟨.refl .., fun va hva ↦ ?_, fun S _ ↦ .refl .., ?_, rfl⟩
    · rw [List.mem_singleton.1 hva, hpte, h]
    · rw [List.filterMap_cons_none (by rw [hpte, h]; rfl)]
      rfl
  | some e =>
    rw [run_deallocPage_some hpd h]
    refine sat_freePte (fun hpage ↦ ⟨rfl, fun hall ↦ ?_⟩) fun _ ↦ ?_
    · exact hpage (hall a (List.mem_singleton_self a) e (hpte.trans h))
    · have hsome : (pd.table (PDX a)).isSome := by
        by_contra hnone
        rw [PageDir.pte, Option.not_isSome_iff_eq_none.1 hnone] at h
        cases h
      have hother : ∀ va, UserPage va → va ≠ a → (pd.setPte a none).pte va = pd.pte va := by
        intro va hva hne
        rw [PageDir.pte_setPte ha hva hsome, if_neg hne]
      have hself : (m.freed d a pd e).pte d a = none := by
        rw [Mem.pte_of_dir (update_self ..), PageDir.pte_setPte ha ha hsome, if_pos rfl]
      refine ⟨.of_update rfl hpd rfl fun va hva hne ↦ hother va hva (mt List.mem_singleton.2 hne),
        fun va hva ↦ List.mem_singleton.1 hva ▸ hself, fun S hS ↦ ?_, ?_, rfl⟩
      · have hloose : m.Loose d S e.page := .inr ⟨a, e, ha, hS a (List.mem_singleton_self a), hpte.trans h, rfl⟩
        exact ((Within.refl m d S).kfree hloose).clear rfl rfl (.of_update rfl hpd rfl hother) hself
      · rw [List.filterMap_cons_some (b := e.page) (by rw [hpte, h]; rfl)]
        rfl

/-- The loop that visits every page. -/
theorem forEach_deallocPage_sat {as : List ℕ} (has : ∀ a ∈ as, UserPage a) (hnodup : as.Nodup) (hd : (m.dir d).isSome) :
    (Prog.forEach as (deallocPage d)).Sat m (fun _ m' ↦ Freed m m' d as) fun e ↦
      e = .panic .kfree ∧ ¬MapsManaged m d as := by
  induction as generalizing m with
  | nil => exact ⟨.refl .., nofun, fun _ _ ↦ .refl .., rfl, rfl⟩
  | cons a as ih =>
    obtain ⟨ha, hnodup⟩ := List.nodup_cons.1 hnodup
    refine ((deallocPage_sat (has a List.mem_cons_self) hd).mono (fun _ _ h ↦ h) ?_).bind ?_
    · exact fun e he ↦ ⟨he.1, fun h ↦ he.2 fun va hva ↦ h va (List.mem_singleton.1 hva ▸ List.mem_cons_self)⟩
    · intro _ m₁ h₁
      have hpte : ∀ va ∈ as, m₁.pte d va = m.pte d va := fun va hva ↦
        h₁.changed.pte va (has va (.tail _ hva)) fun h ↦ ha (List.mem_singleton.1 h ▸ hva)
      refine (ih (fun va hva ↦ has va (.tail _ hva)) hnodup (h₁.changed.isSome ▸ hd)).mono ?_ ?_
      · intro _ m₂ h₂
        refine ⟨(h₁.changed.mono fun va h ↦ List.mem_singleton.1 h ▸ List.mem_cons_self).trans
          (h₂.changed.mono fun _ ↦ .tail _), fun va hva ↦ ?_, fun S hS ↦ ?_, ?_, h₂.kend.trans h₁.kend⟩
        · rcases List.mem_cons.1 hva with rfl | hva
          · rw [h₂.changed.pte va (has va List.mem_cons_self) ha, h₁.clear va (List.mem_singleton_self va)]
          · exact h₂.clear va hva
        · refine (h₁.within S fun va h ↦ ?_).trans (h₂.within S fun va h ↦ hS va (.tail _ h))
          exact hS va (List.mem_singleton.1 h ▸ List.mem_cons_self)
        · rw [h₂.freelist, h₁.freelist, List.filterMap_congr fun va hva ↦ by rw [hpte va hva], ← List.append_assoc,
            ← List.reverse_append, ← List.filterMap_append, List.singleton_append]
      · intro e he
        refine ⟨he.1, fun h ↦ he.2 fun va hva e' he' ↦ ?_⟩
        rw [Mem.Managed, h₁.kend]
        exact h va (.tail _ hva) e' (hpte va hva ▸ he')

/-- Whatever the addresses are, `deallocuvm` changes one directory and can stop in two ways only. -/
theorem deallocPages_only {n : ℕ} : (deallocPages d oldsz n a).Sat m (fun _ m' ↦ OnlyDir d m m')
    fun e ↦ e = .dangling ∨ e = .panic .kfree := by
  induction n generalizing m a with
  | zero => exact .inl rfl
  | succ n ih =>
    unfold deallocPages
    split
    · refine sat_bind.2 (pageDir_sat_or (.inl rfl) fun pd hpd ↦ ?_)
      split
      · exact ih
      next t _ =>
        split
        · exact ih
        next e _ =>
          refine sat_bind.2 (sat_freePte (fun _ ↦ .inr rfl) fun _ ↦ ih.imp fun _ m₂ h ↦ ?_)
          have hfreed : OnlyDir d m (m.freed d a pd e) := Changed.of_update rfl hpd rfl fun _ _ h ↦ absurd trivial h
          exact hfreed.trans h
    · exact Changed.refl ..

/-- What `deallocuvm` returns, and how it can stop. -/
theorem deallocuvm_ret :
    (deallocuvm d oldsz newsz).Sat m (fun r _ ↦ r = if oldsz ≤ newsz then oldsz else newsz)
      fun e ↦ e = .dangling ∨ e = .panic .kfree := by
  unfold deallocuvm
  split
  · rfl
  · exact deallocPages_only.bind fun _ _ _ ↦ rfl

/-- `deallocuvm` to a larger size does nothing. -/
theorem deallocuvm_of_ge {Q : ℕ → Mem → Prop} {E : Fault → Prop} (h : oldsz ≤ newsz) (hQ : Q oldsz m) :
    (deallocuvm d oldsz newsz).Sat m Q E := by
  rw [deallocuvm, if_pos h]
  exact hQ

/-- `deallocuvm` makes enough turns. -/
theorem run_deallocuvm (hlt : newsz < oldsz) (hold : oldsz ≤ KERNBASE) : (deallocuvm d oldsz newsz).run m =
    (Prog.forEach (pagesFrom (PGROUNDUP newsz) oldsz) (deallocPage d) >>= fun _ ↦ pure newsz).run m := by
  rw [deallocuvm, if_neg (Nat.not_le.2 hlt)]
  refine run_bind_congr (deallocPages_eq hold (dvd_PGROUNDUP newsz) ?_ (Nat.lt_succ_self _)) _
  have h := Nat.div_add_mod (oldsz - PGROUNDUP newsz) PGSIZE
  have hmod := Nat.mod_lt (oldsz - PGROUNDUP newsz) PGSIZE_pos
  rw [Nat.mul_comm] at h
  rw [Nat.add_mul, Nat.one_mul]
  omega

/-- `deallocuvm` frees the pages from `PGROUNDUP newsz` to `oldsz`. -/
theorem deallocuvm_freed (hlt : newsz < oldsz) (hold : oldsz ≤ KERNBASE) (hd : (m.dir d).isSome) :
    (deallocuvm d oldsz newsz).Sat m
      (fun r m' ↦ r = newsz ∧ Freed m m' d (pagesFrom (PGROUNDUP newsz) oldsz))
      fun e ↦ e = .panic .kfree ∧ ¬MapsManaged m d (pagesFrom (PGROUNDUP newsz) oldsz) := by
  have has : ∀ a ∈ pagesFrom (PGROUNDUP newsz) oldsz, UserPage a := by
    intro a ha
    obtain ⟨hdvd, -, hlt⟩ := (mem_pagesFrom (dvd_PGROUNDUP newsz)).1 ha
    exact ⟨hdvd, hlt.trans_le hold⟩
  rw [Sat, run_deallocuvm hlt hold]
  exact (forEach_deallocPage_sat has (nodup_pagesFrom ..) hd).bind fun _ m' h ↦ ⟨rfl, h⟩

/-- **`deallocuvm` does what a loop over all pages does**, for any page directory. If the pages that are present from
`PGROUNDUP newsz` to `oldsz` are the allocator's, it frees them, each once, clears their entries, leaves the other
entries and returns `newsz`. -/
theorem deallocuvm_plain (hlt : newsz < oldsz) (hold : oldsz ≤ KERNBASE) (hd : (m.dir d).isSome) :
    (deallocuvm d oldsz newsz).run m =
        (Prog.forEach (pagesFrom (PGROUNDUP newsz) oldsz) (deallocPage d) >>= fun _ ↦ pure newsz).run m ∧
      (MapsManaged m d (pagesFrom (PGROUNDUP newsz) oldsz) →
        ∃ m', (deallocuvm d oldsz newsz).run m = .ok (newsz, m') ∧
          Freed m m' d (pagesFrom (PGROUNDUP newsz) oldsz)) := by
  refine ⟨run_deallocuvm hlt hold, fun hpages ↦ ?_⟩
  obtain ⟨_, m', hrun, rfl, hfreed⟩ :=
    ((deallocuvm_freed hlt hold hd).imp_error fun _ h ↦ h.2 hpages).exists_ok
  exact ⟨m', hrun, hfreed⟩

/-- A memory with one directory, which maps the page 7 at the address 4096. -/
def mapsOne : Mem :=
  ⟨[], 1, update (fun _ ↦ none) 0 (some ⟨5, [], update (fun _ ↦ none) 0
    (some ⟨6, update (fun _ ↦ none) 1 (some ⟨7, true, true⟩)⟩)⟩), fun _ _ ↦ 0, 4⟩

/-- The page is freed. -/
theorem deallocuvm_plain_onePage :
    ∃ m', (deallocuvm 0 8192 100).run mapsOne = .ok (100, m') ∧ m'.freelist = [7] := by
  have hpages : MapsManaged mapsOne 0 (pagesFrom (PGROUNDUP 100) 8192) := by
    intro va hva e he
    obtain rfl : va = 4096 := List.mem_singleton.1 hva
    obtain rfl := Option.some.inj he
    decide
  obtain ⟨m', hrun, hfreed⟩ := (deallocuvm_plain (by decide) (by decide) rfl).2 hpages
  exact ⟨m', hrun, hfreed.freelist⟩

/-- `deallocuvm` clears the entries from `newsz` to `oldsz`. -/
theorem deallocuvm_sat (hlt : newsz < oldsz) (hold : oldsz ≤ KERNBASE) (hd : (m.dir d).isSome) :
    (deallocuvm d oldsz newsz).Sat m (fun r m' ↦ r = newsz ∧ Cleared m m' d newsz oldsz)
      fun e ↦ e = .panic .kfree := by
  have hle := le_PGROUNDUP newsz
  have hmem : ∀ va, va ∈ pagesFrom (PGROUNDUP newsz) oldsz ↔ PGSIZE ∣ va ∧ PGROUNDUP newsz ≤ va ∧ va < oldsz :=
    fun va ↦ mem_pagesFrom (dvd_PGROUNDUP newsz)
  refine (deallocuvm_freed hlt hold hd).mono ?_ fun _ h ↦ h.1
  intro r m' ⟨hr, h⟩
  refine ⟨hr, h.changed.mono fun va hva ↦ ?_, fun va hva h1 h2 ↦ ?_, fun S hS ↦ h.within S fun va hva ↦ ?_⟩
  · exact ⟨hle.trans ((hmem va).1 hva).2.1, ((hmem va).1 hva).2.2⟩
  · exact h.clear va ((hmem va).2 ⟨hva.aligned, PGROUNDUP_le hva.aligned h1, h2⟩)
  · exact hS va (hle.trans ((hmem va).1 hva).2.1) ((hmem va).1 hva).2.2

end

/-! ### `allocuvm` -/

section

variable {m : Mem} {d : ℕ}

variable {oldsz newsz : ℕ}

/-- A failed `allocuvm` has cleared entries of its range at most. -/
theorem deallocuvm_undo_sat (hle : oldsz ≤ newsz) (hnew : newsz ≤ KERNBASE) (hd : (m.dir d).isSome) :
    (deallocuvm d newsz oldsz).Sat m (fun _ m' ↦ Cleared m m' d oldsz newsz)
      fun e ↦ e = .panic .kfree := by
  rcases Nat.lt_or_eq_of_le hle with h | rfl
  · exact (deallocuvm_sat h hnew hd).imp fun _ _ h ↦ h.2
  · exact deallocuvm_of_ge le_rfl (cleared_of_le m d le_rfl)

/-- The loop of `allocuvm` over the addresses `as`. -/
theorem allocPages_sat {as : List ℕ} (hle : oldsz ≤ newsz) (hnew : newsz ≤ KERNBASE) (hnodup : as.Nodup)
    (has : ∀ a ∈ as, UserPage a ∧ oldsz ≤ a ∧ a < newsz) (hd : (m.dir d).isSome) :
    (allocPages d oldsz newsz as).Sat m (fun r m' ↦ Changed m m' d (fun va ↦ oldsz ≤ va ∧ va < newsz) ∧
          Within m m' d (fun va ↦ oldsz ≤ va ∧ va < newsz) ∧
          ((r = newsz ∧ (∀ va ∈ as, NewAt m m' d va true true fun _ ↦ 0) ∧
              (∀ x, x ∉ m.freelist → m'.data x = m.data x) ∧
              ∀ va, UserPage va → va ∉ as → m'.pte d va = m.pte d va) ∨
            (r = 0 ∧ ∀ va, UserPage va → oldsz ≤ va → va < newsz → m'.pte d va = none)))
      fun e ↦ e = .panic .kfree ∨ (e = .panic .remap ∧ ∃ a ∈ as, (m.pte d a).isSome) := by
  induction as generalizing m with
  | nil => exact ⟨.refl .., .refl .., .inl ⟨rfl, nofun, fun _ _ ↦ rfl, fun _ _ _ ↦ rfl⟩⟩
  | cons a as ih =>
    obtain ⟨ha, hrange⟩ := has a List.mem_cons_self
    rw [List.nodup_cons] at hnodup
    unfold allocPages
    refine kalloc_takes.bind ?_
    intro r m₀ ⟨hr, hm₀⟩
    cases r with
    | none =>
      have hch₀ : Changed m m₀ d fun va ↦ oldsz ≤ va ∧ va < newsz := hm₀ ▸ .of_dir rfl rfl
      have hin₀ : Within m m₀ d fun va ↦ oldsz ≤ va ∧ va < newsz :=
        hm₀ ▸ ⟨fun x hx ↦ hx.imp_left List.mem_of_mem_tail, fun _ _ ↦ rfl⟩
      refine ((deallocuvm_undo_sat hle hnew (hch₀.isSome ▸ hd)).imp_error fun _ h ↦ .inl h).bind
        fun _ m₁ h ↦ ?_
      exact ⟨hch₀.trans h.changed, hin₀.trans (h.within _ fun _ h1 h2 ↦ ⟨h1, h2⟩), .inr ⟨rfl, h.clear⟩⟩
    | some page =>
      refine sat_modify_bind.2 (((newPage_sat ha hd hr (by rw [hm₀])).mono (fun _ _ h ↦ h) ?_).bind ?_)
      · rintro _ ⟨rfl, h⟩
        exact .inr ⟨rfl, a, List.mem_cons_self, h⟩
      intro r m₁ hpage
      have hd₁ : (m₁.dir d).isSome := by rw [hpage.changed.isSome, hd]
      have hch₁ : Changed m m₁ d fun va ↦ oldsz ≤ va ∧ va < newsz := by
        refine hpage.changed.mono ?_
        rintro va ⟨-, rfl⟩
        exact hrange
      cases r with
      | true =>
        have hold : ∀ va, UserPage va → va ≠ a → m₁.pte d va = m.pte d va :=
          fun va hva hne ↦ hpage.changed.pte va hva fun h ↦ hne h.2
        refine (ih hnodup.2 (fun b hb ↦ has b (List.mem_cons_of_mem _ hb)) hd₁).mono ?_ ?_
        · intro r' m₂ ⟨hch₂, hin₂, hor⟩
          refine ⟨hch₁.trans hch₂, (Within.newPage hpage).trans hin₂, hor.imp ?_ id⟩
          rintro ⟨hr, hall, hdata, hrest⟩
          refine ⟨hr, fun va hva ↦ ?_, fun x hx ↦ ?_, fun va hva hnot ↦ ?_⟩
          · rcases List.mem_cons.1 hva with rfl | h
            · exact hpage.newAt (hrest va ha hnodup.1) hdata
            · exact (hall va h).of_newPage hpage (has va hva).1
          · rw [hdata x fun h ↦ hx (hpage.free x h), hpage.data_of_notMem hx]
          · rw [List.mem_cons, not_or] at hnot
            rw [hrest va hva hnot.2, hold va hva hnot.1]
        · rintro _ (h | ⟨rfl, b, hb, hsome⟩)
          · exact .inl h
          · refine .inr ⟨rfl, b, List.mem_cons_of_mem _ hb, ?_⟩
            rw [← hold b (has b (List.mem_cons_of_mem _ hb)).1 fun h ↦ hnodup.1 (h ▸ hb), hsome]
      | false =>
        refine ((deallocuvm_undo_sat hle hnew hd₁).imp_error fun _ h ↦ .inl h).bind ?_
        intro _ m₂ h
        have hin : Within m m₂ d fun va ↦ oldsz ≤ va ∧ va < newsz :=
          (Within.newPage hpage).trans (h.within _ fun _ h1 h2 ↦ ⟨h1, h2⟩)
        refine sat_bind.2 (sat_kfree (fun _ ↦ .inl rfl) fun _ ↦ ?_)
        exact ⟨hch₁.trans (h.changed.trans (.of_dir rfl rfl)), hin.kfree (.inl hpage.mem),
          .inr ⟨rfl, fun va ↦ h.clear va⟩⟩

/-- `allocuvm` returns `newsz` and has filled the entries from `oldsz` to `newsz`, or returns `0`
and has filled none. -/
theorem allocuvm_sat (hle : oldsz ≤ newsz) (hd : (m.dir d).isSome) :
    (allocuvm d oldsz newsz).Sat m (fun r m' ↦ Changed m m' d (fun va ↦ oldsz ≤ va ∧ va < newsz) ∧
          Within m m' d (fun va ↦ oldsz ≤ va ∧ va < newsz) ∧ ((r = newsz ∧ newsz < KERNBASE ∧
              ∀ va, UserPage va → oldsz ≤ va → va < newsz → NewAt m m' d va true true fun _ ↦ 0) ∨
            (r = 0 ∧ ∀ va, UserPage va → (m'.pte d va).isSome → (m.pte d va).isSome)))
      fun e ↦ e = .panic .kfree ∨ (e = .panic .remap ∧ ∃ va, UserPage va ∧ oldsz ≤ va ∧ va < newsz ∧
          (m.pte d va).isSome) := by
  unfold allocuvm
  split
  · exact ⟨.refl .., .refl .., .inr ⟨rfl, fun _ _ h ↦ h⟩⟩
  next hlt =>
    rw [if_neg (Nat.not_lt.2 hle)]
    rw [ge_iff_le, Nat.not_le] at hlt
    have hmem : ∀ va, va ∈ pagesFrom (PGROUNDUP oldsz) newsz ↔
        PGSIZE ∣ va ∧ oldsz ≤ va ∧ va < newsz := by
      intro va
      rw [mem_pagesFrom (dvd_PGROUNDUP oldsz)]
      exact and_congr_right fun hva ↦ by rw [PGROUNDUP_le_iff hva]
    have hpages : ∀ a ∈ pagesFrom (PGROUNDUP oldsz) newsz,
        UserPage a ∧ oldsz ≤ a ∧ a < newsz := by
      intro a ha
      obtain ⟨h1, h2, h3⟩ := (hmem a).1 ha
      exact ⟨⟨h1, h3.trans hlt⟩, h2, h3⟩
    refine (allocPages_sat hle hlt.le (nodup_pagesFrom ..) hpages hd).mono ?_ ?_
    · intro r m' ⟨hch, hin, hor⟩
      refine ⟨hch, hin, ?_⟩
      rcases hor with ⟨hr, hall, -⟩ | ⟨hr, hnone⟩
      · exact .inl ⟨hr, hlt, fun va hva h1 h2 ↦ hall va ((hmem va).2 ⟨hva.aligned, h1, h2⟩)⟩
      · refine .inr ⟨hr, fun va hva hsome ↦ ?_⟩
        by_cases h : oldsz ≤ va ∧ va < newsz
        · rw [hnone va hva h.1 h.2] at hsome
          cases hsome
        · rwa [hch.pte va hva h] at hsome
    · rintro _ (h | ⟨rfl, a, ha, hsome⟩)
      · exact .inl h
      · obtain ⟨h1, h2, h3⟩ := hpages a ha
        exact .inr ⟨rfl, a, h1, h2, h3, hsome⟩

end

/-! ### `freevm` and `setupkvm` -/

section

variable {m : Mem} {d : ℕ}

/-- Freeing pages leaves the directories alone. -/
theorem forEach_kfree_sat {β : Type} {f : β → VM Unit} {l : List β} {E : Fault → Prop}
    (hf : ∀ b m, (f b).Sat m (fun _ m' ↦ m'.ndirs = m.ndirs ∧ m'.dir = m.dir) E) :
    (forEach l f).Sat m (fun _ m' ↦ m'.ndirs = m.ndirs ∧ m'.dir = m.dir) E := by
  refine Sat.forEach (P := fun _ (t : Mem) ↦ t.ndirs = m.ndirs ∧ t.dir = m.dir) ⟨rfl, rfl⟩ ?_
  intro b _ t ht
  exact (hf b t).imp fun _ u hu ↦ ⟨hu.1.trans ht.1, hu.2.trans ht.2⟩

/-- `freevm` removes the directory and nothing else. -/
theorem freevm_sat (hd : (m.dir d).isSome) : (freevm (some d)).Sat m (fun _ m' ↦ m'.ndirs = m.ndirs ∧
        m'.dir = update m.dir d none) fun e ↦ e = .panic .kfree := by
  unfold freevm
  generalize List.range NUPDENTRIES = is
  refine (deallocuvm_sat (by decide) le_rfl hd).bind ?_
  intro _ m₁ ⟨_, hclear⟩
  have hch := hclear.changed
  obtain ⟨pd, hpd⟩ := Option.isSome_iff_exists.1 (hch.isSome ▸ hd)
  refine sat_bind.2 (pageDir_sat hpd ?_)
  refine (forEach_kfree_sat ?_).bind ?_
  · intro i m'
    cases pd.table i with
    | none => exact ⟨rfl, rfl⟩
    | some t => exact kfree_sat rfl
  intro _ m₂ h₂
  refine (forEach_kfree_sat (E := fun e ↦ e = .panic .kfree) fun v m' ↦ kfree_sat rfl).bind ?_
  intro _ m₃ h₃
  refine sat_bind.2 (sat_kfree (fun _ ↦ rfl) fun _ ↦ ?_)
  refine ⟨h₃.1.trans (h₂.1.trans hch.ndirs), ?_⟩
  show update m₃.dir d none = _
  rw [h₃.2, h₂.2, hch.update_none]

/-- The page tables of the kernel half do not show in the user half. -/
theorem kernelTables_sat {n : ℕ} {E : Fault → Prop} (hd : (m.dir d).isSome) :
    (kernelTables d n).Sat m (fun _ m' ↦ Changed m m' d (fun _ ↦ False) ∧ Takes m m') E := by
  induction n generalizing m with
  | zero => exact ⟨.refl .., refl m⟩
  | succ n ih =>
    unfold kernelTables
    refine kalloc_takes.bind ?_
    intro r m₁ ⟨_, hm₁⟩
    have hch₁ : Changed m m₁ d (fun _ ↦ False) := hm₁ ▸ .of_dir rfl rfl
    have htakes₁ : Takes m m₁ := hm₁ ▸ ⟨rfl, List.tail_suffix _⟩
    cases r with
    | none => exact ⟨hch₁, htakes₁⟩
    | some pgtab =>
      obtain ⟨pd, hpd⟩ := Option.isSome_iff_exists.1 (hch₁.isSome ▸ hd)
      refine sat_bind.2 (pageDir_sat hpd (sat_modify_bind.2 ?_))
      have hch₂ : Changed m₁ { m₁ with
          dir := update m₁.dir d (some { pd with kernel := pd.kernel ++ [pgtab] }) } d
          (fun _ ↦ False) := .of_update rfl hpd rfl fun _ _ _ ↦ rfl
      refine (ih (by rw [hch₂.isSome, hch₁.isSome, hd])).imp fun _ m₃ h ↦ ?_
      exact ⟨hch₁.trans (hch₂.trans h.1), h.2.data.trans htakes₁.data, h.2.free.trans htakes₁.free⟩

/-- `setupkvm` makes a new directory, with nothing in the user half. -/
theorem setupkvm_sat (hwf : m.Wf) : setupkvm.Sat m (fun r m' ↦ Made m m' r ∧
        (∀ d, r = some d → ∀ va, UserPage va → m'.pte d va = none) ∧ (r ≠ none → Takes m m'))
      fun e ↦ e = .panic .kfree := by
  unfold setupkvm
  refine kalloc_takes.bind ?_
  intro r m₁ ⟨_, hm₁⟩
  have hn₁ : m₁.ndirs = m.ndirs := by rw [hm₁]
  have hdir₁ : m₁.dir = m.dir := by rw [hm₁]
  cases r with
  | none => exact ⟨made_of_dir hwf hn₁ hdir₁, nofun, fun h ↦ absurd rfl h⟩
  | some page =>
    refine sat_get_bind.2 (sat_modify_bind.2 (sat_modify_bind.2 ?_))
    rw [hn₁]
    obtain ⟨m₂, hm₂⟩ : ∃ m₂ : Mem, m₂ = { m₁ with
      ndirs := m.ndirs + 1
      dir := update m₁.dir m.ndirs (some ⟨page, [], fun _ ↦ none⟩) } := ⟨_, rfl⟩
    rw [← hm₂]
    have hdir₂ : m₂.dir = update m.dir m.ndirs (some ⟨page, [], fun _ ↦ none⟩) := by
      rw [hm₂, hdir₁]
    have hndirs₂ : m₂.ndirs = m.ndirs + 1 := by rw [hm₂]
    have hself : m₂.dir m.ndirs = some ⟨page, [], fun _ ↦ none⟩ := by
      rw [hdir₂, update_self]
    have hmade : Made m m₂ (some m.ndirs) := by
      refine ⟨?_, nofun, fun d hd ↦ by rw [hdir₂, update_of_ne hd], by omega, fun d hd ↦ ?_⟩
      · rintro d ⟨⟩
        exact ⟨rfl, by rw [hself]; rfl⟩
      · rw [hndirs₂]
        rcases eq_or_ne d m.ndirs with rfl | hne
        · exact Nat.lt_succ_self _
        · rw [hdir₂, update_of_ne hne] at hd
          exact Nat.lt_succ_of_lt (hwf d hd)
    refine (kernelTables_sat (hmade.eq _ rfl).2).bind ?_
    intro r m₃ ⟨hch, htakes⟩
    have hmade₃ := made_of_onlyDir hmade hch.only
    cases r with
    | true =>
      refine ⟨hmade₃, ?_, fun _ ↦ ?_⟩
      · rintro d ⟨⟩ va hva
        rw [hch.pte va hva id, Mem.pte_of_dir hself]
        rfl
      · rw [hm₂, hm₁] at htakes
        exact ⟨htakes.data, htakes.free.trans (List.tail_suffix _)⟩
    | false =>
      refine (freevm_sat (hmade₃.eq _ rfl).2).bind ?_
      intro _ m₄ ⟨hn₄, hdir₄⟩
      exact ⟨made_of_freed hmade₃ hn₄ hdir₄, nofun, fun h ↦ absurd rfl h⟩

end

/-! ### `copyuvm`, `clearpteu` and `copyout` -/

/-- The entry of `d` for `va` maps a copy of the page in `pgdir`. -/
def CopyAt (m m' : Mem) (pgdir d va : ℕ) : Prop :=
  ∃ e bytes, m.pte pgdir va = some e ∧ NewAt m m' d va e.writable e.user bytes ∧
    (e.page ∉ m.freelist → bytes = m.data e.page)

section

variable {m : Mem} {d : ℕ}

/-- Where the loop of `copyuvm` is left early, the copy is freed. -/
theorem freevm_undo_sat {α : Type} {m₁ : Mem} {S : ℕ → Prop} (hd : (m.dir d).isSome)
    (hch : Changed m m₁ d S) : (freevm (some d) >>= fun _ ↦ (pure none : VM (Option α))).Sat m₁
      (fun r m' ↦ r = none ∧ m'.ndirs = m.ndirs ∧ m'.dir = update m.dir d none)
      fun e ↦ e = .panic .kfree := by
  refine (freevm_sat (by rw [hch.isSome, hd])).bind ?_
  intro _ m₂ ⟨hn, hdir⟩
  exact ⟨rfl, hn.trans hch.ndirs, hdir.trans hch.update_none⟩

/-- The loop of `copyuvm`, copying `pgdir` to another directory `d` that has none of the addresses
still to come. -/
theorem copyPages_sat {pgdir : ℕ} {is : List ℕ} (hne : pgdir ≠ d) (hd : (m.dir d).isSome)
    (hp : (m.dir pgdir).isSome) (hpages : ∀ i ∈ is, UserPage i) (hnodup : is.Nodup)
    (hempty : ∀ i ∈ is, m.pte d i = none) : (copyPages pgdir d is).Sat m (fun r m' ↦
        (r = some d ∧ Changed m m' d (fun va ↦ va ∈ is) ∧ (∀ va ∈ is, CopyAt m m' pgdir d va) ∧
            ∀ x, x ∉ m.freelist → m'.data x = m.data x) ∨
          (r = none ∧ m'.ndirs = m.ndirs ∧ m'.dir = update m.dir d none)) fun e ↦ e = .panic .kfree ∨
        ((e = .panic .copyuvmPteShouldExist ∨ e = .panic .copyuvmPageNotPresent) ∧
          ∃ va ∈ is, m.pte pgdir va = none) := by
  induction is generalizing m with
  | nil => exact .inl ⟨rfl, .refl .., nofun, fun _ _ ↦ rfl⟩
  | cons i is ih =>
    obtain ⟨pd, hpd⟩ := Option.isSome_iff_exists.1 hp
    rw [List.nodup_cons] at hnodup
    have hi := hpages i List.mem_cons_self
    unfold copyPages
    refine (walkpgdir_sat hpd).bind ?_
    rintro r m₀ ⟨rfl, hr⟩
    split
    next hwalk =>
      refine sat_bind.2 (pageDir_sat hpd ?_)
      split
      next hnone =>
        exact .inr ⟨.inr rfl, i, List.mem_cons_self, by rw [Mem.pte_of_dir hpd, hnone]⟩
      next e he =>
        refine kalloc_takes.bind ?_
        intro r m₁ ⟨hr₁, hm₁⟩
        cases r with
        | none =>
          have hch₁ : OnlyDir d m₀ m₁ := hm₁ ▸ Changed.of_dir rfl rfl
          exact (freevm_undo_sat hd hch₁).mono (fun _ _ h ↦ .inr h) fun _ h ↦ .inl h
        | some page =>
          refine sat_get_bind.2 (sat_modify_bind.2 (((newPage_sat hi hd hr₁ (by rw [hm₁])).mono
            (fun _ _ h ↦ h) ?_).bind ?_))
          · -- The copy has no page at `i` yet.
            rintro _ ⟨-, h⟩
            rw [hempty i List.mem_cons_self] at h
            cases h
          intro r m₂ hpage
          have hch := hpage.changed
          cases r with
          | false =>
            refine (kfree_sat (.inl rfl)).bind ?_
            intro _ m₃ hm₃
            exact (freevm_undo_sat hd (hch.trans (.of_dir hm₃.1 hm₃.2))).mono
              (fun _ _ h ↦ .inr h) fun _ h ↦ .inl h
          | true =>
            refine (ih (by rw [hch.isSome, hd]) (by rw [hch.isSome_dir, hp])
              (fun j hj ↦ hpages j (List.mem_cons_of_mem _ hj)) hnodup.2 ?_).mono ?_ ?_
            · intro j hj
              rw [hch.pte j (hpages j (List.mem_cons_of_mem _ hj)) fun h ↦ hnodup.1 (h.2 ▸ hj)]
              exact hempty j (List.mem_cons_of_mem _ hj)
            · rintro r m₃ (⟨rfl, hch₂, hall, hdata⟩ | ⟨rfl, hn, hdir⟩)
              · refine .inl ⟨rfl, (hch.mono ?_).trans (hch₂.mono fun _ ↦ List.mem_cons_of_mem _),
                  fun va hva ↦ ?_, fun x hx ↦ ?_⟩
                · rintro va ⟨-, rfl⟩
                  exact List.mem_cons_self
                · rcases List.mem_cons.1 hva with rfl | h
                  · exact ⟨e, _, by rw [Mem.pte_of_dir hpd, he],
                      hpage.newAt (hch₂.pte va hi hnodup.1) hdata, fun _ ↦ rfl⟩
                  · obtain ⟨e', bytes, he', hnew, hbytes⟩ := hall va h
                    rw [hch.pte_other hne] at he'
                    refine ⟨e', bytes, he', hnew.of_newPage hpage (hpages va hva), fun hmem ↦ ?_⟩
                    rw [hbytes fun h ↦ hmem (hpage.free _ h), hpage.data_of_notMem hmem]
                · rw [hdata x fun h ↦ hx (hpage.free x h), hpage.data_of_notMem hx]
              · exact .inr ⟨rfl, hn.trans hch.ndirs, hdir.trans hch.update_none⟩
            · rintro _ (h | ⟨h, va, hva, hnone⟩)
              · exact .inl h
              · refine .inr ⟨h, va, List.mem_cons_of_mem _ hva, ?_⟩
                rw [← hch.pte_other hne, hnone]
    next hwalk =>
      refine .inr ⟨.inl rfl, i, List.mem_cons_self, ?_⟩
      rw [hr, Bool.not_eq_true, Option.isSome_eq_false_iff, Option.isNone_iff_eq_none] at hwalk
      rw [Mem.pte_of_dir hpd, PageDir.pte_eq_none hwalk]

/-- `copyuvm` makes a new directory that maps copies of the pages below `sz` and no others, and panics
only at a page that is not there. -/
theorem copyuvm_sat {pgdir sz : ℕ} (hwf : m.Wf) (hp : (m.dir pgdir).isSome) (hsz : sz ≤ KERNBASE) :
    (copyuvm pgdir sz).Sat m (fun r m' ↦ Made m m' r ∧
        ∀ d, r = some d → ∀ va, UserPage va → ((m'.pte d va).isSome ↔ va < sz) ∧
          (va < sz → CopyAt m m' pgdir d va)) fun e ↦ e = .panic .kfree ∨
        ((e = .panic .copyuvmPteShouldExist ∨ e = .panic .copyuvmPageNotPresent) ∧
          ∃ va, UserPage va ∧ va < sz ∧ m.pte pgdir va = none) := by
  unfold copyuvm
  refine ((setupkvm_sat hwf).imp_error fun _ h ↦ .inl h).bind ?_
  intro r m₁ ⟨hmade, hempty, htakes⟩
  cases r with
  | none => exact ⟨hmade, nofun⟩
  | some d =>
    obtain ⟨rfl, hd⟩ := hmade.eq d rfl
    have htakes := htakes nofun
    have hne : pgdir ≠ m.ndirs := (hwf _ hp).ne
    have hmem : ∀ va, va ∈ pagesFrom 0 sz ↔ PGSIZE ∣ va ∧ va < sz := by
      intro va
      rw [mem_pagesFrom (Nat.dvd_zero _)]
      exact and_congr_right fun _ ↦ and_iff_right (Nat.zero_le _)
    have hpages : ∀ i ∈ pagesFrom 0 sz, UserPage i := by
      intro i hi
      obtain ⟨h1, h2⟩ := (hmem i).1 hi
      exact ⟨h1, h2.trans_le hsz⟩
    refine (copyPages_sat hne hd (by rw [hmade.other _ hne, hp]) hpages (nodup_pagesFrom ..)
      fun i hi ↦ hempty _ rfl i (hpages i hi)).mono ?_ ?_
    · rintro r m₂ (⟨rfl, hch, hall, -⟩ | ⟨rfl, hn, hdir⟩)
      · refine ⟨made_of_onlyDir hmade hch.only, ?_⟩
        rintro d ⟨⟩ va hva
        have hcopy : va < sz → CopyAt m m₂ pgdir m.ndirs va := by
          intro hlt
          obtain ⟨e, bytes, he, ⟨-, p, hp', hdata⟩, hbytes⟩ := hall va ((hmem va).2 ⟨hva.aligned, hlt⟩)
          have hnone : m.pte m.ndirs va = none := by
            rw [Mem.pte, hwf.dir_ndirs]
            rfl
          rw [Mem.pte, hmade.other _ hne] at he
          refine ⟨e, bytes, he, ⟨hnone, p, hp', fun hnd ↦ hdata (hnd.sublist htakes.free.sublist)⟩,
            fun h ↦ ?_⟩
          rw [hbytes fun h' ↦ h (htakes.free.subset h'), htakes.data]
        refine ⟨⟨fun h ↦ ?_, fun h ↦ ?_⟩, hcopy⟩
        · by_contra hlt
          rw [hch.pte va hva fun h ↦ hlt ((hmem va).1 h).2, hempty _ rfl va hva] at h
          cases h
        · obtain ⟨e, bytes, -, hnew, -⟩ := hcopy h
          exact hnew.present
      · exact ⟨made_of_freed hmade hn hdir, nofun⟩
    · rintro _ (h | ⟨h, va, hva, hnone⟩)
      · exact .inl h
      · refine .inr ⟨h, va, hpages va hva, ((hmem va).1 hva).2, ?_⟩
        rw [← hnone, Mem.pte, Mem.pte, hmade.other _ hne]

/-- `clearpteu` changes the entry of the page of `uva` and leaves the pages where they are. -/
theorem clearpteu_sat {uva : ℕ} :
    (clearpteu d uva).Sat m (fun _ m' ↦ Changed m m' d (fun va ↦ va = PGROUNDDOWN uva) ∧
        ∀ va, UserPage va → (m'.Present d va ↔ m.Present d va))
      fun e ↦ e = .dangling ∨ e = .panic .clearpteu := by
  unfold clearpteu
  split
  next huva =>
    refine (walkpgdir_sat_or.imp_error fun _ h ↦ .inl h).bind ?_
    rintro r _ ⟨rfl, pd, hpd, rfl⟩
    split
    next ht =>
      refine sat_bind.2 (pageDir_sat hpd ⟨.of_update rfl hpd rfl fun va hva hne ↦ ?_, fun va hva ↦ ?_⟩)
      · rw [PageDir.pte_setPte_of_lt huva hva ht, if_neg hne]
      · rw [Mem.Present, Mem.Present, Mem.pte_of_dir (update_self ..), Mem.pte_of_dir hpd,
          PageDir.pte_setPte_of_lt huva hva ht]
        split
        next h =>
          have hpte : pd.pte uva = pd.pte va := by
            rw [h, PageDir.pte, PageDir.pte, (indexes_PGROUNDDOWN uva).1, (indexes_PGROUNDDOWN uva).2]
          rw [hpte, Option.isSome_map]
        · exact Iff.rfl
    · exact .inr rfl
  · exact sat_bind.2 (pageDir_sat_or (.inl rfl) fun _ _ ↦ ⟨.refl .., fun _ _ ↦ Iff.rfl⟩)

/-- `uva2ka` changes no entry. -/
theorem uva2ka_sat {uva : ℕ} : (uva2ka d uva).Sat m (fun _ m' ↦ m' = m) fun e ↦ e = .dangling := by
  unfold uva2ka
  split
  · split
    · rfl
    · rfl
  · refine walkpgdir_sat_or.bind ?_
    rintro r _ ⟨rfl, pd, hpd, -⟩
    split
    · refine sat_bind.2 (pageDir_sat hpd ?_)
      split
      · rfl
      · rfl
    · rfl

/-- `copyout` changes no entry. -/
theorem copyout_sat {va len : ℕ} :
    (copyout d va len).Sat m (fun _ m' ↦ m' = m) fun e ↦ e = .dangling := by
  rw [copyout]
  generalize len + 1 = n
  induction n generalizing va len with
  | zero => rfl
  | succ n ih =>
    unfold copyoutPages
    split
    · refine uva2ka_sat.bind ?_
      rintro r m₀ rfl
      split
      · exact ih
      · rfl
    · rfl

end

end Vm

end Xv6
