import Xv6.Proc.Exec
import Xv6.Vm.Spec

/-!
# Code on one page directory

Most functions of `vm.c` get a page directory and change entries of that one alone. `OnlyDir d` says so, and
for every function it holds without any condition on sizes and addresses: `deallocuvm` and
`clearpteu`, for instance, are also called with addresses that have wrapped around. `setupkvm`, `copyuvm` and
`loadProgram` make a directory, which is a new one, and `freevm` removes one.
-/

namespace Xv6

open Prog Function

namespace Vm

section

variable {d : ℕ}

theorem keeps_of_dir {α : Type} {x : VM α}
    (h : ∀ m, x.Sat m (fun _ m' ↦ m'.ndirs = m.ndirs ∧ m'.dir = m.dir) fun _ ↦ True) :
    x.Keeps (OnlyDir d) :=
  fun m ↦ (h m).imp fun _ _ hm ↦ Changed.of_dir hm.1 hm.2

theorem keeps_kalloc : kalloc.Keeps (OnlyDir d) := keeps_of_dir fun _ ↦ kalloc_sat

theorem keeps_fill (v : ℕ) (bytes : ℕ → BitVec 8) : (fill v bytes).Keeps (OnlyDir d) :=
  keeps_of_dir fun _ ↦ ⟨rfl, rfl⟩

theorem keeps_kfree (v : ℕ) : (kfree v).Keeps (OnlyDir d) := keeps_of_dir fun _ ↦ kfree_sat trivial

/-- Code that rewrites a directory has found it. -/
theorem keeps_pageDir_bind {α : Type} {f : PageDir → VM α}
    (h : ∀ m pd, m.dir d = some pd → (f pd).Sat m (fun _ m' ↦ OnlyDir d m m') fun _ ↦ True) :
    (pageDir d >>= f).Keeps (OnlyDir d) :=
  fun m ↦ sat_bind.2 (pageDir_sat_or trivial fun pd hpd ↦ h m pd hpd)

theorem keeps_walkpgdir (va : ℕ) (alloc : Bool) : (walkpgdir d va alloc).Keeps (OnlyDir d) := by
  rw [walkpgdir]
  refine keeps_pageDir_bind fun m pd hpd ↦ ?_
  split
  · exact Changed.refl m d _
  · split
    · refine kalloc_sat.bind ?_
      intro r m₁ hpost
      obtain ⟨hn, hdir⟩ := hpost
      cases r with
      | none => exact Changed.of_dir hn hdir
      | some pgtab =>
        have hpd₁ : m₁.dir d = some pd := by rw [hdir, hpd]
        exact (Changed.of_dir hn hdir).trans (OnlyDir.of_update hpd₁ _)
    · exact Changed.refl m d _

theorem keeps_mappages (va page : ℕ) (w u : Bool) : (mappages d va page w u).Keeps (OnlyDir d) := by
  rw [mappages]
  refine (keeps_walkpgdir va true).bind fun r ↦ .ite (keeps_pageDir_bind fun m pd hpd ↦ ?_) (.pure _)
  split
  · trivial
  · exact OnlyDir.of_update hpd _

theorem keeps_deallocPages (oldsz n a : ℕ) : (deallocPages d oldsz n a).Keeps (OnlyDir d) :=
  fun _ ↦ deallocPages_only.imp_error fun _ _ ↦ trivial

theorem keeps_deallocuvm (oldsz newsz : ℕ) : (deallocuvm d oldsz newsz).Keeps (OnlyDir d) := by
  rw [deallocuvm]
  exact .ite (.pure _) ((keeps_deallocPages _ _ _).bind fun _ ↦ .pure _)

theorem keeps_allocPages (oldsz newsz : ℕ) (as : List ℕ) :
    (allocPages d oldsz newsz as).Keeps (OnlyDir d) := by
  induction as with
  | nil => exact .pure _
  | cons a as ih =>
    rw [allocPages]
    refine keeps_kalloc.bind fun r ↦ ?_
    cases r with
    | none => exact (keeps_deallocuvm _ _).bind fun _ ↦ .pure _
    | some mem =>
      refine (keeps_fill _ _).bind fun _ ↦ (keeps_mappages _ _ _ _).bind fun r ↦ .ite ih ?_
      exact (keeps_deallocuvm _ _).bind fun _ ↦ (keeps_kfree _).bind fun _ ↦ .pure _

theorem keeps_allocuvm (oldsz newsz : ℕ) : (allocuvm d oldsz newsz).Keeps (OnlyDir d) := by
  rw [allocuvm]
  exact .ite (.pure _) (.ite (.pure _) (keeps_allocPages _ _ _))

theorem keeps_clearpteu (uva : ℕ) : (clearpteu d uva).Keeps (OnlyDir d) :=
  fun _ ↦ clearpteu_sat.mono (fun _ _ h ↦ h.1.only) fun _ _ ↦ trivial

theorem keeps_copyout (va len : ℕ) : (copyout d va len).Keeps (OnlyDir d) := by
  intro m
  refine copyout_sat.mono ?_ fun _ _ ↦ trivial
  intro _ m' hm'
  rw [hm']
  exact Changed.refl m d _

/-! ### A new address space -/

theorem keeps_loaduvm (n : ℕ) (as : List ℕ) : (loaduvm d n as).Keeps (OnlyDir d) := by
  induction as generalizing n with
  | nil =>
    rw [loaduvm]
    exact .pure _
  | cons a as ih =>
    cases n with
    | zero => exact (keeps_walkpgdir a false).bind fun r ↦ .ite (.pure _) (.fail _)
    | succ n => exact (keeps_walkpgdir a false).bind fun r ↦ .ite (ih n) (.fail _)

theorem keeps_loadSegments (phs : List Segment) (sz : ℕ) :
    (loadSegments d phs sz).Keeps (OnlyDir d) := by
  induction phs generalizing sz with
  | nil => exact .pure _
  | cons ph phs ih =>
    rw [loadSegments]
    refine .ite (.pure _) (.ite (ih sz) (.ite (.pure _) (.ite (.pure _) ?_)))
    refine (keeps_allocuvm _ _).bind fun sz' ↦ .ite (.pure _) (.ite (.pure _) ?_)
    exact (keeps_loaduvm _ _).bind fun r ↦ .ite (ih sz') (.pure _)

theorem keeps_pushArgs (lens : List ℕ) (argc sp : ℕ) : (pushArgs d lens argc sp).Keeps (OnlyDir d) := by
  induction lens generalizing argc sp with
  | nil => exact .pure _
  | cons len lens ih =>
    rw [pushArgs]
    exact .ite (.pure _) ((keeps_copyout _ _).bind fun r ↦ .ite (ih _ _) (.pure _))

/-- The program is given by an equation, since Lean would otherwise run it up to the comparison with
`KERNBASE` whenever the statement is used. -/
theorem keeps_buildStack {b : ℕ → VM (Option ℕ)} {args : List ℕ} (hb : b = buildStack d args) (sz : ℕ) :
    (b sz).Keeps (OnlyDir d) := by
  rw [hb, buildStack]
  generalize 2 * PGSIZE = n
  refine Keeps.bind (keeps_allocuvm _ _) fun sz' ↦ Keeps.ite (Keeps.pure _) ?_
  refine Keeps.bind (keeps_clearpteu _) fun _ ↦ Keeps.bind (keeps_pushArgs _ _ _) fun r ↦ ?_
  cases r with
  | none => exact .pure _
  | some p =>
    obtain ⟨sp, argc⟩ := p
    exact Keeps.bind (keeps_copyout _ _) fun r ↦ .ite (.pure _) (.pure _)

end

/-! ### Directories that come and go -/

section

variable {m : Mem} {d : ℕ}

/-- `freevm` removes the directory and nothing else. -/
theorem freevm_frame : (freevm (some d)).Sat m (fun _ m' ↦ m'.ndirs = m.ndirs ∧
    m'.dir = update m.dir d none) fun _ ↦ True := by
  by_cases hd : (m.dir d).isSome
  · exact (freevm_sat hd).imp_error fun _ _ ↦ trivial
  · rw [freevm]
    generalize KERNBASE = top
    generalize List.range NUPDENTRIES = is
    refine (keeps_deallocuvm (d := d) top 0 m).bind ?_
    intro _ m₁ h₁
    refine sat_bind.2 (pageDir_sat_or trivial fun pd hpd ↦ ?_)
    rw [← h₁.isSome, hpd] at hd
    exact absurd rfl hd

theorem walkpgdir_look {va : ℕ} : (walkpgdir d va false).Sat m (fun _ m' ↦ m' = m) fun _ ↦ True :=
  walkpgdir_sat_or.mono (fun _ _ h ↦ h.1) fun _ _ ↦ trivial

/-- The loop of `copyuvm` fills the copy, or the copy is gone. -/
theorem copyPages_frame {pgdir : ℕ} {is : List ℕ} {m₀ : Mem} (h₀ : OnlyDir d m m₀) :
    (copyPages pgdir d is).Sat m₀ (fun r m' ↦ (r = some d ∧ OnlyDir d m m') ∨
        (r = none ∧ m'.ndirs = m.ndirs ∧ m'.dir = update m.dir d none)) fun _ ↦ True := by
  -- Leaving the loop early frees the copy.
  have hbad : ∀ m₁, OnlyDir d m m₁ → (freevm (some d) >>= fun _ ↦ (pure none : VM (Option ℕ))).Sat m₁
      (fun r m' ↦ (r = some d ∧ OnlyDir d m m') ∨
        (r = none ∧ m'.ndirs = m.ndirs ∧ m'.dir = update m.dir d none)) fun _ ↦ True := by
    intro m₁ h₁
    refine freevm_frame.bind ?_
    intro _ m₂ ⟨hn, hdir⟩
    exact .inr ⟨rfl, hn.trans h₁.ndirs, hdir.trans h₁.update_none⟩
  induction is generalizing m₀ with
  | nil => exact .inl ⟨rfl, h₀⟩
  | cons i is ih =>
    rw [copyPages]
    refine walkpgdir_look.bind ?_
    rintro r _ rfl
    split
    · refine sat_bind.2 (pageDir_sat_or trivial fun pd hpd ↦ ?_)
      split
      · trivial
      next e he =>
        refine (keeps_kalloc (d := d) _).bind ?_
        intro r m₁ h₁
        cases r with
        | none => exact hbad m₁ (h₀.trans h₁)
        | some page =>
          refine sat_get_bind.2 ((keeps_fill (d := d) _ _ m₁).bind fun _ m₁' h₁' ↦ ?_)
          refine (keeps_mappages _ _ _ _ m₁').bind ?_
          intro r m₂ h₂
          split
          · exact ih (h₀.trans (h₁.trans (h₁'.trans h₂)))
          · refine (keeps_kfree (d := d) page m₂).bind ?_
            intro _ m₃ h₃
            exact hbad m₃ (h₀.trans (h₁.trans (h₁'.trans (h₂.trans h₃))))
    · trivial

variable {sz : ℕ}

/-- `copyuvm` makes a new directory, or none is left of it. -/
theorem copyuvm_frame {pgdir : ℕ} (hwf : m.Wf) :
    (copyuvm pgdir sz).Sat m (fun r m' ↦ Made m m' r) fun _ ↦ True := by
  rw [copyuvm]
  refine ((setupkvm_sat hwf).mono (fun _ _ h ↦ h.1) fun _ _ ↦ trivial).bind ?_
  intro r m₁ hmade
  cases r with
  | none => exact hmade
  | some d =>
    obtain ⟨rfl, hd⟩ := hmade.eq d rfl
    refine (copyPages_frame (Changed.refl m₁ _ _)).imp ?_
    rintro r m₂ (⟨rfl, h₂⟩ | ⟨rfl, hn, hdir⟩)
    · exact made_of_onlyDir hmade h₂
    · exact made_of_freed hmade hn hdir

/-! ### A new address space has no holes -/

/-- Every page below `sz` is present in `d`. -/
def Filled (m : Mem) (d sz : ℕ) : Prop := ∀ va, UserPage va → va < sz → m.Present d va

/-- `allocuvm` adds the pages above the old size. -/
theorem allocuvm_filled {oldsz newsz : ℕ} (hd : (m.dir d).isSome) (hle : oldsz ≤ newsz) (h : Filled m d oldsz) :
    (allocuvm d oldsz newsz).Sat m (fun r m' ↦ (m'.dir d).isSome ∧
      (r ≠ 0 → r < KERNBASE ∧ Filled m' d r)) fun _ ↦ True := by
  refine (allocuvm_sat hle hd).mono ?_ fun _ _ ↦ trivial
  intro r m' ⟨hch, _, hor⟩
  refine ⟨hch.isSome ▸ hd, fun hr ↦ ?_⟩
  rcases hor with ⟨rfl, hlt, hall⟩ | ⟨hzero, -⟩
  · refine ⟨hlt, fun va hva hva' ↦ ?_⟩
    rcases Nat.lt_or_ge va oldsz with hva'' | hva''
    · rw [Mem.Present, hch.pte va hva fun hS ↦ absurd hva'' (Nat.not_lt.2 hS.1)]
      exact h va hva hva''
    · exact (hall va hva hva'' hva').present
  · exact absurd hzero hr

theorem allocuvm_filled_or {oldsz newsz : ℕ} (hd : (m.dir d).isSome) (hold : oldsz < KERNBASE)
    (h : Filled m d oldsz) : (allocuvm d oldsz newsz).Sat m (fun r m' ↦ (m'.dir d).isSome ∧
      (r ≠ 0 → r < KERNBASE ∧ Filled m' d r)) fun _ ↦ True := by
  rcases Nat.lt_or_ge newsz oldsz with hlt | hle
  · rw [allocuvm, if_neg (Nat.not_le.2 (hlt.trans hold)), if_pos hlt]
    exact ⟨hd, fun _ ↦ ⟨hold, h⟩⟩
  · exact allocuvm_filled hd hle h

theorem loaduvm_look {n : ℕ} {as : List ℕ} :
    (loaduvm d n as).Sat m (fun _ m' ↦ m' = m) fun _ ↦ True := by
  induction as generalizing n with
  | nil =>
    rw [loaduvm]
    rfl
  | cons a as ih =>
    cases n with
    | zero =>
      refine walkpgdir_look.bind ?_
      rintro r _ rfl
      split
      · rfl
      · trivial
    | succ n =>
      refine walkpgdir_look.bind ?_
      rintro r _ rfl
      split
      · exact ih
      · trivial

theorem loadSegments_filled {phs : List Segment} (hd : (m.dir d).isSome) (hsz : sz < KERNBASE)
    (h : Filled m d sz) : (loadSegments d phs sz).Sat m (fun r m' ↦ (m'.dir d).isSome ∧
      ∀ sz', r = some sz' → sz' < KERNBASE ∧ Filled m' d sz') fun _ ↦ True := by
  induction phs generalizing m sz with
  | nil =>
    refine ⟨hd, fun sz' hsz' ↦ ?_⟩
    obtain rfl := Option.some.inj hsz'
    exact ⟨hsz, h⟩
  | cons ph phs ih =>
    rw [loadSegments]
    split
    · exact ⟨hd, nofun⟩
    · split
      · exact ih hd hsz h
      · split
        · exact ⟨hd, nofun⟩
        · split
          · exact ⟨hd, nofun⟩
          · refine (allocuvm_filled_or hd hsz h).bind ?_
            intro r m₁ ⟨hd₁, hfilled⟩
            split
            · exact ⟨hd₁, nofun⟩
            next hr =>
              split
              · exact ⟨hd₁, nofun⟩
              · refine loaduvm_look.bind ?_
                rintro b _ rfl
                split
                · exact ih hd₁ (hfilled hr).1 (hfilled hr).2
                · exact ⟨hd₁, nofun⟩

theorem pushArgs_look {lens : List ℕ} {argc sp : ℕ} :
    (pushArgs d lens argc sp).Sat m (fun _ m' ↦ m' = m) fun _ ↦ True := by
  induction lens generalizing argc sp with
  | nil => rfl
  | cons len lens ih =>
    rw [pushArgs]
    split
    · rfl
    · refine copyout_sat.bind_true ?_
      rintro r _ rfl
      split
      · exact ih
      · rfl

/-- See `keeps_buildStack` for the equation. -/
theorem buildStack_filled {b : ℕ → VM (Option ℕ)} {args : List ℕ} (hb : b = buildStack d args)
    (hd : (m.dir d).isSome) (h : Filled m d sz) :
    (b sz).Sat m (fun r m' ↦ ∀ sz', r = some sz' → sz' < KERNBASE ∧ Filled m' d sz') fun _ ↦ True := by
  rw [hb, buildStack]
  generalize 2 * PGSIZE = n
  refine (allocuvm_filled hd (Nat.le_add_right _ _) fun va hva hva' ↦
    h va hva ((lt_PGROUNDUP_iff hva.aligned).1 hva')).bind ?_
  intro r m₁ hpost
  split
  · simp
  next hr =>
    obtain ⟨hlt, hfilled⟩ := hpost.2 hr
    refine clearpteu_sat.bind_true ?_
    intro _ m₂ hpost
    obtain ⟨_, hpresent⟩ := hpost
    have hfilled₂ : Filled m₂ d r := fun va hva hva' ↦ (hpresent va hva).2 (hfilled va hva hva')
    refine pushArgs_look.bind ?_
    rintro p _ rfl
    cases p with
    | none => simp
    | some p =>
      obtain ⟨sp, argc⟩ := p
      refine copyout_sat.bind_true ?_
      rintro ok _ rfl
      split
      · intro sz' hsz'
        obtain rfl := Option.some.inj hsz'
        exact ⟨hlt, hfilled₂⟩
      · simp

/-- `loadProgram` makes a new directory, with every page below the size it returns, or none is left of it. -/
theorem loadProgram_sat {prog : Program} (hwf : m.Wf) :
    (loadProgram prog).Sat m (fun r m' ↦ Made m m' (r.map Prod.fst) ∧ ∀ d sz, r = some (d, sz) →
      sz < KERNBASE ∧ Filled m' d sz) fun _ ↦ True := by
  rw [loadProgram]
  generalize hbuild : (fun d ↦ buildStack d prog.args) = build
  replace hbuild : ∀ d, buildStack d prog.args = build d := congrFun hbuild
  simp only [hbuild]
  split
  · exact ⟨made_of_dir hwf rfl rfl, nofun⟩
  · refine ((setupkvm_sat hwf).mono (fun _ _ h ↦ h.1) fun _ _ ↦ trivial).bind ?_
    intro r m₁ hmade
    cases r with
    | none => exact ⟨hmade, nofun⟩
    | some d =>
      obtain ⟨rfl, hd⟩ := hmade.eq d rfl
      -- Where the code goes to `bad`, the directory is freed.
      have hbad : ∀ m₂, OnlyDir m.ndirs m₁ m₂ → (freevm (some m.ndirs) >>= fun _ ↦
          (pure none : VM (Option (ℕ × ℕ)))).Sat m₂ (fun r m' ↦ Made m m' (r.map Prod.fst) ∧
            ∀ d sz, r = some (d, sz) → sz < KERNBASE ∧ Filled m' d sz) fun _ ↦ True := by
        intro m₂ h₂
        refine (freevm_sat (by rw [h₂.isSome, hd])).bind_true ?_
        intro _ m₃ ⟨hn, hdir⟩
        exact ⟨made_of_freed (made_of_onlyDir hmade h₂) hn hdir, nofun⟩
      have hempty : Filled m₁ m.ndirs 0 := fun _ _ h ↦ absurd h (Nat.not_lt_zero _)
      refine ((keeps_loadSegments prog.segments 0 m₁).and (loadSegments_filled hd (by decide) hempty)).bind_true ?_
      intro r m₂ ⟨h₂, hd₂, hfilled⟩
      cases r with
      | none => exact hbad m₂ h₂
      | some sz =>
        refine ((keeps_buildStack (hbuild m.ndirs).symm sz m₂).and
          (buildStack_filled (hbuild m.ndirs).symm hd₂ (hfilled sz rfl).2)).bind_true ?_
        intro r m₃ ⟨h₃, hfilled₃⟩
        cases r with
        | none => exact hbad m₃ (h₂.trans h₃)
        | some sz' =>
          refine ⟨made_of_onlyDir hmade (h₂.trans h₃), fun d' sz'' heq ↦ ?_⟩
          obtain ⟨rfl, rfl⟩ := Prod.mk.inj (Option.some.inj heq)
          exact hfilled₃ sz' rfl

end

end Vm

end Xv6
