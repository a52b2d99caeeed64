import Xv6.Proc.Effect
import Xv6.Vm.Frame

/-!
# Page directories that are freed

`exec` and `wait` free a page directory: the old one of the caller, and that of the child that is reaped.
Threads share the directory of their process, and nobody counts them. A directory is then freed while a
thread still runs on it, or twice: `exec` by a process with threads, `wait` for a process that has left by
`thread_exit` while its threads run, and so on (`dir_freed_in_use`).

If, whenever a directory is freed, all other slots of the group are free or threads that have exited, and
no slot lost by `thread_create` names it, then every directory is freed once and while nobody uses it
(`dirs_freed_safely`). A directory that has been freed is not there any more, and `freevm` of such a
directory is a fault; so it is freed once if it is there when it is freed.
-/

namespace Xv6

open Prog Vm Function Ptable

namespace Ptable

/-! ### Which directory is freed -/

/-- `exec` can build the new address space. -/
def loads (s : Ptable) (prog : Program) : Bool :=
  match (loadProgram prog).run s.mem with
  | .ok (some _, _) => true
  | _ => false

/-- The slot whose page directory the call frees: the child that `wait` reaps, and the caller of an `exec`
that does not fail. -/
def owner (s : Ptable) (c : Slot) : Call → Option Slot
  | .wait => s.reapedSlot c
  | .exec prog => if s.loads prog then some c else none
  | _ => none

/-- The page directory that the call frees. -/
def released (s : Ptable) (c : Slot) (a : Call) : Option ℕ :=
  (s.owner c a).bind fun q ↦ (s.proc q).pgdir

/-! ### Calls that free none -/

/-- The same page directories are there. -/
structure SameDirs (s t : Ptable) : Prop where
  ndirs : t.mem.ndirs = s.mem.ndirs
  dir : ∀ d, (t.mem.dir d).isSome = (s.mem.dir d).isSome

instance : IsPreorder Ptable SameDirs where
  refl _ := ⟨rfl, fun _ ↦ rfl⟩
  trans _ _ _ h h' := ⟨h'.ndirs.trans h.ndirs, fun d ↦ (h'.dir d).trans (h.dir d)⟩

theorem keeps_update (k : Slot) (f : Proc → Proc) : (update k f).Keeps SameDirs :=
  fun _ ↦ ⟨rfl, fun _ ↦ rfl⟩

theorem keeps_updateAll (c : Slot → Proc → Bool) (f : Proc → Proc) : (updateAll c f).Keeps SameDirs :=
  fun _ ↦ ⟨rfl, fun _ ↦ rfl⟩

theorem keeps_vm {α : Type} {d : ℕ} {x : VM α} (h : x.Keeps (OnlyDir d)) : (vm x).Keeps SameDirs :=
  fun s ↦ sat_vm.2 ((h s.mem).imp fun _ _ hm ↦ ⟨hm.ndirs, hm.isSome_dir⟩)

theorem keeps_pgdirOf_bind {α : Type} {p : Slot} {f : ℕ → Kern α} (h : ∀ d, (f d).Keeps SameDirs) :
    (pgdirOf p >>= f).Keeps SameDirs :=
  fun s ↦ sat_bind.2 (sat_pgdirOf (fun _ ↦ trivial) fun d _ ↦ h d s)

variable {s : Ptable} {a : Call}

theorem keeps_allocproc : allocproc.Keeps SameDirs :=
  fun _ ↦ allocproc_sat.imp fun _ _ h ↦ ⟨h.1.ndirs, fun d ↦ by rw [h.1.dir]⟩

theorem keeps_switchuvm (c : Slot) : (switchuvm c).Keeps SameDirs := by
  intro s
  refine switchuvm_sat.mono ?_ fun _ _ ↦ trivial
  rintro _ t rfl
  exact ⟨rfl, fun _ ↦ rfl⟩

theorem keeps_growproc (c : Slot) (n : ℤ) : (growproc c n).Keeps SameDirs := by
  rw [growproc]
  refine .get_bind fun s ↦ ?_
  have hend : ∀ sz, (if sz = 0 then (return -1) else do
      update c fun q ↦ q.setSz sz
      switchuvm c
      return 0 : Kern ℤ).Keeps SameDirs :=
    fun sz ↦ .ite (.pure _) ((keeps_update _ _).bind fun _ ↦ (keeps_switchuvm c).bind fun _ ↦ .pure _)
  refine .ite ?_ (.ite ?_ ((keeps_switchuvm c).bind fun _ ↦ .pure _))
  · exact keeps_pgdirOf_bind fun d ↦ (keeps_vm (keeps_allocuvm _ _)).bind hend
  · exact keeps_pgdirOf_bind fun d ↦ (keeps_vm (keeps_deallocuvm _ _)).bind hend

theorem keeps_createSpace (c : Slot) (sz : ℕ) : (createSpace c sz).Keeps SameDirs := by
  rw [createSpace]
  generalize sz + 2 * PGSIZE = newsz
  refine keeps_pgdirOf_bind fun d ↦ (keeps_vm (keeps_allocuvm _ _)).bind fun sz' ↦ .ite (.pure _) ?_
  refine keeps_pgdirOf_bind fun d ↦ .get_bind fun s ↦ ?_
  exact (keeps_vm (keeps_clearpteu _)).bind fun _ ↦ .pure _

theorem keeps_createFill (c np : Slot) (sz : ℕ) : (createFill c np sz).Keeps SameDirs := by
  rw [createFill]
  refine .get_bind fun s ↦ (keeps_update _ _).bind fun _ ↦ keeps_pgdirOf_bind fun d ↦ ?_
  refine (keeps_vm (keeps_copyout _ _)).bind fun r ↦ .ite ?_ (.fail _)
  refine (keeps_update _ _).bind fun _ ↦ .bind (fun _ ↦ ⟨rfl, fun _ ↦ rfl⟩) fun _ ↦ ?_
  exact .bind (.get_bind fun _ ↦ keeps_updateAll _ _) fun _ ↦ .pure _

theorem keeps_threadCreate (c : Slot) : (threadCreate c).Keeps SameDirs := by
  rw [threadCreate]
  refine .get_bind fun s ↦ keeps_allocproc.bind fun r ↦ ?_
  cases r with
  | none => exact .pure _
  | some np =>
    refine (keeps_createSpace c _).bind fun sz' ↦ .ite (.pure _) ?_
    refine .bind (.get_bind fun _ ↦ keeps_updateAll _ _) fun _ ↦ ?_
    exact (keeps_createFill c np _).bind fun tid ↦ (keeps_update _ _).bind fun _ ↦ .pure _

theorem keeps_wakeInit (orphans : Bool) : (wakeInit orphans).Keeps SameDirs := by
  rw [wakeInit]
  exact .ite (.get_bind fun _ ↦ keeps_updateAll _ _) (.pure _)

theorem keeps_exit (c : Slot) : (exit c).Keeps SameDirs := by
  rw [exit, exitFinal]
  refine .get_bind fun _ ↦ .ite (.fail _) (.get_bind fun _ ↦ ?_)
  refine (keeps_updateAll _ _).bind fun _ ↦ (keeps_updateAll _ _).bind fun _ ↦ ?_
  refine (keeps_wakeInit _).bind fun _ ↦ (keeps_updateAll _ _).bind fun _ ↦ ?_
  exact (keeps_updateAll _ _).bind fun _ ↦ keeps_update _ _

theorem keeps_threadExit (c : Slot) (v : ℕ) : (threadExit c v).Keeps SameDirs := by
  rw [threadExit]
  refine .get_bind fun _ ↦ (keeps_updateAll _ _).bind fun _ ↦ (keeps_updateAll _ _).bind fun _ ↦ ?_
  exact (keeps_wakeInit _).bind fun _ ↦ keeps_update _ _

theorem keeps_kill (pid : ℤ) : (kill pid).Keeps SameDirs :=
  fun _ ↦ sat_kill (fun _ ↦ ⟨rfl, fun _ ↦ rfl⟩) fun _ _ ↦ ⟨rfl, fun _ ↦ rfl⟩

theorem keeps_threadJoin (c : Slot) (thread : ℤ) : (threadJoin c thread).Keeps SameDirs := by
  intro s
  refine threadJoin_sat.mono ?_ fun _ _ ↦ trivial
  intro r t h
  cases h with
  | found hp hjoined =>
    obtain ⟨d, m, r, -, hn, hdir, hrun⟩ := hjoined.mem
    have honly := (keeps_deallocuvm _ _ m).of_ok hrun
    exact ⟨honly.ndirs.trans hn, fun d ↦ by rw [honly.isSome_dir, hdir]⟩
  | none | sleep => exact ⟨rfl, fun _ ↦ rfl⟩

/-! ### What a call does to the directories -/

/-- The page directory of `k` has been made by the call. -/
def NewDir (s t : Ptable) (k : Slot) : Prop :=
  ∃ d, (t.proc k).pgdir = some d ∧ s.mem.ndirs ≤ d ∧ (t.mem.dir d).isSome

/-- What a call `a` by `c` does to the page directories. -/
structure DirsAfter (s : Ptable) (c : Slot) (a : Call) (r : Ret) (t : Ptable) : Prop where
  wf : t.mem.Wf
  /-- Of the old ones, the one that is released is gone and the others are there. -/
  old : ∀ d, d < s.mem.ndirs →
    ((t.mem.dir d).isSome ↔ (s.mem.dir d).isSome ∧ s.released c a ≠ some d)
  /-- `fork` gives a new directory to the child. -/
  forked : a = .fork → ∀ np, s.freeSlot = some np → (t.proc np).state = .RUNNABLE → NewDir s t np
  /-- `exec` gives a new directory to the caller. -/
  replaced : ∀ prog, a = .exec prog → r = .code 0 → NewDir s t c
  /-- An `exec` that fails releases nothing. -/
  failed : ∀ prog, a = .exec prog → r ≠ .code 0 → s.owner c a = none
  loaded : ∀ prog, a = .exec prog → r = .code 0 → s.owner c a = some c
  /-- `fork`, `exec` and `wait` leave the other directories as they were. -/
  frame : (a = .fork ∨ a = .wait ∨ ∃ prog, a = .exec prog) → ∀ d, d < s.mem.ndirs →
    s.released c a ≠ some d → t.mem.dir d = s.mem.dir d

section Calls

variable {s t : Ptable} {c : Slot}

variable {a : Call}

/-- Calls that neither make nor free a directory. -/
theorem SameDirs.dirsAfter {r : Ret} (h : SameDirs s t) (hwf : s.mem.Wf) (howner : s.owner c a = none)
    (ha : ¬(a = .fork ∨ a = .wait ∨ ∃ prog, a = .exec prog)) : DirsAfter s c a r t := by
  have hexec : ∀ prog, a ≠ .exec prog := fun prog h ↦ ha (.inr (.inr ⟨prog, h⟩))
  refine ⟨fun d hd ↦ ?_, fun d _ ↦ ?_, fun hf ↦ absurd (.inl hf) ha, fun prog h ↦ absurd h (hexec prog),
    fun _ _ _ ↦ howner, fun prog h ↦ absurd h (hexec prog), fun h ↦ absurd h ha⟩
  · rw [h.dir] at hd
    rw [h.ndirs]
    exact hwf d hd
  · rw [h.dir, released, howner]
    exact ⟨fun hd ↦ ⟨hd, nofun⟩, And.left⟩

/-- The directories after one has been made, or not. -/
theorem isSome_of_made {m : Mem} {r : Option ℕ} (h : Made s.mem m r) {d : ℕ} (hd : d < s.mem.ndirs) :
    (m.dir d).isSome ↔ (s.mem.dir d).isSome ∧ (none : Option ℕ) ≠ some d := by
  rw [h.other d hd.ne]
  exact ⟨fun hd ↦ ⟨hd, nofun⟩, And.left⟩

/-- `fork` leaves the directories that were there. -/
theorem DirsAfter.of_fork {r : Ret} (hwf : t.mem.Wf) (hold : ∀ d, d < s.mem.ndirs → t.mem.dir d = s.mem.dir d)
    (hnew : ∀ np, s.freeSlot = some np → (t.proc np).state = .RUNNABLE → NewDir s t np) : DirsAfter s c .fork r t := by
  refine ⟨hwf, fun d hd ↦ ?_, fun _ ↦ hnew, by simp, by simp, by simp, fun _ d hd _ ↦ hold d hd⟩
  rw [hold d hd]
  exact ⟨fun hd ↦ ⟨hd, fun h ↦ by cases h⟩, And.left⟩

theorem fork_dirs (hwf : s.mem.Wf) (hc : (s.proc c).state ≠ .UNUSED) :
    (fork c).Sat s (fun r t ↦ DirsAfter s c .fork (.code r) t) fun _ ↦ True := by
  have hfail : ∀ {t np}, Failed s t → s.freeSlot = some np → (t.proc np).state = .RUNNABLE → NewDir s t np :=
    fun hf hnp hrun ↦ absurd hrun (hf.not_runnable (unused_of_freeSlot hnp))
  refine sat_fork hc trivial (fun _ ↦ trivial) (fun t hpage hf ↦ ?_) fun np d₀ m₁ hnp _ hpage ↦
    (copyuvm_frame (hpage.wf hwf)).imp fun r m hmade ↦ ?_
  · exact .of_fork (hpage.wf hwf) (fun d _ ↦ by rw [hpage.dir]) fun np ↦ hfail hf
  · have hold : ∀ d, d < s.mem.ndirs → m.dir d = s.mem.dir d := by
      intro d hd
      rw [hmade.other d (hpage.ndirs ▸ hd.ne), hpage.dir]
    refine ⟨fun _ t hn hdir hf ↦ .of_fork (fun d hd ↦ ?_) (fun d hd ↦ ?_) fun np ↦ hfail hf, fun d hr t ht hd hf ↦ ?_⟩
    · rw [hdir] at hd
      rw [hn]
      exact hmade.lt d hd
    · rw [hdir, hold d hd]
    · subst ht
      refine .of_fork hmade.lt hold fun np' hnp' _ ↦ ?_
      obtain rfl := Option.mem_unique hnp hnp'
      obtain ⟨hlt, hsome⟩ := hmade.eq d hr
      exact ⟨d, hd, hlt ▸ hpage.ndirs.ge, hsome⟩

theorem exec_dirs {prog : Program} (hwf : s.mem.Wf)
    (hc : ∀ d, (s.proc c).pgdir = some d → d < s.mem.ndirs) :
    (exec c prog).Sat s (fun r t ↦ DirsAfter s c (.exec prog) (.code r) t) fun _ ↦ True := by
  refine sat_exec (fun m hrun ↦ ?_) fun d sz m d₀ hrun hpgdir ↦ freevm_frame.imp fun _ m' hm' t ht _ hproc ↦ ?_
  · have hmade := ((loadProgram_sat hwf).of_ok hrun).1
    have hloads : s.loads prog = false := by rw [loads, hrun]
    have howner : s.owner c (.exec prog) = none := by
      rw [owner, hloads, if_neg Bool.false_ne_true]
    refine ⟨hmade.lt, fun d hd ↦ ?_, by simp, by simp, fun _ _ _ ↦ howner, by simp,
      fun _ d hd _ ↦ hmade.other d hd.ne⟩
    rw [released, howner]
    exact isSome_of_made hmade hd
  · have hmade := ((loadProgram_sat hwf).of_ok hrun).1
    have hloads : s.loads prog = true := by rw [loads, hrun]
    obtain ⟨hd, hsome⟩ := hmade.eq d rfl
    have howner : s.owner c (.exec prog) = some c := by
      rw [owner, hloads, if_pos rfl]
    have hreleased : s.released c (.exec prog) = some d₀ := by
      rw [released, howner]
      exact hpgdir
    obtain ⟨hn, hdir⟩ := hm'
    subst ht
    have hne : d ≠ d₀ := fun heq ↦ (hc d₀ hpgdir).ne (heq.symm.trans hd)
    refine ⟨fun d' hd' ↦ ?_, fun d' hd' ↦ ?_, by simp, fun _ _ _ ↦ ⟨d, ?_, hd.ge, ?_⟩,
      fun _ _ hne ↦ absurd rfl hne, fun _ _ _ ↦ howner, fun _ d' hd' hne' ↦ ?_⟩
    · rw [hn]
      refine hmade.lt d' ?_
      rcases eq_or_ne d' d₀ with rfl | h
      · rw [hdir, update_self] at hd'
        cases hd'
      · rwa [hdir, update_of_ne h] at hd'
    · rw [hreleased, hdir]
      rcases eq_or_ne d' d₀ with rfl | h
      · rw [update_self]
        exact ⟨by simp, fun h ↦ absurd rfl h.2⟩
      · rw [update_of_ne h, isSome_of_made hmade hd']
        exact and_congr_right fun _ ↦ ⟨fun _ heq ↦ h (Option.some.inj heq).symm, fun _ ↦ by simp⟩
    · rw [hproc, update_self]
      rfl
    · rw [hdir, update_of_ne hne]
      exact hsome
    · rw [hreleased] at hne'
      rw [hdir, update_of_ne fun heq ↦ hne' (congrArg some heq.symm)]
      exact hmade.other d' hd'.ne

/-- The loop of `wait` over the threads changes the directory of the child only. -/
theorem forEach_freeThread_dirs {p : Slot} :
    (forEach slots fun k ↦ freeThread p k).Sat s (fun _ t ↦ (t.proc p).pgdir = (s.proc p).pgdir ∧
      ∀ d, (s.proc p).pgdir = some d → OnlyDir d s.mem t.mem) fun _ ↦ True := by
  refine Sat.forEach (P := fun _ (t : Ptable) ↦ (t.proc p).pgdir = (s.proc p).pgdir ∧
    ∀ d, (s.proc p).pgdir = some d → OnlyDir d s.mem t.mem) ⟨rfl, fun d _ ↦ Changed.refl s.mem d _⟩ ?_
  intro k _ t ⟨hpgdir, honly⟩
  rw [freeThread, sat_get_bind]
  split
  · have hself : ((t.setProc k (t.proc k).freeThread).proc p).pgdir = (t.proc p).pgdir := by
      rw [setProc_proc]
      rcases eq_or_ne p k with rfl | h
      · rw [update_self]
        rfl
      · rw [update_of_ne h]
    refine sat_update_bind.2 (sat_get_bind.2 (sat_bind.2 (sat_pgdirOf (fun _ ↦ trivial) fun d hd ↦ ?_)))
    refine sat_bind.2 (sat_vm.2 ((keeps_deallocuvm (d := d) _ _ _).imp fun sz m hm ↦ ?_))
    rw [hself, hpgdir] at hd
    refine ⟨?_, fun d' hd' ↦ ?_⟩
    · rw [setProc_proc]
      rcases eq_or_ne p k with rfl | h
      · rw [update_self]
        exact hself.trans hpgdir
      · rw [update_of_ne h]
        exact hself.trans hpgdir
    · obtain rfl := Option.mem_unique hd hd'
      exact (honly d hd').trans hm
  · exact ⟨hpgdir, honly⟩

theorem reapChild_dirs {p : Slot} : (reapChild p).Sat s (fun _ t ↦ ∃ d, (s.proc p).pgdir = some d ∧
    t.mem.ndirs = s.mem.ndirs ∧ t.mem.dir d = none ∧ ∀ d', d' ≠ d → t.mem.dir d' = s.mem.dir d')
      fun _ ↦ True := by
  rw [reapChild]
  refine forEach_freeThread_dirs.bind ?_
  intro _ t ⟨hpgdir, honly⟩
  rw [sat_get_bind]
  refine sat_bind.2 (sat_freeStack trivial fun m hn hdir ↦ sat_get_bind.2 ?_)
  have hself : (((t.setMem m).setProc p ((t.proc p).setKstack none)).proc p).pgdir =
      (s.proc p).pgdir := by
    rw [setProc_proc, update_self]
    exact hpgdir
  rw [hself]
  cases hd : (s.proc p).pgdir with
  | none => trivial
  | some d =>
    refine sat_bind.2 (sat_vm.2 (freevm_frame.imp fun _ m' hm' ↦ sat_update_bind.2 ?_))
    obtain ⟨hn', hdir'⟩ := hm'
    have honly := honly d hd
    refine ⟨d, rfl, (hn'.trans hn).trans honly.ndirs, ?_, fun d' hne ↦ ?_⟩
    · show m'.dir d = none
      rw [hdir', update_self]
    · show m'.dir d' = _
      rw [hdir', update_of_ne hne]
      show m.dir d' = _
      rw [hdir, honly.other d' hne]

theorem wait_dirs (hwf : s.mem.Wf) :
    (wait c).Sat s (fun _ t ↦ ∀ x, DirsAfter s c .wait x t) fun _ ↦ True := by
  refine sat_scanLoop.2 ?_
  split
  next p hp =>
    refine reapChild_dirs.imp ?_
    intro _ t ⟨d, hd, hn, hnone, hother⟩ x
    have hreleased : s.released c .wait = some d := by
      have howner : s.owner c .wait = some p := hp
      rw [released, howner]
      exact hd
    have hold : ∀ d', (t.mem.dir d').isSome ↔ (s.mem.dir d').isSome ∧ some d ≠ some d' := by
      intro d'
      rcases eq_or_ne d' d with rfl | hne
      · rw [hnone]
        exact ⟨nofun, fun h ↦ absurd rfl h.2⟩
      · rw [hother d' hne]
        exact ⟨fun h ↦ ⟨h, fun heq ↦ hne (Option.some.inj heq).symm⟩, And.left⟩
    refine ⟨fun d' hd' ↦ ?_, fun d' _ ↦ hreleased ▸ hold d', nofun, nofun, nofun, nofun,
      fun _ d' _ hne ↦ hother d' fun heq ↦ hne (heq ▸ hreleased)⟩
    rw [hn]
    exact hwf d' ((hold d').1 hd').1
  next hnone =>
    have howner : s.owner c .wait = none := hnone
    have hsame : ∀ x, DirsAfter s c .wait x s := by
      refine fun x ↦ ⟨hwf, fun d _ ↦ ?_, nofun, nofun, nofun, nofun, fun _ _ _ _ ↦ rfl⟩
      rw [released, howner]
      exact ⟨fun hd ↦ ⟨hd, nofun⟩, And.left⟩
    split
    · exact hsame
    · exact hsame

/-- **What a system call does to the page directories.** -/
theorem call_dirs (hwf : s.mem.Wf) (hused : (s.proc c).state ≠ .UNUSED)
    (hc : ∀ d, (s.proc c).pgdir = some d → d < s.mem.ndirs) :
    (call c a).Sat s (fun r t ↦ ∀ x, r = some x → DirsAfter s c a x t) fun _ ↦ True := by
  cases a with
  | fork =>
    refine sat_bind.2 ((fork_dirs hwf hused).imp fun r t h x hx ↦ ?_)
    obtain rfl := Option.some.inj hx
    exact h
  | exit => exact sat_bind.2 ((keeps_exit c s).imp fun _ t h x _ ↦ h.dirsAfter hwf rfl (by simp))
  | wait =>
    refine sat_bind.2 ((wait_dirs hwf).imp fun r t h ↦ ?_)
    cases r with
    | found pid | none => exact fun x _ ↦ h x
    | sleep => exact nofun
  | kill pid => exact sat_bind.2 ((keeps_kill pid s).imp fun _ t h x _ ↦ h.dirsAfter hwf rfl (by simp))
  | sbrk n =>
    rw [call, sat_get_bind]
    refine sat_bind.2 ((keeps_growproc c n.toInt s).imp fun r t h ↦ ?_)
    split
    · exact fun x _ ↦ h.dirsAfter hwf rfl (by simp)
    · exact fun x _ ↦ h.dirsAfter hwf rfl (by simp)
  | exec prog =>
    refine sat_bind.2 ((exec_dirs hwf hc).imp fun r t h x hx ↦ ?_)
    obtain rfl := Option.some.inj hx
    exact h
  | threadCreate =>
    refine sat_bind.2 ((keeps_threadCreate c s).imp fun r t h ↦ ?_)
    cases r with
    | none | some tid => exact fun x _ ↦ h.dirsAfter hwf rfl (by simp)
  | threadExit v =>
    exact sat_bind.2 ((keeps_threadExit c v s).imp fun _ t h x _ ↦ h.dirsAfter hwf rfl (by simp))
  | threadJoin thread =>
    refine sat_bind.2 ((keeps_threadJoin c thread s).imp fun r t h ↦ ?_)
    cases r with
    | found v | none => exact fun x _ ↦ h.dirsAfter hwf rfl (by simp)
    | sleep => exact nofun

/-- The page directory of a slot that has not been allocated, in a call that is not an `exec` of its own. -/
theorem Effect.pgdir_eq {r : Ret} {k : Slot} (h : Effect s c a r t)
    (hfree : a.allocates = true → s.freeSlot ≠ some k) (hexec : k = c → ∀ prog, a ≠ .exec prog) :
    (t.proc k).pgdir = (s.proc k).pgdir := by
  cases h with
  | full ha hfree => rfl
  | @wasted _ _ np ha h =>
    rw [h.other k]
    rintro rfl
    exact hfree ha h.free
  | @forked _ np h =>
    rw [h.other k]
    rintro rfl
    exact hfree rfl h.free
  | @spawned _ np _ h =>
    have hk : k ≠ np := by
      rintro rfl
      exact hfree rfl h.free
    obtain ⟨sz, hk'⟩ := h.resized hk
    rw [hk']
    rfl
  | exited hinit h =>
    obtain ⟨q, hq, hk⟩ := h.frame k
    rw [hk]
    split <;> rw [hq] <;> rfl
  | threadExited h =>
    rw [h.frame k]
    rfl
  | @reaped _ p hp h =>
    have hthreads : (s.afterThreads p k).pgdir = (s.proc k).pgdir := by
      rw [afterThreads]
      split <;> rfl
    rcases eq_or_ne k p with rfl | hk
    · rw [h.self]
      exact hthreads
    · rw [h.other k hk]
      exact hthreads
  | noChild => rfl
  | @joined _ p _ hp h =>
    rcases eq_or_ne k p with rfl | hk
    · rw [h.self]
      rfl
    · rw [h.other k hk]
      rfl
  | noThread => rfl
  | @killed _ p hp =>
    rcases eq_or_ne k p with rfl | hk
    · rw [setProc_proc, update_self]
      rfl
    · rw [setProc_proc, update_of_ne hk]
  | notKilled => rfl
  | resized hproc ids =>
    rw [hproc]
    rcases eq_or_ne k c with rfl | hk
    · rw [update_self]
      rfl
    · rw [update_of_ne hk]
  | replaced hproc ids =>
    rw [hproc, update_of_ne fun heq ↦ hexec heq _ rfl]
  | notReplaced => rfl

end Calls

/-! ### Who uses a directory -/

/-- The slot needs its page directory: it can run, or `wait` will free the directory. -/
structure Uses (s : Ptable) (k : Slot) : Prop where
  used : (s.proc k).state ≠ .UNUSED
  started : (s.proc k).state ≠ .EMBRYO
  waited : (s.proc k).state = .ZOMBIE → (s.proc k).parent ≠ none

/-- All other slots of the group of `q` are free or are threads that have exited, and no slot that
`thread_create` has lost names its directory. -/
def LastOfGroup (s : Ptable) (q : Slot) : Prop := ∀ k, k ≠ q →
  ((s.proc k).ptid = (s.proc q).ptid →
    (s.proc k).state = .UNUSED ∨ ((s.proc k).state = .ZOMBIE ∧ (s.proc k).tFlag = true)) ∧
  ((s.proc k).state = .EMBRYO → (s.proc k).pgdir ≠ (s.proc q).pgdir)

instance (s : Ptable) (q : Slot) : Decidable (s.LastOfGroup q) :=
  inferInstanceAs (Decidable (∀ _, _))

/-- A slot whose directory the call frees is the last one of its group. -/
def FreesLast (s : Ptable) (l : Slot × Call) : Prop :=
  match s.owner l.1 l.2 with
  | none => True
  | some q => s.LastOfGroup q

instance (s : Ptable) (l : Slot × Call) : Decidable (s.FreesLast l) :=
  match h : s.owner l.1 l.2 with
  | none => .isTrue (by rw [FreesLast, h]; trivial)
  | some q => decidable_of_iff (s.LastOfGroup q) (by rw [FreesLast, h])

theorem FreesLast.of_owner {c q : Slot} (h : s.FreesLast (c, a)) (hq : s.owner c a = some q) :
    s.LastOfGroup q := by
  rw [FreesLast, hq] at h
  exact h

theorem MayCall.uses {c : Slot} (h : s.MayCall c) : s.Uses c := by
  rcases h with hr | hr
  all_goals exact ⟨by rw [hr]; nofun, by rw [hr]; nofun, by rw [hr]; nofun⟩

theorem IsReaped.uses {c p : Slot} (h : IsReaped s c p) : s.Uses p := by
  refine ⟨by rw [h.zombie]; nofun, by rw [h.zombie]; nofun, fun _ ↦ ?_⟩
  rw [h.parent]
  nofun

end Ptable

/-- What holds of the page directories throughout a run in which they are freed safely. -/
structure DirsInv (s : Ptable) : Prop where
  wf : s.mem.Wf
  idle : ∀ k, (s.proc k).state = .UNUSED ∨ (s.proc k).state = .EMBRYO → (s.proc k).parent = none
  child : ∀ k, (s.proc k).state ≠ .UNUSED → (s.proc k).parent ≠ none → (s.proc k).tFlag = false
  grouped : s.Grouped
  dir : ∀ k, s.Uses k → ∃ d, (s.proc k).pgdir = some d ∧ (s.mem.dir d).isSome
  /-- Only slots of one group share a directory. -/
  share : ∀ k k', s.Uses k → s.Uses k' → (s.proc k).pgdir = (s.proc k').pgdir →
    (s.proc k).ptid = (s.proc k').ptid


namespace DirsInv

section Steps

variable {s t : Ptable} {c : Slot} {a : Call} {r : Ret}

theorem idle_after (h : DirsInv s) (hmay : s.MayCall c) (he : Ptable.Effect s c a r t) (k : Slot)
    (hk : (t.proc k).state = .UNUSED ∨ (t.proc k).state = .EMBRYO) : (t.proc k).parent = none :=
  (he.fate hmay.used k).parent_eq_none (S := fun st ↦ st = .UNUSED ∨ st = .EMBRYO) (fun _ h ↦ h) (.inl rfl) (h.idle k) hk

theorem child_after (h : DirsInv s) (hmay : s.MayCall c) (he : Ptable.Effect s c a r t) (k : Slot)
    (hk : (t.proc k).state ≠ .UNUSED) (hparent : (t.proc k).parent ≠ none) :
    (t.proc k).tFlag = false := by
  rcases (he.fate hmay.used k).used_before hk with ⟨hused, id⟩ | ⟨-, free, new⟩
  · rw [id.tFlag]
    exact h.child k hused (id.parent_ne_none.1 hparent)
  · have hnone := h.idle k (.inl (unused_of_freeSlot free))
    generalize t.proc k = q at new hk hparent
    cases new with
    | wasted hw => cases hw <;> exact absurd hnone hparent
    | forked v d => rfl
    | spawned v x b sz => exact absurd hnone hparent

variable {k : Slot}

/-- A slot that has not been allocated by the call has needed its directory before. -/
theorem uses_before (h : DirsInv s) (hf : Ptable.Fate s t c a k)
    (hfree : a.allocates = true → s.freeSlot ≠ some k) (hk : t.Uses k) :
    s.Uses k ∧ (t.proc k).ptid = (s.proc k).ptid := by
  cases hf with
  | kept id state =>
    refine ⟨?_, id.ptid⟩
    rcases state with heq | ⟨hs, -⟩
    · exact ⟨heq ▸ hk.used, heq ▸ hk.started,
        fun hz ↦ id.parent_ne_none.1 (hk.waited (heq.trans hz))⟩
    · exact ⟨by rw [hs]; nofun, by rw [hs]; nofun, by rw [hs]; nofun⟩
  | ended ends used id state =>
    have hparent := id.parent_ne_none.1 (hk.waited state)
    exact ⟨⟨used, fun hs ↦ hparent (h.idle k (.inr hs)), fun _ ↦ hparent⟩, id.ptid⟩
  | freed ends state parent => exact absurd state hk.used
  | taken alloc free new => exact absurd free (hfree alloc)

/-- The slot that gets a directory of its own: the child of `fork`, or the caller of `exec`. -/
def Renewed (s : Ptable) (c : Slot) (a : Call) (k : Slot) : Prop :=
  (a = .fork ∧ s.freeSlot = some k) ∨ ∃ prog, a = .exec prog ∧ k = c

theorem Renewed.unique {k' : Slot} (h : Renewed s c a k) (h' : Renewed s c a k') : k = k' := by
  rcases h with ⟨rfl, hk⟩ | ⟨prog, rfl, rfl⟩
  · rcases h' with ⟨-, hk'⟩ | ⟨prog, ha, -⟩
    · exact Option.mem_unique hk hk'
    · cases ha
  · rcases h' with ⟨ha, -⟩ | ⟨-, -, rfl⟩
    · cases ha
    · rfl

/-- Where the directory of a slot comes from after a call: it is a new one, or that of a slot `j` which has
used it before and is of the same group. -/
theorem origin (h : DirsInv s) (hmay : s.MayCall c) (he : Ptable.Effect s c a r t)
    (hd : Ptable.DirsAfter s c a r t) (hk : t.Uses k) : (Renewed s c a k ∧ Ptable.NewDir s t k) ∨
      ∃ j, s.Uses j ∧ (t.proc k).pgdir = (s.proc j).pgdir ∧ (t.proc k).ptid = (s.proc j).ptid ∧
        (s.owner c a = none ∨ (j = k ∧ (k = c → ∀ prog, a ≠ .exec prog))) := by
  by_cases hnew : a.allocates = true ∧ s.freeSlot = some k
  · have hunused := unused_of_freeSlot hnew.2
    cases he.fate hmay.used k with
    | kept id state =>
      rcases state with heq | ⟨hs, -⟩
      · exact absurd (heq.trans hunused) hk.used
      · cases hunused.symm.trans hs
    | ended ends used id state => exact absurd hunused used
    | freed ends state parent => exact absurd state hk.used
    | taken alloc free new =>
      have hused := hk.used
      have hstarted := hk.started
      have hforked := hd.forked
      generalize hq : t.proc k = q at new hused hstarted
      cases new with
      | wasted hw => cases hw <;> first | exact absurd rfl hused | exact absurd rfl hstarted
      | forked v d => exact .inl ⟨.inl ⟨rfl, free⟩, hforked rfl k free (by rw [hq]; rfl)⟩
      | spawned v x b sz =>
        refine .inr ⟨c, hmay.uses, rfl, ?_, .inl rfl⟩
        show (if (s.proc c).tFlag then (s.proc c).ptid else (s.proc c).pid) = _
        split
        · rfl
        next hflag => exact h.grouped c hmay.used (Bool.eq_false_iff.2 hflag)
  · have hfree : a.allocates = true → s.freeSlot ≠ some k := fun ha hf ↦ hnew ⟨ha, hf⟩
    obtain ⟨huses, hptid⟩ := h.uses_before (he.fate hmay.used k) hfree hk
    by_cases hexec : k = c ∧ ∃ prog, a = .exec prog
    · obtain ⟨rfl, prog, rfl⟩ := hexec
      cases he with
      | full ha hf | wasted ha hw => cases ha
      | replaced hproc ids => exact .inl ⟨.inr ⟨prog, rfl, rfl⟩, hd.replaced prog rfl rfl⟩
      | notReplaced => exact .inr ⟨k, huses, rfl, rfl, .inl (hd.failed prog rfl nofun)⟩
    · have hexec' : k = c → ∀ prog, a ≠ .exec prog := fun hkc prog ha ↦ hexec ⟨hkc, prog, ha⟩
      exact .inr ⟨k, huses, he.pgdir_eq hfree hexec', hptid, .inr ⟨rfl, hexec'⟩⟩

/-- Whose directory is released has used it. -/
theorem uses_owner {q : Slot} (hmay : s.MayCall c) (hq : s.owner c a = some q) :
    s.Uses q ∧ a.allocates = false := by
  cases a with
  | wait => exact ⟨(isReaped_of_reapedSlot hq).uses, rfl⟩
  | exec prog =>
    rw [owner] at hq
    split at hq
    · exact ⟨Option.some.inj hq ▸ hmay.uses, rfl⟩
    · cases hq
  | fork | exit | kill | sbrk | threadCreate | threadExit | threadJoin => cases hq

/-- It does so after the call only if it has got a new one. -/
theorem owner_after (h : DirsInv s) (hmay : s.MayCall c) (he : Ptable.Effect s c a r t)
    (hd : Ptable.DirsAfter s c a r t) {q : Slot} (hq : s.owner c a = some q) (hq' : t.Uses q) :
    q = c ∧ ∃ prog, a = .exec prog := by
  cases a with
  | wait =>
    cases he with
    | full ha hf | wasted ha hw => cases ha
    | @reaped _ p hp hr =>
      obtain rfl := Option.mem_unique hq hp.reapedSlot_eq
      refine absurd ?_ hq'.used
      rw [hr.self]
      rfl
    | noChild =>
      -- The directory would have been freed.
      obtain ⟨d, hpgdir, hsome⟩ := h.dir q (uses_owner hmay hq).1
      have hreleased : s.released c .wait = some d := by
        rw [released, hq]
        exact hpgdir
      exact absurd hreleased ((hd.old d (h.wf d hsome)).1 hsome).2
  | exec prog =>
    rw [owner] at hq
    split at hq
    · exact ⟨(Option.some.inj hq).symm, prog, rfl⟩
    · cases hq
  | fork | exit | kill | sbrk | threadCreate | threadExit | threadJoin => cases hq

/-- Who uses a directory after a call has not lost it. -/
theorem released_ne (h : DirsInv s) (hmay : s.MayCall c) (he : Ptable.Effect s c a r t)
    (hd : Ptable.DirsAfter s c a r t) (hlast : s.FreesLast (c, a)) {j : Slot} (hk : t.Uses k) (hj : s.Uses j)
    (hjk : s.owner c a = none ∨ (j = k ∧ (k = c → ∀ prog, a ≠ .exec prog))) {d : ℕ}
    (hpgdir : (s.proc j).pgdir = some d) : s.released c a ≠ some d := by
  intro hreleased
  rw [released] at hreleased
  obtain ⟨q, hq, hqd⟩ := Option.bind_eq_some_iff.1 hreleased
  rcases hjk with hnone | ⟨rfl, hexec⟩
  · cases hnone.symm.trans hq
  have hne : j ≠ q := by
    rintro rfl
    obtain ⟨hjc, prog, ha⟩ := h.owner_after hmay he hd hq hk
    exact hexec hjc prog ha
  -- The two share the directory, so they are of one group, and all others of it have exited.
  have hptid := h.share j q hj (uses_owner hmay hq).1 (hpgdir.trans hqd.symm)
  rcases ((hlast.of_owner hq) j hne).1 hptid with hunused | ⟨hzombie, hflag⟩
  · exact hj.used hunused
  · exact Bool.false_ne_true ((h.child j hj.used (hj.waited hzombie)).symm.trans hflag)

theorem effect (h : DirsInv s) (hmay : s.MayCall c) (he : Ptable.Effect s c a r t)
    (hd : Ptable.DirsAfter s c a r t) (hlast : s.FreesLast (c, a)) : DirsInv t := by
  refine ⟨hd.wf, h.idle_after hmay he, h.child_after hmay he, h.grouped.effect hmay.used he, ?_, ?_⟩
  · intro k hk
    rcases h.origin hmay he hd hk with ⟨-, d, hpgdir, -, hsome⟩ | ⟨j, hj, hpgdir, -, hjk⟩
    · exact ⟨d, hpgdir, hsome⟩
    · obtain ⟨d, hjd, hsome⟩ := h.dir j hj
      refine ⟨d, hpgdir.trans hjd, (hd.old d (h.wf d hsome)).2 ⟨hsome, ?_⟩⟩
      exact h.released_ne hmay he hd hlast hk hj hjk hjd
  · -- A new directory has one user, and the number of an old one is smaller.
    have hnew : ∀ k k', Ptable.NewDir s t k → (∃ j, s.Uses j ∧ (t.proc k').pgdir = (s.proc j).pgdir) →
        (t.proc k).pgdir ≠ (t.proc k').pgdir := by
      intro k k' ⟨d, hpgdir, hle, _⟩ ⟨j, hj, hpgdir'⟩ heq
      obtain ⟨d', hjd, hsome⟩ := h.dir j hj
      have hdd : d = d' := Option.some.inj
        (hpgdir.symm.trans (heq.trans (hpgdir'.trans hjd)))
      exact absurd (h.wf d' hsome) (not_lt.2 (hdd ▸ hle))
    intro k k' hk hk' heq
    rcases h.origin hmay he hd hk with ⟨hren, hkd⟩ | ⟨j, hj, hpgdir, hptid, -⟩
    · rcases h.origin hmay he hd hk' with ⟨hren', -⟩ | ⟨j, hj, hpgdir, -, -⟩
      · rw [hren.unique hren']
      · exact absurd heq (hnew k k' hkd ⟨j, hj, hpgdir⟩)
    · rcases h.origin hmay he hd hk' with ⟨-, hkd⟩ | ⟨j', hj', hpgdir', hptid', -⟩
      · exact absurd heq.symm (hnew k' k hkd ⟨j, hj, hpgdir⟩)
      · rw [hptid, hptid']
        exact h.share j j' hj hj' (hpgdir.symm.trans (heq.trans hpgdir'))

/-- A slot that has been lost stays so and keeps the directory that it names. -/
theorem embryo_before (hmay : s.MayCall c) (he : Ptable.Effect s c a r t) (ha : a.allocates = false)
    (hk : (t.proc k).state = .EMBRYO) : (s.proc k).state = .EMBRYO ∧ (t.proc k).pgdir = (s.proc k).pgdir := by
  have hstate : (s.proc k).state = .EMBRYO := by
    cases he.fate hmay.used k with
    | kept id state =>
      rcases state with heq | ⟨-, hs⟩
      · exact heq.symm.trans hk
      · cases hk.symm.trans hs
    | ended ends used id state | freed ends state parent => cases hk.symm.trans state
    | taken alloc free new => exact absurd (ha.symm.trans alloc) Bool.false_ne_true
  refine ⟨hstate, he.pgdir_eq (fun h ↦ absurd (ha.symm.trans h) Bool.false_ne_true) ?_⟩
  rintro rfl
  exact absurd hstate hmay.uses.started

/-- The directory of a process that can make a call has been given out. -/
theorem lt_ndirs (h : DirsInv s) (hmay : s.MayCall c) {d : ℕ} (hd : (s.proc c).pgdir = some d) :
    d < s.mem.ndirs := by
  obtain ⟨d', hd', hsome⟩ := h.dir c hmay.uses
  obtain rfl := Option.mem_unique hd hd'
  exact h.wf d hsome

/-- What a step does. -/
theorem of_step (h : DirsInv s) (hstep : s.step (c, a) = some (.ok t)) :
    s.MayCall c ∧ ∃ r, Ptable.Effect s c a r t ∧ Ptable.DirsAfter s c a r t := by
  obtain ⟨hmay, r, hrun⟩ := step_ok hstep
  exact ⟨hmay, r, (call_effect hmay.used).of_ok hrun r rfl,
    (call_dirs h.wf hmay.used fun _ ↦ h.lt_ndirs hmay).of_ok hrun r rfl⟩

theorem of_boot {freelist : List ℕ} (hboot : boot freelist = .ok s) : DirsInv s := by
  obtain ⟨_, p, d, hbooted⟩ := userinit_sat.of_exec_ok hboot
  obtain ⟨v, hself⟩ := hbooted.self
  have hparent : ∀ k, (s.proc k).parent = none := by
    intro k
    rcases eq_or_ne k p with rfl | hk
    · rw [hself]
      rfl
    · rw [hbooted.other k hk]
      rfl
  refine ⟨hbooted.wf, fun k _ ↦ hparent k, fun k _ hk ↦ absurd (hparent k) hk, fun k hused _ ↦ ?_,
    fun k hk ↦ ?_, fun k k' hk hk' _ ↦ ?_⟩
  · rcases eq_or_ne k p with rfl | hk
    · rw [hself]
      rfl
    · rw [hbooted.other k hk]
      rfl
  · rw [hbooted.eq_of_used hk.used]
    exact ⟨d, by rw [hself]; rfl, hbooted.dir⟩
  · rw [hbooted.eq_of_used hk.used, hbooted.eq_of_used hk'.used]

end Steps

end DirsInv

namespace Ptable

variable {freelist : List ℕ} {s₀ s : Ptable} {ls : List (Slot × Call)}

theorem dirsInv_of_run (hboot : boot freelist = .ok s₀)
    (hrun : Machine.Run (Machine.guarded FreesLast step) s₀ ls s) : DirsInv s := by
  refine hrun.invariant (P := DirsInv) (DirsInv.of_boot hboot) ?_
  intro τ τ' l hinv hstep
  obtain ⟨hlast, hstep⟩ := Machine.guarded_eq_some.1 hstep
  obtain ⟨hmay, r, he, hd⟩ := hinv.of_step hstep
  exact hinv.effect hmay he hd hlast

/-- **Page directories are freed once, and while nobody uses them.** In every run from a boot in which
directories are only freed by the last of their group, the directory that the next call frees is there;
afterwards it is gone, and no slot that is `EMBRYO`, `SLEEPING`, `RUNNABLE` or `RUNNING` has it. -/
theorem dirs_freed_safely {c : Slot} {a : Call} {d : ℕ} (hboot : boot freelist = .ok s₀)
    (hrun : Machine.Run (Machine.guarded FreesLast step) s₀ ls s) (hmay : s.MayCall c)
    (hlast : s.FreesLast (c, a)) (hd : s.released c a = some d) :
    (s.mem.dir d).isSome ∧ ∀ t, s.step (c, a) = some (.ok t) →
      t.mem.dir d = none ∧ ∀ k, t.Alive k → (t.proc k).pgdir ≠ some d := by
  have hinv := dirsInv_of_run hboot hrun
  obtain ⟨q, hq, hqd⟩ := Option.bind_eq_some_iff.1 hd
  obtain ⟨huses, halloc⟩ := DirsInv.uses_owner hmay hq
  have hsome : (s.mem.dir d).isSome := by
    obtain ⟨d', hqd', hsome⟩ := hinv.dir q huses
    obtain rfl := Option.mem_unique hqd hqd'
    exact hsome
  refine ⟨hsome, fun t hstep ↦ ?_⟩
  obtain ⟨-, r, he, hdirs⟩ := hinv.of_step hstep
  have hgone : ¬(t.mem.dir d).isSome :=
    fun h ↦ ((hdirs.old d (hinv.wf d hsome)).1 h).2 hd
  refine ⟨Option.not_isSome_iff_eq_none.1 hgone, fun k hk hkd ↦ ?_⟩
  by_cases hembryo : (t.proc k).state = .EMBRYO
  · obtain ⟨hstate, hpgdir⟩ := DirsInv.embryo_before hmay he halloc hembryo
    have hkq : k ≠ q := by
      rintro rfl
      exact huses.started hstate
    exact ((hlast.of_owner hq) k hkq).2 hstate (hpgdir.symm.trans (hkd.trans hqd.symm))
  · have hk' : t.Uses k := ⟨hk.1, hembryo, fun hz ↦ absurd hz hk.2⟩
    obtain ⟨d', hkd', hsome'⟩ := (hinv.effect hmay he hdirs hlast).dir k hk'
    obtain rfl := Option.mem_unique hkd hkd'
    exact hgone hsome'

/-- A process that has joined its thread replaces its address space and exits, and is reaped. -/
theorem dirs_freed_safely_reaped : ∃ freelist s₀ ls s, boot freelist = .ok s₀ ∧
    Machine.Run (Machine.guarded FreesLast step) s₀ ls s ∧
      ls = [(0, .fork), (1, .threadCreate), (2, .threadExit 0), (1, .threadJoin 0),
        (1, .exec ⟨true, true, [], []⟩), (1, .exit)] ∧
      s.MayCall 0 ∧ s.FreesLast (0, .wait) ∧ s.released 0 .wait = some 2 ∧
      (s.mem.dir 2).isSome ∧ ∀ t, s.step (0, .wait) = some (.ok t) →
        t.mem.dir 2 = none ∧ ∀ k, t.Alive k → (t.proc k).pgdir ≠ some 2 :=
  exists_boot_run_of (List.range' 1 400) _
    (fun s ↦ s.MayCall 0 ∧ s.FreesLast (0, .wait) ∧ s.released 0 .wait = some 2) (by decide +kernel)
    fun _ _ hboot hrun h ↦ ⟨rfl, h.1, h.2.1, h.2.2, dirs_freed_safely hboot hrun h.1 h.2.1 h.2.2⟩

/-- A process with a thread replaces its address space, and the thread that can run is left with a directory
that has been freed. And a process that has made a thread leaves by `thread_exit`, the thread replaces its
address space, and `wait` frees the directory once more. -/
theorem dir_freed_in_use :
    (∃ freelist s₀ ls t, boot freelist = .ok s₀ ∧ Machine.Run step s₀ ls t ∧
      ls = [(0, .fork), (1, .threadCreate), (1, .exec ⟨true, true, [], []⟩)] ∧
      (t.proc 2).state = .RUNNABLE ∧ (t.proc 2).pgdir = some 1 ∧ t.mem.dir 1 = none) ∧
    ∃ freelist s₀ ls s, boot freelist = .ok s₀ ∧ Machine.Run step s₀ ls s ∧
      ls = [(0, .fork), (1, .threadCreate), (1, .threadExit 0), (2, .exec ⟨true, true, [], []⟩)] ∧
      s.MayCall 0 ∧ s.released 0 .wait = some 1 ∧ s.mem.dir 1 = none ∧
      s.step (0, .wait) = some (.error .dangling) := by
  constructor
  · exact exists_boot_run_of (List.range' 1 400) _ (fun t ↦ (t.proc 2).state = .RUNNABLE ∧
      (t.proc 2).pgdir = some 1 ∧ (t.mem.dir 1).isNone) (by decide +kernel) fun _ t _ _ ht ↦
        ⟨rfl, ht.1, ht.2.1, Option.isNone_iff_eq_none.1 ht.2.2⟩
  · exact exists_boot_run_of (List.range' 1 400) _ (fun s ↦ s.MayCall 0 ∧ s.released 0 .wait = some 1 ∧
      (s.mem.dir 1).isNone ∧ Machine.stops step s (0, .wait) .dangling) (by decide +kernel) fun _ s _ _ hs ↦
        ⟨rfl, hs.1, hs.2.1, Option.isNone_iff_eq_none.1 hs.2.2.1, Machine.step_of_stops hs.2.2.2⟩

end Ptable

end Xv6
