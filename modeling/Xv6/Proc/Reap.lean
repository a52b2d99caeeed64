import Xv6.Proc.Calls
import Xv6.Proc.Table

/-!
# What `wait` and `thread_join` do to the table

Both reap one slot, and both change others on the way. `wait` frees every slot whose `main_thread`
points to the child it reaps; `thread_join` hands the freed addresses to the first slot of the table
whose `end` is the upper end of the freed stack, and lowers the size of the whole group when the stack
was the topmost one. Here both are computed exactly (`wait_found`, `threadJoin_found`).

Neither `main_thread` nor `end` is kept clean. `allocproc` does not reset `main_thread`, so a slot that
was a thread of a process and has been given to a child still points to it; `WaitFrame` then fails.
And `end` is an address of some address space, which another group may also use, or a value left over
in a slot; `JoinFrame` then fails. In both cases the exact condition on the table is given.
-/

namespace Xv6

open Prog Vm
open Function (update_idem update_of_ne update_self)

namespace Ptable

/-! ### `wait` -/

/-- What `deallocuvm(pgdir, start, start - 2*PGSIZE)` returns. -/
def freedSize (start : ℕ) : ℕ :=
  if start ≤ uint (start - 2 * PGSIZE) then start else uint (start - 2 * PGSIZE)

/-- A slot that `wait` has freed as a thread. -/
def freedThread (q : Proc) (sz : ℕ) : Proc := q.freeThread.setSz sz

variable {s t : Ptable} {p c : Slot}

/-- A slot that points to `p` is freed. -/
theorem freeThread_sat {k : Slot} : (freeThread p k).Sat s (fun _ t ↦ SameIds s t ∧ t.proc =
        if (s.proc k).mainThread = some p then
          Function.update s.proc k (freedThread (s.proc k) (freedSize (s.proc p).start)) else s.proc)
      fun _ ↦ True := by
  rw [freeThread, sat_get_bind]
  split
  next hk =>
    rw [sat_update_bind, sat_get_bind]
    -- The slot itself may be `p`; its `start` is not among the fields that are reset.
    have hstart : ((s.setProc k (s.proc k).freeThread).proc p).start = (s.proc p).start := by
      rw [setProc_proc]
      rcases eq_or_ne p k with rfl | h
      · rw [update_self]
        rfl
      · rw [update_of_ne h]
    rw [hstart]
    refine sat_bind.2 (sat_pgdirOf (fun _ ↦ trivial) fun d _ ↦ ?_)
    refine sat_bind.2 (sat_vm.2 (deallocuvm_ret.mono ?_ fun _ _ ↦ trivial))
    rintro r m rfl
    refine sat_update.2 ⟨⟨rfl, rfl, rfl⟩, ?_⟩
    rw [setProc_proc, setMem_proc, setProc_proc, update_idem, update_self]
    rfl
  next hk => exact ⟨.refl s, rfl⟩

/-- A slot after the first loop of `wait` that reaps `p`. -/
def afterThreads (s : Ptable) (p k : Slot) : Proc :=
  if (s.proc k).mainThread = some p then freedThread (s.proc k) (freedSize (s.proc p).start)
  else s.proc k

/-- The first loop of `wait` frees every slot that points to `p`. -/
theorem forEach_freeThread_sat : (forEach slots fun k ↦ freeThread p k).Sat s
      (fun _ t ↦ SameIds s t ∧ ∀ k, t.proc k = s.afterThreads p k) fun _ ↦ True := by
  -- The slots still to come are as they were; they are distinct from those already done.
  refine (Sat.forEach (P := fun (l : List Slot) (t : Ptable) ↦ l.Nodup ∧ SameIds s t ∧ ∀ k, t.proc k =
    if (s.proc k).mainThread = some p ∧ k ∉ l then
      freedThread (s.proc k) (freedSize (s.proc p).start)
    else s.proc k) ?_ ?_).imp ?_
  · refine ⟨List.nodup_finRange _, .refl s, fun k ↦ ?_⟩
    rw [if_neg fun h ↦ h.2 (mem_slots k)]
  · intro b l t ⟨hnodup, hids, ht⟩
    rw [List.nodup_cons] at hnodup
    have hb : t.proc b = s.proc b := by
      rw [ht, if_neg fun h ↦ h.2 List.mem_cons_self]
    have hstart : (t.proc p).start = (s.proc p).start := by
      rw [ht]
      split
      · rfl
      · rfl
    refine freeThread_sat.imp ?_
    intro _ u ⟨hids', hu⟩
    refine ⟨hnodup.2, hids.trans hids', fun k ↦ ?_⟩
    rw [hu, hb, hstart]
    split
    next hmain =>
      rcases eq_or_ne k b with rfl | hne
      · rw [update_self, if_pos ⟨hmain, hnodup.1⟩]
      · rw [update_of_ne hne, ht]
        simp only [List.mem_cons, hne, false_or]
    next hmain =>
      rw [ht]
      rcases eq_or_ne k b with rfl | hne
      · rw [if_neg fun h ↦ hmain h.1, if_neg fun h ↦ hmain h.1]
      · simp only [List.mem_cons, hne, false_or]
  · intro _ t ⟨_, hids, ht⟩
    refine ⟨hids, fun k ↦ ?_⟩
    rw [ht, afterThreads]
    simp only [List.not_mem_nil, not_false_eq_true, and_true]

/-- `p` is the slot that `wait` by `c` reaps: its first child that has exited. -/
structure IsReaped (s : Ptable) (c p : Slot) : Prop where
  parent : (s.proc p).parent = some c
  zombie : (s.proc p).state = .ZOMBIE
  first : ∀ j < p, (s.proc j).parent = some c → (s.proc j).state ≠ .ZOMBIE

/-- What `wait` has done when it has reaped `p`. -/
structure Reaped (s t : Ptable) (p : Slot) : Prop where
  self : t.proc p = ((s.afterThreads p p).setKstack none).freeChild
  other : ∀ k, k ≠ p → t.proc k = s.afterThreads p k
  ids : SameIds s t

/-- What `wait` does when it reaps `p`. -/
theorem reapChild_sat : (reapChild p).Sat s
    (fun pid t ↦ pid = (s.afterThreads p p).pid ∧ Reaped s t p) fun _ ↦ True := by
  unfold reapChild
  refine forEach_freeThread_sat.bind ?_
  intro _ t ⟨hids, ht⟩
  rw [sat_get_bind]
  refine sat_bind.2 (sat_freeStack trivial fun m _ _ ↦ sat_get_bind.2 ?_)
  refine sat_bind.2 (sat_vm.2 (sat_iff.2 ⟨fun _ m' _ ↦ ?_, fun _ _ ↦ trivial⟩))
  refine ⟨congrArg Proc.pid (ht p), ?_, fun k hk ↦ ?_, ⟨hids.nextpid, hids.nexttid, hids.initproc⟩⟩
  · rw [setProc_proc, update_self, setMem_proc, setProc_proc, update_self, ht]
  · show Function.update (Function.update t.proc p _) p _ k = _
    rw [update_of_ne hk, update_of_ne hk, ht]

/-- `k` is a thread of the process in slot `p`. -/
def ThreadOf (s : Ptable) (p k : Slot) : Prop :=
  (s.proc k).tFlag = true ∧ (s.proc k).ptid = (s.proc p).pid

/-- Only the child `p` that has been reaped and its threads have changed, and so nobody else who was
alive is gone. -/
structure WaitFrame (s t : Ptable) (p : Slot) : Prop where
  changed : ∀ k, t.proc k ≠ s.proc k → k = p ∨ s.ThreadOf p k
  /-- Who is gone. -/
  live : ∀ k, (s.proc k).state ∈ [.RUNNABLE, .RUNNING, .SLEEPING] → ¬s.ThreadOf p k →
    (t.proc k).state ≠ .UNUSED

/-- Every slot whose `main_thread` points to `p` is a thread of the process in `p`, or it is as `wait`
would leave it. -/
def OnlyThreads (s : Ptable) (p : Slot) : Prop :=
  ∀ k, k ≠ p → (s.proc k).mainThread = some p →
    s.ThreadOf p k ∨ freedThread (s.proc k) (freedSize (s.proc p).start) = s.proc k

/-- The slot that a scan of `wait` by `c` comes to. -/
def reapedSlot (s : Ptable) (c : Slot) : Option Slot :=
  slots.find? fun p ↦ (s.proc p).parent = some c && (s.proc p).state = .ZOMBIE

theorem isReaped_of_reapedSlot (h : s.reapedSlot c = some p) : IsReaped s c p := by
  obtain ⟨hp, i, hi, rfl, hfirst⟩ := List.find?_eq_some_iff_getElem.1 h
  rw [Bool.and_eq_true, decide_eq_true_iff, decide_eq_true_iff] at hp
  refine ⟨hp.1, hp.2, fun j hj hpar hz ↦ ?_⟩
  have hnot := hfirst j (by simpa [slots, Fin.lt_def] using hj)
  simp [slots, hpar, hz] at hnot

theorem IsReaped.reapedSlot_eq (h : IsReaped s c p) : s.reapedSlot c = some p := by
  have hsome : (s.reapedSlot c).isSome := by
    rw [reapedSlot, List.find?_isSome]
    refine ⟨p, mem_slots p, ?_⟩
    rw [Bool.and_eq_true, decide_eq_true_iff, decide_eq_true_iff]
    exact ⟨h.parent, h.zombie⟩
  obtain ⟨q, hq⟩ := Option.isSome_iff_exists.1 hsome
  have hq' := isReaped_of_reapedSlot hq
  rcases lt_trichotomy p q with hlt | rfl | hlt
  · exact absurd h.zombie (hq'.first p hlt h.parent)
  · exact hq
  · exact absurd hq'.zombie (h.first q hlt hq'.parent)

/-- What a scan of `wait` by `c` can have done. -/
inductive WaitResult (s : Ptable) (c : Slot) : Scan ℤ → Ptable → Prop where
  /-- The first child that has exited has been reaped. -/
  | found {p : Slot} {t : Ptable} (h : IsReaped s c p) (reaped : Reaped s t p) :
      WaitResult s c (.found (s.afterThreads p p).pid) t
  /-- There is no child, or the caller has been killed. -/
  | none : WaitResult s c .none s
  /-- No child has exited. -/
  | sleep : WaitResult s c .sleep s

theorem wait_sat : (wait c).Sat s (WaitResult s c) fun _ ↦ True := by
  refine sat_scanLoop.2 ?_
  split
  next p hp =>
    refine reapChild_sat.imp ?_
    rintro _ u ⟨rfl, hu⟩
    exact .found (isReaped_of_reapedSlot hp) hu
  · split
    · exact .none
    · exact .sleep

/-- A scan of `wait` that returns a pid has reaped the first child that has exited. -/
theorem wait_found {pid : ℤ} (h : (wait c).run s = .ok (.found pid, t)) :
    ∃ p, IsReaped s c p ∧ ∀ k, k ≠ p → t.proc k = if (s.proc k).mainThread = some p then
        freedThread (s.proc k) (freedSize (s.proc p).start) else s.proc k := by
  cases wait_sat.of_ok h with
  | found hp hreaped => exact ⟨_, hp, hreaped.other⟩

/-- **What `wait` changes.** For every table and every scan of `wait` that returns a pid, only the
child that is reaped and its threads change if and only if every other slot whose `main_thread` points
to the child is one of its threads, or is blank already. -/
theorem wait_frame_iff {s t : Ptable} {c : Slot} {pid : ℤ}
    (h : (wait c).run s = .ok (.found pid, t)) :
    ∃ p, IsReaped s c p ∧ (WaitFrame s t p ↔ OnlyThreads s p) := by
  obtain ⟨p, hp, ht⟩ := wait_found h
  refine ⟨p, hp, ?_, ?_⟩
  · intro hframe k hk hmain
    rcases Classical.em (freedThread (s.proc k) (freedSize (s.proc p).start) = s.proc k) with he | he
    · exact .inr he
    · refine .inl ((hframe.changed k ?_).resolve_left hk)
      rw [ht k hk, if_pos hmain]
      exact he
  · intro hclean
    have hchanged : ∀ k, t.proc k ≠ s.proc k → k = p ∨ s.ThreadOf p k := by
      intro k hne
      rcases eq_or_ne k p with rfl | hk
      · exact .inl rfl
      · rw [ht k hk] at hne
        split at hne
        next hmain => exact .inr ((hclean k hk hmain).resolve_right hne)
        · exact absurd rfl hne
    refine ⟨hchanged, fun k hlive hnot hunused ↦ ?_⟩
    -- Who was alive and is now `UNUSED` has changed, and is not the child, which was a zombie.
    have hne : t.proc k ≠ s.proc k := by
      intro heq
      rw [← heq, hunused] at hlive
      simp at hlive
    rcases hchanged k hne with rfl | h
    · rw [hp.zombie] at hlive
      simp at hlive
    · exact hnot h

/-- The first process forks a child, and reaps it after it has exited. -/
theorem wait_frame_iff_fork : ∃ s t c pid, (wait c).run s = .ok (.found pid, t) ∧
    ∃ p, IsReaped s c p ∧ (WaitFrame s t p ↔ OnlyThreads s p) := by
  obtain ⟨s, r, t, -, h, rfl⟩ := exists_return (List.range' 1 200) [(0, .fork), (1, .exit)] (wait 0)
    (fun _ r _ ↦ r = .found 2) (by decide +kernel)
  exact ⟨s, t, 0, 2, h, wait_frame_iff h⟩

/-- A process makes a thread and joins it, forks a child, which gets the slot of the thread, and
exits. The first process reaps it, and the child, which is no thread and could run, is gone. -/
theorem wait_frees_child : ∃ s, Reachable s ∧ ∃ t c pid k, (wait c).run s = .ok (.found pid, t) ∧
    (s.proc k).state = .RUNNABLE ∧ (s.proc k).tFlag = false ∧ (t.proc k).state = .UNUSED := by
  obtain ⟨s, r, t, hreach, h, rfl, hflags⟩ := exists_return (List.range' 1 400)
    [(0, .fork), (1, .threadCreate), (2, .threadExit 7), (1, .threadJoin 0), (1, .fork), (1, .exit)] (wait 0)
    (fun s r t ↦ r = .found 2 ∧ (s.proc 2).state = .RUNNABLE ∧ (s.proc 2).tFlag = false ∧ (t.proc 2).state = .UNUSED)
    (by decide +kernel)
  exact ⟨s, hreach, t, 0, 2, 2, h, hflags⟩

/-! ### `thread_join` -/

/-- The slot that takes over the addresses of the stack of `p`. -/
def merged (s : Ptable) (p : Slot) : Option Slot :=
  slots.find? fun k ↦ (s.proc k).stop = (s.proc p).start

/-- The stack of `p` is the topmost one, for the caller `c`, whose slot has been reset if it is `p`. -/
def AtEdge (s : Ptable) (c p : Slot) : Prop :=
  (s.proc p).start = if c = p then 0 else (s.proc c).sz

instance (s : Ptable) (c p : Slot) : Decidable (s.AtEdge c p) :=
  inferInstanceAs (Decidable (_ = _))

/-- `k` belongs to the group of `c`. -/
def Member (s : Ptable) (c k : Slot) : Prop :=
  (s.proc k).state ≠ .UNUSED ∧ (s.proc k).ptid = (s.proc c).ptid

instance (s : Ptable) (c k : Slot) : Decidable (s.Member c k) :=
  inferInstanceAs (Decidable (_ ∧ _))

/-- The `end` of another slot after `p` has been joined. -/
def stopAfterJoin (s : Ptable) (p k : Slot) : ℕ :=
  if s.merged p = some k then (s.proc p).stop else (s.proc k).stop

/-- The size of another slot after `c` has joined `p`. -/
def szAfterJoin (s : Ptable) (c p k : Slot) : ℕ :=
  if s.AtEdge c p ∧ s.Member c k then (s.proc p).stop else (s.proc k).sz

/-- The first slot with the given `end` gets another one. -/
theorem mergeStacks_sat {start stop : ℕ} {E : Fault → Prop} :
    (mergeStacks start stop).Sat s (fun _ t ↦ OnlyProcs s t ∧ ∀ k, t.proc k =
        (s.proc k).setStop (if (slots.find? fun k ↦ (s.proc k).stop = start) = some k then stop
          else (s.proc k).stop))
      E := by
  rw [mergeStacks, sat_get_bind]
  split
  next h hh =>
    refine ⟨⟨rfl, rfl, rfl, rfl⟩, fun k ↦ ?_⟩
    rw [hh, setProc_proc]
    rcases eq_or_ne k h with rfl | hne
    · rw [update_self, if_pos rfl]
    · rw [update_of_ne hne, if_neg fun h ↦ hne (Option.some.inj h).symm]
      rfl
  next hh =>
    refine ⟨.refl s, fun k ↦ ?_⟩
    rw [hh]
    rfl

/-- The sizes of the group are lowered if the stack is the topmost one. -/
theorem lowerSizes_sat {E : Fault → Prop} :
    (lowerSizes c p).Sat s (fun _ t ↦ OnlyProcs s t ∧ ∀ k, t.proc k = (s.proc k).setSz
        (if (s.proc p).start = (s.proc c).sz ∧ s.Member c k then (s.proc p).stop
          else (s.proc k).sz))
      E := by
  rw [lowerSizes, sat_get_bind]
  split
  next hedge =>
    refine ⟨⟨rfl, rfl, rfl, rfl⟩, fun k ↦ ?_⟩
    rw [mapProcs_proc]
    have hmem : (decide ((s.proc k).state ≠ .UNUSED) &&
        decide ((s.proc k).ptid = (s.proc c).ptid)) = true ↔ s.Member c k := by
      rw [Bool.and_eq_true, decide_eq_true_iff, decide_eq_true_iff]
      rfl
    by_cases hk : s.Member c k
    · rw [if_pos (hmem.2 hk), if_pos ⟨hedge, hk⟩]
    · rw [if_neg fun h ↦ hk (hmem.1 h), if_neg fun h ↦ hk h.2]
      rfl
  next hedge =>
    refine ⟨.refl s, fun k ↦ ?_⟩
    rw [if_neg fun h ↦ hedge h.1]
    rfl

/-- What `thread_join` by `c` has done when it has reaped `p`. -/
structure Joined (s t : Ptable) (c p : Slot) : Prop where
  /-- The slot is free. Its `main_thread` is left as it was. -/
  self : t.proc p = (((s.proc p).setKstack none).joined).setStack 0 0
  /-- The other slots. -/
  other : ∀ k, k ≠ p → t.proc k =
    ((s.proc k).setStop (s.stopAfterJoin p k)).setSz (s.szAfterJoin c p k)
  /-- The pages of the stack have been freed. -/
  mem : ∃ d m r, (s.proc p).pgdir = some d ∧ m.ndirs = s.mem.ndirs ∧ m.dir = s.mem.dir ∧
    (deallocuvm d (s.proc p).start (uint ((s.proc p).start - 2 * PGSIZE))).run m = .ok (r, t.mem)
  nextpid : t.nextpid = s.nextpid
  nexttid : t.nexttid = s.nexttid
  initproc : t.initproc = s.initproc

/-- What `thread_join` does when it reaps `p`, and how it can stop. -/
theorem reapThread_sat : (reapThread c p).Sat s (fun v t ↦ v = (s.proc p).retval ∧ Joined s t c p)
      fun e ↦ e = .dangling ∨ e = .panic .kfree := by
  unfold reapThread
  refine sat_bind.2 (sat_freeStack (.inr rfl) fun m hmn hmd ↦
    sat_update_bind.2 (sat_get_bind.2 ?_))
  -- The table after the fields of `p` have been reset.
  obtain ⟨s₁, hs₁⟩ : ∃ s₁, s₁ = ((s.setMem m).setProc p ((s.proc p).setKstack none)).setProc p
    (((s.setMem m).setProc p ((s.proc p).setKstack none)).proc p).joined := ⟨_, rfl⟩
  have hp : s₁.proc p = ((s.proc p).setKstack none).joined := by
    rw [hs₁, setProc_proc, update_self, setProc_proc, update_self]
  have hk : ∀ k, k ≠ p → s₁.proc k = s.proc k := by
    intro k hne
    rw [hs₁, setProc_proc, update_of_ne hne, setProc_proc, update_of_ne hne]
    rfl
  rw [← hs₁]
  have hstop : ∀ k, (s₁.proc k).stop = (s.proc k).stop := by
    intro k
    rcases eq_or_ne k p with rfl | hne
    · rw [hp]
      rfl
    · rw [hk k hne]
  have hstart : (s₁.proc p).start = (s.proc p).start := by rw [hp]; rfl
  have hmerged : (slots.find? fun k ↦ (s₁.proc k).stop = (s₁.proc p).start) = s.merged p := by
    rw [merged, hstart]
    simp only [hstop]
  refine mergeStacks_sat.bind ?_
  intro _ s₂ ⟨hsame₂, hs₂⟩
  replace hs₂ : ∀ k, s₂.proc k = (s₁.proc k).setStop (s.stopAfterJoin p k) := by
    intro k
    rw [hs₂ k, hmerged, hstop, hstop]
    rfl
  refine lowerSizes_sat.bind ?_
  intro _ s₃ ⟨hsame₃, hs₃⟩
  refine sat_bind.2 (sat_pgdirOf (fun _ ↦ .inl rfl) fun d hd ↦ ?_)
  refine sat_bind.2 (sat_vm.2 (sat_iff.2 ⟨fun r m' hrun ↦ ?_, fun e he ↦
    deallocuvm_ret.of_error he⟩))
  -- What `lowerSizes` has read.
  have hedge : (s₂.proc p).start = (s₂.proc c).sz ↔ s.AtEdge c p := by
    have hsz : (s₂.proc c).sz = if c = p then 0 else (s.proc c).sz := by
      rw [hs₂]
      split
      next h => rw [h, hp]; rfl
      next h => rw [hk c h]; rfl
    rw [hsz, hs₂, AtEdge]
    show (s₁.proc p).start = _ ↔ _
    rw [hstart]
  have hpstop : (s₂.proc p).stop = (s.proc p).stop := by
    rw [hs₂]
    rw [stopAfterJoin]
    split
    · rfl
    · rfl
  have hptid : (s₂.proc c).ptid = (s.proc c).ptid := by
    rw [hs₂]
    rcases eq_or_ne c p with rfl | h
    · rw [hp]
      rfl
    · rw [hk c h]
      rfl
  have hsame : OnlyProcs s₁ s₃ := hsame₂.trans hsame₃
  refine ⟨by rw [hp]; rfl, ?_, ?_, ?_, ?_, ?_, ?_⟩
  · rw [setProc_proc, update_self, setMem_proc, hs₃, if_neg, hs₂, hp]
    · rfl
    · intro h
      refine h.2.1 ?_
      rw [hs₂, hp]
      rfl
  · intro k hne
    have hmem : s₂.Member c k ↔ s.Member c k := by
      rw [Member, Member, hptid, hs₂, hk k hne]
      rfl
    have hif : (if (s₂.proc p).start = (s₂.proc c).sz ∧ s₂.Member c k then (s₂.proc p).stop
        else (s₂.proc k).sz) = s.szAfterJoin c p k := by
      refine if_congr (and_congr hedge hmem) hpstop ?_
      rw [hs₂, hk k hne]
      rfl
    rw [setProc_proc, update_of_ne hne, setMem_proc, hs₃, hif, hs₂, hk k hne]
  · refine ⟨d, m, r, ?_, hmn, hmd, ?_⟩
    · rw [← hd, hs₃, hs₂, hp]
      rfl
    · have hmem : s₁.mem = m := by rw [hs₁]; rfl
      rw [hsame.mem, hmem, hstart] at hrun
      exact hrun
  · exact hsame.nextpid.trans (by rw [hs₁]; rfl)
  · exact hsame.nexttid.trans (by rw [hs₁]; rfl)
  · exact hsame.initproc.trans (by rw [hs₁]; rfl)

/-- The pages of the stack are gone. -/
theorem Joined.pages {d : ℕ} (h : Joined s t c p) (hd : (s.proc p).pgdir = some d)
    (hdir : (s.mem.dir d).isSome) (hle : 2 * PGSIZE ≤ (s.proc p).start) (hlt : (s.proc p).start ≤ KERNBASE) :
    Pages s.mem t.mem d (fun va ↦ (s.proc p).start - 2 * PGSIZE ≤ va ∧ va < (s.proc p).start) ∧
      ∀ va, UserPage va → (s.proc p).start - 2 * PGSIZE ≤ va → va < (s.proc p).start →
        ¬t.mem.Present d va := by
  obtain ⟨d', m, r, hd', hn, hm, hrun⟩ := h.mem
  obtain rfl := Option.mem_unique hd hd'
  have hK : KERNBASE = 2147483648 := rfl
  have hpos : 0 < 2 * PGSIZE := by decide
  have hlow : uint ((s.proc p).start - 2 * PGSIZE) = (s.proc p).start - 2 * PGSIZE := by
    unfold uint
    omega
  rw [hlow] at hrun
  obtain ⟨-, hch, hnone⟩ := (deallocuvm_sat (by omega) hlt (hm ▸ hdir)).of_ok hrun
  refine ⟨(Pages.of_dir hn hm).trans hch.pages, fun va hva h1 h2 hpresent ↦ ?_⟩
  rw [Mem.Present, hnone va hva h1 h2] at hpresent
  cases hpresent

/-- `p` is the slot that `thread_join` by `c` reaps: one with the given creator and id that has
exited. -/
structure IsJoined (s : Ptable) (c p : Slot) (thread : ℤ) : Prop where
  mainThread : (s.proc p).mainThread = some c
  tid : (s.proc p).tid = thread
  zombie : (s.proc p).state = .ZOMBIE

/-- What a scan of `thread_join` by `c` can have done. -/
inductive JoinResult (s : Ptable) (c : Slot) (thread : ℤ) : Scan ℕ → Ptable → Prop where
  /-- One slot has been reaped. -/
  | found {p : Slot} {t : Ptable} (h : IsJoined s c p thread) (joined : Joined s t c p) :
      JoinResult s c thread (.found (s.proc p).retval) t
  /-- No slot has the creator and the id, or the caller has been killed. -/
  | none (h : (∀ k, (s.proc k).mainThread = some c → (s.proc k).tid ≠ thread) ∨
      (s.proc c).killed = true) : JoinResult s c thread .none s
  /-- There are such slots, and none of them has exited. -/
  | sleep {p : Slot} (main : (s.proc p).mainThread = some c) (tid : (s.proc p).tid = thread)
      (h : ∀ k, ¬IsJoined s c k thread) (killed : (s.proc c).killed = false) :
      JoinResult s c thread .sleep s

theorem threadJoin_sat {thread : ℤ} : (threadJoin c thread).Sat s (JoinResult s c thread) fun e ↦
      e = .dangling ∨ e = .panic .kfree := by
  refine sat_scanLoop.2 ?_
  split
  next p hp =>
    have hp₁ := List.find?_some hp
    rw [Bool.and_eq_true, Bool.and_eq_true, decide_eq_true_iff, decide_eq_true_iff,
      decide_eq_true_iff] at hp₁
    refine reapThread_sat.imp ?_
    rintro _ u ⟨rfl, hjoined⟩
    exact .found ⟨hp₁.1.1, hp₁.1.2, hp₁.2⟩ hjoined
  next hnone =>
    have hnot : ∀ k, ¬IsJoined s c k thread := by
      intro k hk
      refine List.find?_eq_none.1 hnone k (mem_slots k) ?_
      rw [Bool.and_eq_true, Bool.and_eq_true, decide_eq_true_iff, decide_eq_true_iff,
        decide_eq_true_iff]
      exact ⟨⟨hk.mainThread, hk.tid⟩, hk.zombie⟩
    rw [Bool.false_or]
    split
    next h =>
      rw [Bool.or_eq_true, Bool.not_eq_true', List.any_eq_false] at h
      refine .none (h.imp (fun h k hmain htid ↦ h k (mem_slots k) ?_) id)
      rw [Bool.and_eq_true, decide_eq_true_iff, decide_eq_true_iff]
      exact ⟨hmain, htid⟩
    next h =>
      rw [Bool.or_eq_true, not_or, Bool.not_eq_true', Bool.not_eq_false, List.any_eq_true] at h
      obtain ⟨⟨p, -, hp⟩, hkilled⟩ := h
      rw [Bool.and_eq_true, decide_eq_true_iff, decide_eq_true_iff] at hp
      exact .sleep hp.1 hp.2 hnot (Bool.eq_false_iff.2 hkilled)

/-- A scan of `thread_join` that returns 0 has reaped one slot. -/
theorem threadJoin_found {thread : ℤ} {v : ℕ} (h : (threadJoin c thread).run s = .ok (.found v, t)) :
    ∃ p, IsJoined s c p thread ∧ v = (s.proc p).retval ∧ Joined s t c p := by
  cases threadJoin_sat.of_ok h with
  | found hp hjoined => exact ⟨_, hp, rfl, hjoined⟩

/-- `k` is a thread of the group of `c` whose addresses follow those of `p`. -/
def Adjacent (s : Ptable) (c p k : Slot) : Prop :=
  s.Member c k ∧ (s.proc k).tFlag = true ∧ (s.proc k).stop = (s.proc p).start

/-- The slots outside the group of `c` keep their size, stack and state, and the addresses of `p` have
gone to the thread of the group that follows it. -/
structure JoinFrame (s t : Ptable) (c p : Slot) : Prop where
  /-- The slots outside the group. -/
  outside : ∀ k, ¬s.Member c k → (t.proc k).sz = (s.proc k).sz ∧
    (t.proc k).start = (s.proc k).start ∧ (t.proc k).stop = (s.proc k).stop ∧
      (t.proc k).state = (s.proc k).state
  adjacent : ∀ k, k ≠ p → s.Adjacent c p k → (t.proc k).stop = (s.proc p).stop

/-- The slot that is reaped belongs to the group of the caller, and the first slot of the table whose
`end` is its `start` does, too, and is the only thread of the group that follows it. -/
def MergesOwn (s : Ptable) (c p : Slot) : Prop :=
  s.Member c p ∧ ((s.proc p).stop = (s.proc p).start ∨
    ∀ h, s.merged p = some h → s.Member c h ∧ ∀ k, s.Adjacent c p k → k = h)

theorem stop_of_merged {h : Slot} (hh : s.merged p = some h) : (s.proc h).stop = (s.proc p).start := by
  have hstop := List.find?_some hh
  rwa [decide_eq_true_iff] at hstop

/-- Some slot takes over the addresses if one has the right `end`. -/
theorem exists_merged {k : Slot} (hk : (s.proc k).stop = (s.proc p).start) : ∃ h, s.merged p = some h := by
  rw [← Option.isSome_iff_exists, merged, List.find?_isSome]
  exact ⟨k, mem_slots k, decide_eq_true hk⟩

/-- **What `thread_join` changes.** For every table and every scan of `thread_join` that returns 0,
the slots outside the group of the caller are left alone and the following thread of the group takes
over the addresses if and only if the slot that is reaped belongs to the group and the first slot
with the right `end` is that thread. -/
theorem threadJoin_frame_iff {s t : Ptable} {c : Slot} {thread : ℤ} {v : ℕ}
    (h : (threadJoin c thread).run s = .ok (.found v, t)) :
    ∃ p, IsJoined s c p thread ∧ (JoinFrame s t c p ↔ MergesOwn s c p) := by
  obtain ⟨p, hp, -, hjoined⟩ := threadJoin_found h
  have hstop : ∀ k, k ≠ p → (t.proc k).stop = s.stopAfterJoin p k := by
    intro k hk
    rw [hjoined.other k hk]
    rfl
  refine ⟨p, hp, ?_, ?_⟩
  · intro hframe
    refine ⟨?_, ?_⟩
    · by_contra hnot
      have hstate := (hframe.outside p hnot).2.2.2
      rw [hjoined.self, hp.zombie] at hstate
      cases hstate
    · rcases eq_or_ne (s.proc p).stop (s.proc p).start with he | hne
      · exact .inl he
      refine .inr fun h hh ↦ ⟨?_, ?_⟩
      · -- The `end` of the slot that is hit changes.
        by_contra hnot
        have hhp : h ≠ p := by
          intro he
          subst he
          exact hne (stop_of_merged hh)
        have hsame := (hframe.outside h hnot).2.2.1
        rw [hstop h hhp, stopAfterJoin, if_pos hh, stop_of_merged hh] at hsame
        exact hne hsame
      · intro k hadj
        by_contra hkh
        have hkp : k ≠ p := fun he ↦ hne (he ▸ hadj.2.2)
        have hlow := hframe.adjacent k hkp hadj
        rw [hstop k hkp, stopAfterJoin, hh, if_neg (fun he ↦ hkh (Option.some.inj he).symm),
          hadj.2.2] at hlow
        exact hne hlow.symm
  · intro ⟨hmem, hown⟩
    refine ⟨?_, ?_⟩
    · intro k hnot
      have hkp : k ≠ p := fun he ↦ hnot (he ▸ hmem)
      refine ⟨?_, by rw [hjoined.other k hkp]; rfl, ?_, by rw [hjoined.other k hkp]; rfl⟩
      · rw [hjoined.other k hkp]
        exact if_neg fun hlow ↦ hnot hlow.2
      · rw [hstop k hkp, stopAfterJoin]
        split
        next hh =>
          rcases hown with he | hown
          · rw [he, stop_of_merged hh]
          · exact absurd (hown k hh).1 hnot
        · rfl
    · intro k hkp hadj
      rw [hstop k hkp, stopAfterJoin]
      split
      · rfl
      next hnot =>
        rcases hown with he | hown
        · rw [hadj.2.2, he]
        · obtain ⟨h, hh⟩ := exists_merged hadj.2.2
          exact absurd ((hown h hh).2 k hadj ▸ hh) hnot

/-- The first process makes a thread, which exits, and joins it. -/
theorem threadJoin_frame_iff_once : ∃ s t c thread v,
    (threadJoin c thread).run s = .ok (.found v, t) ∧
      ∃ p, IsJoined s c p thread ∧ (JoinFrame s t c p ↔ MergesOwn s c p) := by
  obtain ⟨s, r, t, -, h, rfl⟩ := exists_return (List.range' 1 200) [(0, .threadCreate), (1, .threadExit 7)]
    (threadJoin 0 0) (fun _ r _ ↦ r = .found 7) (by decide +kernel)
  exact ⟨s, t, 0, 0, 7, h, threadJoin_frame_iff h⟩

/-- Two processes, both forked by the first one, make two threads each, at the same addresses. When
the second process joins its first thread, the `end` of a thread of the first process is lowered, and
that of its own second thread is not. -/
theorem threadJoin_merges_other : ∃ s, Reachable s ∧ ∃ t c thread v p k k',
    (threadJoin c thread).run s = .ok (.found v, t) ∧ IsJoined s c p thread ∧
      ¬s.Member c k ∧ (t.proc k).stop ≠ (s.proc k).stop ∧
        s.Adjacent c p k' ∧ (t.proc k').stop = (s.proc k').stop ∧
          (s.proc k').stop ≠ (s.proc p).stop := by
  obtain ⟨s, r, t, hreach, h, rfl, ⟨h1, h2, h3⟩, hrest⟩ := exists_return (List.range' 1 400)
    [(0, .fork), (0, .fork), (1, .threadCreate), (1, .threadCreate), (2, .threadCreate), (2, .threadCreate),
      (5, .threadExit 7)] (threadJoin 2 2)
    (fun s r t ↦ r = .found 7 ∧
      ((s.proc 5).mainThread = some 2 ∧ (s.proc 5).tid = 2 ∧ (s.proc 5).state = .ZOMBIE) ∧
        ¬s.Member 2 4 ∧ (t.proc 4).stop ≠ (s.proc 4).stop ∧
          (s.Member 2 6 ∧ (s.proc 6).tFlag = true ∧ (s.proc 6).stop = (s.proc 5).start) ∧
            (t.proc 6).stop = (s.proc 6).stop ∧ (s.proc 6).stop ≠ (s.proc 5).stop) (by decide +kernel)
  exact ⟨s, hreach, t, 2, 2, 7, 5, 4, 6, h, ⟨h1, h2, h3⟩, hrest⟩

end Ptable

end Xv6
