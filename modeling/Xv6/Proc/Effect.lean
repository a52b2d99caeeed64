import Xv6.Proc.Reap
import Xv6.Proc.Spec

/-!
# What a system call does to the slots

One inversion lemma for the calls of `Xv6.Proc.Calls`: a call that returns has had one of the effects
that `Effect` lists (`call_effect`). It says all that happens to the slots, to the process and thread
identifiers and to the first process, for every table, whatever happens to memory. What holds over
whole runs of calls is proved from it, by cases on the effect.
-/

namespace Xv6

open Prog Vm
open Function (update_eq_self update_of_ne update_self)

/-- `fork` and `thread_create` allocate a slot. -/
def Call.allocates : Call → Bool
  | .fork | .threadCreate => true
  | _ => false

/-- `thread_exit`. -/
def Call.isThreadExit : Call → Bool
  | .threadExit _ => true
  | _ => false

namespace Ptable

variable {s t : Ptable} {c k : Slot} {a : Call} {r : Ret}

/-- A slot when `fork` by `c` has made a process of it. -/
def forkedSlot (s : Ptable) (c np : Slot) (v d : ℕ) : Proc :=
  ((((s.allocated np v).setPgdir (some d)).setSz (s.proc c).sz).setParent (some c)).setState .RUNNABLE

/-- What `fork` by `c` has done when it has made the process `np`. -/
structure Forked (s t : Ptable) (c np : Slot) : Prop where
  free : s.freeSlot = some np
  self : ∃ v d, t.proc np = s.forkedSlot c np v d
  other : ∀ k, k ≠ np → t.proc k = s.proc k
  nextpid : t.nextpid = s.nextpid + 1
  nexttid : t.nexttid = s.nexttid
  initproc : t.initproc = s.initproc

/-- What a call by `c` can have done to the slots when it returns. -/
inductive Effect (s : Ptable) (c : Slot) : Call → Ret → Ptable → Prop where
  /-- There is no free slot. -/
  | full {a : Call} (ha : a.allocates = true) (free : s.freeSlot = none) :
      Effect s c a (.code (-1)) s
  /-- A slot has been allocated in vain. -/
  | wasted {a : Call} {t : Ptable} {np : Slot} (ha : a.allocates = true) (h : Wasted s t np) :
      Effect s c a (.code (-1)) t
  /-- A process has been made. -/
  | forked {t : Ptable} {np : Slot} (h : Forked s t c np) : Effect s c .fork (.code s.nextpid) t
  /-- A thread has been made. -/
  | spawned {t : Ptable} {np : Slot} {sz : ℕ} (h : Spawned s t c np sz) : Effect s c .threadCreate (.code 0) t
  /-- The caller has exited. -/
  | exited {t : Ptable} (hc : c ≠ s.initproc) (h : Exited s t c) : Effect s c .exit (.code 0) t
  /-- The caller has exited as a thread. -/
  | threadExited {t : Ptable} {v : ℕ} (h : ThreadExited s t c v) :
      Effect s c (.threadExit v) (.code 0) t
  /-- A child has been reaped. -/
  | reaped {t : Ptable} {p : Slot} (hp : IsReaped s c p) (h : Reaped s t p) :
      Effect s c .wait (.code (s.afterThreads p p).pid) t
  /-- There is no child, or the caller has been killed. -/
  | noChild : Effect s c .wait (.code (-1)) s
  /-- A thread has been joined. -/
  | joined {t : Ptable} {p : Slot} {thread : ℤ} (hp : IsJoined s c p thread) (h : Joined s t c p) :
      Effect s c (.threadJoin thread) (.join (s.proc p).retval) t
  /-- There is no such thread, or the caller has been killed. -/
  | noThread {thread : ℤ} : Effect s c (.threadJoin thread) (.code (-1)) s
  /-- A process has been killed. -/
  | killed {pid : ℤ} {p : Slot} (hp : (s.proc p).pid = pid) : Effect s c (.kill pid) (.code 0)
      (s.setProc p ((s.proc p).setKilled.setState
        (if (s.proc p).state = .SLEEPING then .RUNNABLE else (s.proc p).state)))
  /-- There is no such process. -/
  | notKilled {pid : ℤ} : Effect s c (.kill pid) (.code (-1)) s
  /-- The size may have changed. -/
  | resized {n : BitVec 32} {r : Ret} {t : Ptable} {sz : ℕ}
      (h : t.proc = Function.update s.proc c ((s.proc c).setSz sz)) (ids : SameIds s t) :
      Effect s c (.sbrk n) r t
  /-- The address space has been replaced. -/
  | replaced {prog : Program} {t : Ptable} {d sz : ℕ}
      (h : t.proc = Function.update s.proc c (((s.proc c).setPgdir (some d)).setSz sz))
      (ids : SameIds s t) : Effect s c (.exec prog) (.code 0) t
  /-- The program could not be loaded. -/
  | notReplaced {prog : Program} {m : Mem} : Effect s c (.exec prog) (.code (-1)) (s.setMem m)

/-! ### Each call -/

section Calls

variable {s : Ptable} {c : Slot}

theorem Failed.effect {t : Ptable} {a : Call} (h : Failed s t) (ha : a.allocates = true) : Effect s c a (.code (-1)) t := by
  rcases h with ⟨hfree, rfl⟩ | ⟨np, h⟩
  · exact .full ha hfree
  · exact .wasted ha h

/-- `fork`, up to what it does to the memory. -/
theorem sat_fork {Q : ℤ → Ptable → Prop} {E : Fault → Prop} (hc : (s.proc c).state ≠ .UNUSED)
    (hkfree : E (.panic .kfree)) (hdangling : (s.proc c).pgdir = none → E .dangling)
    (hfail : ∀ t, TookPage s.mem t.mem → Failed s t → Q (-1) t)
    (hcopy : ∀ np d m₁, s.freeSlot = some np → (s.proc c).pgdir = some d → TookPage s.mem m₁ →
      (copyuvm d (s.proc c).sz).Sat m₁ (fun r m ↦
        (r = none → ∀ t, t.mem.ndirs = m.ndirs → t.mem.dir = m.dir → Failed s t → Q (-1) t) ∧
        ∀ d', r = some d' → ∀ t, t.mem = m → (t.proc np).pgdir = some d' → Forked s t c np → Q s.nextpid t) E) :
    (fork c).Sat s Q E := by
  rw [fork]
  refine sat_allocproc_bind hfail fun np v s₁ hpage htook ↦ ?_
  have hne := ne_of_freeSlot hc htook.free
  have hnp := htook.self
  have hother := htook.other
  refine sat_bind.2 ?_
  rw [forkCopy, sat_get_bind, hother c hne]
  refine sat_bind.2 (sat_pgdirOf (fun h ↦ hdangling (hother c hne ▸ h)) fun d hd ↦ ?_)
  refine sat_bind.2 (sat_vm.2 ((hcopy np d _ htook.free (hother c hne ▸ hd) hpage).imp fun r m hr ↦ ?_))
  cases r with
  | none =>
    refine sat_update_bind.2 (sat_bind.2 (sat_freeStack hkfree fun m' hn hdir ↦ sat_update_bind.2 ?_))
    refine hr.1 rfl _ hn hdir
      (.inr ⟨np, htook.free, ?_, fun k hk ↦ ?_, htook.nextpid, htook.nexttid, htook.initproc⟩)
    · have hslot : WastedSlot s np _ := .notCopied v
      simpa [hnp] using hslot
    · simp [hk, hother]
  | some d' =>
    refine sat_update_bind.2 (sat_pure.2 ?_)
    rw [if_pos rfl, forkFill, sat_bind, sat_get_bind, sat_update, sat_get_bind, publish]
    refine sat_update_bind.2 (sat_pure.2 ((congrArg (Q · _) ?_).mpr (hr.2 d' rfl _ rfl ?_
      ⟨htook.free, ⟨v, d', ?_⟩, fun k hk ↦ ?_, htook.nextpid, htook.nexttid, htook.initproc⟩)))
    · simp [hnp, allocated]
    · simp
    · simp [hnp, hother c hne, hne, forkedSlot]
    · simp [hk, hother]

theorem fork_effect (hc : (s.proc c).state ≠ .UNUSED) :
    (fork c).Sat s (fun r t ↦ Effect s c .fork (.code r) t) fun _ ↦ True :=
  sat_fork hc trivial (fun _ ↦ trivial) (fun _ _ h ↦ h.effect rfl) fun _ _ _ _ _ _ ↦ (sat_true _ _).imp fun _ _ _ ↦
    ⟨fun _ _ _ _ h ↦ h.effect rfl, fun _ _ _ _ _ h ↦ .forked h⟩

/-- `thread_create` only changes memory when it allocates the stack. -/
theorem createSpace_effect {sz : ℕ} :
    (createSpace c sz).Sat s (fun _ t ↦ ∃ m, t = s.setMem m) fun _ ↦ True := by
  rw [createSpace]
  generalize sz + 2 * PGSIZE = newsz
  refine sat_bind.2 (sat_pgdirOf (fun _ ↦ trivial) fun d _ ↦ ?_)
  refine sat_bind.2 (sat_vm.2 ((sat_true _ _).imp fun r m _ ↦ ?_))
  split
  · exact ⟨m, rfl⟩
  · refine sat_bind.2 (sat_pgdirOf (fun _ ↦ trivial) fun d _ ↦ sat_get_bind.2 ?_)
    exact sat_bind.2 (sat_vm.2 ((sat_true _ _).imp fun _ m' _ ↦ ⟨m', rfl⟩))

theorem threadCreate_effect (hc : (s.proc c).state ≠ .UNUSED) :
    (threadCreate c).Sat s (fun r t ↦ Effect s c .threadCreate
      (.code (if r = none then -1 else 0)) t) fun _ ↦ True := by
  refine sat_threadCreate hc trivial trivial (fun _ _ h ↦ h.effect rfl) fun s₁ _ _ ↦ createSpace_effect.imp ?_
  intro r _ ⟨m, ht⟩
  exact ⟨m, ht, fun _ _ _ h ↦ h.effect rfl, fun _ _ _ _ h ↦ .spawned h⟩

theorem growproc_effect {n : ℤ} : (growproc c n).Sat s (fun _ t ↦ SameIds s t ∧
    ∃ sz, t.proc = Function.update s.proc c ((s.proc c).setSz sz)) fun _ ↦ True := by
  have hsame : s.proc = Function.update s.proc c ((s.proc c).setSz (s.proc c).sz) :=
    (update_eq_self c s.proc).symm
  have hend : ∀ (sz : ℕ) (m : Mem), GrowEnd s c (fun _ t ↦ SameIds s t ∧
      ∃ sz, t.proc = Function.update s.proc c ((s.proc c).setSz sz)) sz m :=
    fun sz m ↦ ⟨fun _ ↦ ⟨⟨rfl, rfl, rfl⟩, _, hsame⟩, fun _ ↦ ⟨⟨rfl, rfl, rfl⟩, sz, rfl⟩⟩
  exact sat_growproc (fun _ ↦ trivial) (fun _ _ ↦ trivial)
    (fun d _ _ ↦ (sat_true _ _).imp fun sz m _ ↦ hend sz m)
    (fun d _ _ ↦ (sat_true _ _).imp fun sz m _ ↦ hend sz m) fun _ ↦ ⟨⟨rfl, rfl, rfl⟩, _, hsame⟩

/-- `exec`, up to what it does to the memory. -/
theorem sat_exec {prog : Program} {Q : ℤ → Ptable → Prop}
    (hnone : ∀ m, (loadProgram prog).run s.mem = .ok (none, m) → Q (-1) (s.setMem m))
    (hsome : ∀ d sz m d₀, (loadProgram prog).run s.mem = .ok (some (d, sz), m) → (s.proc c).pgdir = some d₀ →
      (freevm d₀).Sat m (fun _ m' ↦ ∀ t, t.mem = m' → SameIds s t →
        t.proc = Function.update s.proc c (((s.proc c).setPgdir (some d)).setSz sz) → Q 0 t) fun _ ↦ True) :
    (exec c prog).Sat s Q fun _ ↦ True := by
  rw [exec]
  refine sat_bind.2 (sat_vm.2 (sat_iff.2 ⟨fun r m hrun ↦ ?_, fun _ _ ↦ trivial⟩))
  cases r with
  | none => exact hnone m hrun
  | some p =>
    obtain ⟨d, sz⟩ := p
    rw [sat_get_bind, sat_update_bind]
    refine sat_bind.2 (switchuvm_sat.mono ?_ fun _ _ ↦ trivial)
    rintro _ t rfl
    rw [setMem_proc]
    cases hpgdir : (s.proc c).pgdir with
    | none => trivial
    | some d₀ =>
      refine sat_bind.2 (sat_vm.2 ((hsome d sz m d₀ hrun hpgdir).imp fun _ m' h ↦ ?_))
      exact h _ rfl ⟨rfl, rfl, rfl⟩ rfl

theorem exec_effect {prog : Program} :
    (exec c prog).Sat s (fun r t ↦ Effect s c (.exec prog) (.code r) t) fun _ ↦ True :=
  sat_exec (fun _ _ ↦ .notReplaced) fun _ _ _ _ _ _ ↦ (sat_true _ _).imp fun _ _ _ _ _ hids h ↦ .replaced h hids

/-- **What a system call does to the slots.** -/
theorem call_effect {a : Call} (hc : (s.proc c).state ≠ .UNUSED) :
    (call c a).Sat s (fun r t ↦ ∀ x, r = some x → Effect s c a x t) fun _ ↦ True := by
  cases a with
  | fork =>
    refine sat_bind.2 ((fork_effect hc).imp fun r t h x hx ↦ ?_)
    obtain rfl := Option.some.inj hx
    exact h
  | exit =>
    refine sat_bind.2 (exit_sat.mono (fun _ t h x hx ↦ ?_) fun _ _ ↦ trivial)
    obtain rfl := Option.some.inj hx
    exact .exited h.1 h.2
  | wait =>
    refine sat_bind.2 (wait_sat.imp fun r t h ↦ ?_)
    cases h with
    | found hp hreaped =>
      intro x hx
      obtain rfl := Option.some.inj hx
      exact .reaped hp hreaped
    | none =>
      intro x hx
      obtain rfl := Option.some.inj hx
      exact .noChild
    | sleep => exact nofun
  | kill pid =>
    refine sat_bind.2 (sat_kill (fun _ x hx ↦ ?_) fun p hp x hx ↦ ?_)
    · obtain rfl := Option.some.inj hx
      exact .notKilled
    · obtain rfl := Option.some.inj hx
      have hpid := List.find?_some hp
      rw [decide_eq_true_iff] at hpid
      exact .killed hpid
  | sbrk n =>
    rw [call, sat_get_bind]
    refine sat_bind.2 (growproc_effect.imp fun r t h ↦ ?_)
    obtain ⟨hids, sz, hproc⟩ := h
    split
    · exact fun _ _ ↦ .resized hproc hids
    · exact fun _ _ ↦ .resized hproc hids
  | exec prog =>
    refine sat_bind.2 (exec_effect.imp fun r t h x hx ↦ ?_)
    obtain rfl := Option.some.inj hx
    exact h
  | threadCreate =>
    refine sat_bind.2 ((threadCreate_effect hc).imp fun r t h ↦ ?_)
    cases r with
    | none | some tid =>
      intro x hx
      obtain rfl := Option.some.inj hx
      exact h
  | threadExit v =>
    refine sat_bind.2 (threadExit_sat.imp fun _ t h x hx ↦ ?_)
    obtain rfl := Option.some.inj hx
    exact .threadExited h
  | threadJoin thread =>
    refine sat_bind.2 (threadJoin_sat.mono (fun r t h ↦ ?_) fun _ _ ↦ trivial)
    cases h with
    | found hp hjoined =>
      intro x hx
      obtain rfl := Option.some.inj hx
      exact .joined hp hjoined
    | none =>
      intro x hx
      obtain rfl := Option.some.inj hx
      exact .noThread
    | sleep => exact nofun

theorem step_effect {t : Ptable} {a : Call} (h : s.step (c, a) = some (.ok t)) :
    s.MayCall c ∧ ∃ r, Effect s c a r t := by
  obtain ⟨hmay, r, hrun⟩ := step_ok h
  refine ⟨hmay, r, (call_effect ?_).of_ok hrun r rfl⟩
  rcases hmay with hr | hr
  all_goals
    rw [hr]
    nofun

end Calls

/-! ### Each slot -/

/-- The slot `k` holds the same process or thread after the call `a` by `c`. Its identifiers have not
changed, and its parent and creator only if `exit` and `thread_exit` have passed it to the first process. -/
structure Stays (s t : Ptable) (c : Slot) (a : Call) (k : Slot) : Prop where
  pid : (t.proc k).pid = (s.proc k).pid
  tFlag : (t.proc k).tFlag = (s.proc k).tFlag
  tid : (t.proc k).tid = (s.proc k).tid
  ptid : (t.proc k).ptid = (s.proc k).ptid
  /-- The parent. -/
  parent : (t.proc k).parent =
    if a = .exit ∧ (s.proc k).parent = some c then some s.initproc else (s.proc k).parent
  /-- The creator. -/
  mainThread : (t.proc k).mainThread =
    if a.isThreadExit = true ∧ (s.proc k).mainThread = some c then some s.initproc
    else (s.proc k).mainThread

/-- The identifiers and links of a slot are the same. -/
structure SameId (q q' : Proc) : Prop where
  pid : q'.pid = q.pid
  tFlag : q'.tFlag = q.tFlag
  tid : q'.tid = q.tid
  ptid : q'.ptid = q.ptid
  parent : q'.parent = q.parent
  mainThread : q'.mainThread = q.mainThread

theorem SameId.refl (q : Proc) : SameId q q := ⟨rfl, rfl, rfl, rfl, rfl, rfl⟩

theorem SameId.stays (h : SameId (s.proc k) (t.proc k)) (hexit : a ≠ .exit) (hthread : a.isThreadExit = false) :
    Stays s t c a k := by
  refine ⟨h.pid, h.tFlag, h.tid, h.ptid, ?_, ?_⟩
  · rw [if_neg fun h ↦ hexit h.1]
    exact h.parent
  · rw [if_neg fun h ↦ Bool.false_ne_true (hthread.symm.trans h.1)]
    exact h.mainThread

/-- The slots that are in use no longer after the call `a` by `c`, or that have exited by it: in `exit`
and `thread_exit` those that exit, in `wait` those that point to the child that is reaped. -/
def Ends (s : Ptable) (c : Slot) : Call → Slot → Prop
  | .exit, k => s.EndedBy c k
  | .threadExit _, k => k = c
  | .wait, k => ∃ p, s.IsReaped c p ∧ (s.proc k).mainThread = some p
  | _, _ => False

instance (s : Ptable) (c p : Slot) : Decidable (s.IsReaped c p) :=
  decidable_of_iff ((s.proc p).parent = some c ∧ (s.proc p).state = .ZOMBIE ∧
      ∀ j < p, (s.proc j).parent = some c → (s.proc j).state ≠ .ZOMBIE)
    ⟨fun h ↦ ⟨h.1, h.2.1, h.2.2⟩, fun h ↦ ⟨h.parent, h.zombie, h.first⟩⟩

instance (s : Ptable) (c : Slot) : ∀ a k, Decidable (s.Ends c a k)
  | .exit, k => inferInstanceAs (Decidable (s.EndedBy c k))
  | .threadExit _, k => inferInstanceAs (Decidable (k = c))
  | .wait, _ => inferInstanceAs (Decidable (∃ _, _))
  | .fork, _ | .kill _, _ | .sbrk _, _ | .exec _, _ | .threadCreate, _ | .threadJoin _, _ =>
    inferInstanceAs (Decidable False)

/-- The slot is in use and has not exited. -/
def Alive (s : Ptable) (k : Slot) : Prop :=
  (s.proc k).state ≠ .UNUSED ∧ (s.proc k).state ≠ .ZOMBIE

instance (s : Ptable) (k : Slot) : Decidable (s.Alive k) := inferInstanceAs (Decidable (_ ∧ _))

/-- The slots that the call `a` by `c` frees: the child that `wait` reaps and the slots that point to it, and
the thread that `thread_join` reaps. -/
inductive Frees (s : Ptable) (c : Slot) : Call → Slot → Prop where
  | child {p : Slot} (hp : IsReaped s c p) : Frees s c .wait p
  | thread {p k : Slot} (hp : IsReaped s c p) (main : (s.proc k).mainThread = some p) :
      Frees s c .wait k
  | joined {p : Slot} {thread : ℤ} (hp : IsJoined s c p thread) : Frees s c (.threadJoin thread) p

/-- A slot that is freed has exited, or it is taken away. -/
theorem Frees.ends (h : Frees s c a k) : (s.proc k).state = .ZOMBIE ∨ s.Ends c a k := by
  cases h with
  | child hp => exact .inl hp.zombie
  | thread hp main => exact .inr ⟨_, hp, main⟩
  | joined hp => exact .inl hp.zombie

/-- What can become of the slot `np` that a call by `c` has allocated. -/
inductive NewSlot (s : Ptable) (c np : Slot) : Call → Proc → Prop where
  /-- It has been allocated in vain. -/
  | wasted {a : Call} {q : Proc} (h : WastedSlot s np q) : NewSlot s c np a q
  /-- It is a new process. -/
  | forked (v d : ℕ) : NewSlot s c np .fork (s.forkedSlot c np v d)
  /-- It is a new thread. -/
  | spawned (v a b sz : ℕ) : NewSlot s c np .threadCreate (s.spawnedSlot c np v a b sz)

/-- The call ends nobody who is alive but the caller, and that only if the caller exits. -/
def EndsOnlyItself (s : Ptable) (c : Slot) (a : Call) : Prop :=
  ∀ k, s.Alive k → s.Ends c a k → k = c ∧ a ≠ .wait

instance (s : Ptable) (c : Slot) (a : Call) : Decidable (s.EndsOnlyItself c a) :=
  inferInstanceAs (Decidable (∀ _, _))

theorem MayCall.alive (h : s.MayCall c) : s.Alive c := by
  rcases h with hr | hr
  all_goals exact ⟨by rw [hr]; nofun, by rw [hr]; nofun⟩

theorem MayCall.used (h : s.MayCall c) : (s.proc c).state ≠ .UNUSED := h.alive.1

/-- What a call `a` by `c` can do to the slot `k`. -/
inductive Fate (s t : Ptable) (c : Slot) (a : Call) (k : Slot) : Prop where
  /-- It stays, and it may be woken up. -/
  | kept (id : Stays s t c a k) (state : (t.proc k).state = (s.proc k).state ∨
      ((s.proc k).state = .SLEEPING ∧ (t.proc k).state = .RUNNABLE))
  /-- It exits. -/
  | ended (ends : s.Ends c a k) (used : (s.proc k).state ≠ .UNUSED) (id : Stays s t c a k)
      (state : (t.proc k).state = .ZOMBIE)
  /-- It is freed. -/
  | freed (ends : s.Frees c a k) (state : (t.proc k).state = .UNUSED)
      (parent : (t.proc k).parent = none)
  /-- It is allocated. -/
  | taken (alloc : a.allocates = true) (free : s.freeSlot = some k) (new : NewSlot s c k a (t.proc k))

/-- The first process is always the same. -/
theorem Effect.initproc_eq (h : Effect s c a r t) : t.initproc = s.initproc := by
  cases h with
  | full ha hfree => rfl
  | wasted ha h | forked h | spawned h => exact h.initproc
  | exited hinit h | threadExited h => exact h.only.initproc
  | reaped hp h => exact h.ids.initproc
  | noChild => rfl
  | joined hp h => exact h.initproc
  | noThread | killed hp | notKilled => rfl
  | resized hproc ids | replaced hproc ids => exact ids.initproc
  | notReplaced => rfl

theorem Effect.fate (hc : (s.proc c).state ≠ .UNUSED) (h : Effect s c a r t) (k : Slot) : Fate s t c a k := by
  -- Slots whose identifiers and state are the same, in calls that do not exit.
  have hsame : ∀ {t' : Ptable}, a ≠ .exit → a.isThreadExit = false →
      SameId (s.proc k) (t'.proc k) → (t'.proc k).state = (s.proc k).state → Fate s t' c a k :=
    fun hexit hthread hid hstate ↦ .kept (hid.stays hexit hthread) (.inl hstate)
  have heq : ∀ {t' : Ptable}, a ≠ .exit → a.isThreadExit = false → t'.proc k = s.proc k →
      Fate s t' c a k :=
    fun hexit hthread heq ↦ hsame hexit hthread (heq ▸ .refl _) (congrArg Proc.state heq)
  cases h with
  | full ha hfree => exact heq (by rintro rfl; cases ha) (by cases a <;> trivial) rfl
  | @wasted _ _ np ha h =>
    rcases eq_or_ne k np with rfl | hk
    · exact .taken ha h.free (.wasted h.self)
    · exact heq (by rintro rfl; cases ha) (by cases a <;> trivial) (h.other k hk)
  | @forked _ np h =>
    rcases eq_or_ne k np with rfl | hk
    · obtain ⟨v, d, hself⟩ := h.self
      exact .taken rfl h.free (hself ▸ .forked v d)
    · exact heq (by simp) rfl (h.other k hk)
  | @spawned _ np _ h =>
    rcases eq_or_ne k np with rfl | hk
    · obtain ⟨v, sz, hself, -⟩ := h.self
      exact .taken rfl h.free (hself ▸ .spawned v _ _ sz)
    · obtain ⟨sz, hk'⟩ := h.resized hk
      exact hsame (by simp) rfl (hk' ▸ ⟨rfl, rfl, rfl, rfl, rfl, rfl⟩) (by rw [hk']; rfl)
  | exited hinit h =>
    have hid : Stays s t c .exit k := by
      obtain ⟨q, hq, hk⟩ := h.frame k
      have hparent := h.parent k
      have hmain : (t.proc k).mainThread = (s.proc k).mainThread := by
        rw [hk]
        split <;> rw [hq] <;> rfl
      refine ⟨?_, ?_, ?_, ?_, ?_, by rw [if_neg fun h ↦ by cases h.1]; exact hmain⟩
      · rw [hk]
        split <;> rw [hq] <;> rfl
      · rw [hk]
        split <;> rw [hq] <;> rfl
      · rw [hk]
        split <;> rw [hq] <;> rfl
      · rw [hk]
        split <;> rw [hq] <;> rfl
      · rw [hparent]
        simp only [true_and]
    by_cases he : s.EndedBy c k
    · refine .ended he ?_ hid (h.zombie k he)
      rcases he with rfl | ⟨-, hused⟩
      · exact hc
      · exact hused
    · exact .kept hid (h.state_or he)
  | @threadExited _ v h =>
    have hid : Stays s t c (.threadExit v) k := by
      have hk := h.frame k
      refine ⟨by rw [hk]; rfl, by rw [hk]; rfl, by rw [hk]; rfl, by rw [hk]; rfl, ?_, ?_⟩
      · rw [hk]
        rfl
      · rw [h.mainThread k]
        simp only [Call.isThreadExit, true_and]
    rcases eq_or_ne k c with rfl | hk
    · exact .ended rfl hc hid h.zombie
    · exact .kept hid (h.state k hk)
  | @reaped _ p hp h =>
    rcases eq_or_ne k p with rfl | hk
    · refine .freed (.child hp) ?_ ?_
      all_goals
        rw [h.self]
        rfl
    · have hk' := h.other k hk
      rw [afterThreads] at hk'
      split at hk'
      next hmain =>
        refine .freed (.thread hp hmain) ?_ ?_
        all_goals
          rw [hk']
          rfl
      · exact heq (by simp) rfl hk'
  | noChild => exact heq (by simp) rfl rfl
  | @joined _ p _ hp h =>
    rcases eq_or_ne k p with rfl | hk
    · refine .freed (.joined hp) ?_ ?_
      all_goals
        rw [h.self]
        rfl
    · have hk' := h.other k hk
      exact hsame (by simp) rfl (hk' ▸ ⟨rfl, rfl, rfl, rfl, rfl, rfl⟩) (by rw [hk']; rfl)
  | noThread => exact heq (by simp) rfl rfl
  | @killed _ p hp =>
    rcases eq_or_ne k p with rfl | hk
    · have hk' := update_self k ((s.proc k).setKilled.setState
        (if (s.proc k).state = .SLEEPING then .RUNNABLE else (s.proc k).state)) s.proc
      refine .kept (SameId.stays ?_ (by simp) rfl) ?_
      · rw [setProc_proc, hk']
        exact ⟨rfl, rfl, rfl, rfl, rfl, rfl⟩
      · rw [setProc_proc, hk', Proc.setState_state]
        split
        next hs => exact .inr ⟨hs, rfl⟩
        · exact .inl rfl
    · exact heq (by simp) rfl (update_of_ne hk ..)
  | notKilled => exact heq (by simp) rfl rfl
  | resized hproc ids | replaced hproc ids =>
    rcases eq_or_ne k c with rfl | hk
    · have hk' := (congrFun hproc k).trans (update_self ..)
      exact hsame (by simp) rfl (hk' ▸ ⟨rfl, rfl, rfl, rfl, rfl, rfl⟩) (by rw [hk']; rfl)
    · exact heq (by simp) rfl ((congrFun hproc k).trans (update_of_ne hk ..))
  | notReplaced => exact heq (by simp) rfl rfl

/-- A slot that is in use has been in use before the call, or it is the one that is allocated. -/
theorem Fate.used_before (h : Fate s t c a k) (hk : (t.proc k).state ≠ .UNUSED) :
    ((s.proc k).state ≠ .UNUSED ∧ Stays s t c a k) ∨
      (a.allocates = true ∧ s.freeSlot = some k ∧ NewSlot s c k a (t.proc k)) := by
  cases h with
  | kept id state =>
    refine .inl ⟨?_, id⟩
    rcases state with heq | ⟨hs, -⟩
    · rwa [heq] at hk
    · rw [hs]
      nofun
  | ended ends used id state => exact .inl ⟨used, id⟩
  | freed ends state parent => exact absurd state hk
  | taken alloc free new => exact .inr ⟨alloc, free, new⟩

/-- Only the slot that is allocated comes to life. -/
theorem Fate.alive_before (h : Fate s t c a k) (hfree : a.allocates = true → s.freeSlot ≠ some k)
    (hk : t.Alive k) : s.Alive k ∧ Stays s t c a k := by
  cases h with
  | kept id state =>
    refine ⟨?_, id⟩
    rcases state with heq | ⟨hs, -⟩
    · rwa [Alive, heq] at hk
    · exact ⟨by rw [hs]; nofun, by rw [hs]; nofun⟩
  | ended ends used id state => exact absurd state hk.2
  | freed ends state parent => exact absurd state hk.1
  | taken alloc free new => exact absurd free (hfree alloc)

/-- Who is not ended by the call stays alive. -/
theorem Fate.alive_after (h : Fate s t c a k) (hk : s.Alive k) (hends : ¬s.Ends c a k) :
    t.Alive k ∧ Stays s t c a k := by
  cases h with
  | kept id state =>
    refine ⟨?_, id⟩
    rcases state with heq | ⟨-, ht⟩
    · rwa [Alive, heq]
    · exact ⟨by rw [ht]; nofun, by rw [ht]; nofun⟩
  | ended ends used id state => exact absurd ends hends
  | freed ends state parent =>
    rcases ends.ends with hz | he
    · exact absurd hz hk.2
    · exact absurd he hends
  | taken alloc free new => exact absurd (unused_of_freeSlot free) hk.1

/-- The parent of a slot that stays, if it has one. -/
theorem Stays.parent_ne_none (h : Stays s t c a k) : (t.proc k).parent ≠ none ↔ (s.proc k).parent ≠ none := by
  rw [h.parent]
  split
  next hif =>
    rw [hif.2]
    exact ⟨fun _ ↦ nofun, fun _ ↦ nofun⟩
  · rfl

/-- No call gives a parent to a slot that is not used after it. -/
theorem Fate.parent_eq_none {S : ProcState → Prop} (h : Fate s t c a k) (hS : ∀ st, S st → st = .UNUSED ∨ st = .EMBRYO)
    (hunused : S .UNUSED) (hparent : S (s.proc k).state → (s.proc k).parent = none) (hk : S (t.proc k).state) :
    (t.proc k).parent = none := by
  cases h with
  | kept id state =>
    rcases state with heq | ⟨-, hs⟩
    · by_contra hne
      exact id.parent_ne_none.1 hne (hparent (heq ▸ hk))
    · rw [hs] at hk
      exact (hS _ hk).elim nofun nofun
  | ended ends used id state =>
    rw [state] at hk
    exact (hS _ hk).elim nofun nofun
  | freed ends state parent => exact parent
  | taken alloc free new =>
    have hnone := hparent (unused_of_freeSlot free ▸ hunused)
    generalize t.proc k = q at new hk
    cases new with
    | wasted hw => cases hw <;> exact hnone
    | forked v d | spawned v x b sz => exact (hS _ hk).elim nofun nofun

/-- A slot that is in use and is not that of a thread belongs to the process it is. -/
def Grouped (s : Ptable) : Prop :=
  ∀ k, (s.proc k).state ≠ .UNUSED → (s.proc k).tFlag = false → (s.proc k).pid = (s.proc k).ptid

theorem Grouped.effect (h : s.Grouped) (hc : (s.proc c).state ≠ .UNUSED) (he : Effect s c a r t) :
    t.Grouped := by
  intro k hused hflag
  rcases (he.fate hc k).used_before hused with ⟨hk, id⟩ | ⟨-, -, new⟩
  · rw [id.pid, id.ptid]
    exact h k hk (id.tFlag ▸ hflag)
  · generalize t.proc k = q at new hflag
    cases new with
    | wasted hw => cases hw <;> rfl
    | forked v d => rfl
    | spawned v a b sz => cases hflag

end Ptable

end Xv6
