import Xv6.Proc.Effect

/-!
# Who is killed

A slot is marked as killed in two places: `kill` marks the first slot with the given pid, and `exit` by
a thread marks the slots of its group and its creator. The machine here is that of `Xv6.Proc.Calls`
with processes that go to sleep, in whatever call and on whatever channel, and are woken up.

Neither place looks at the state of the slots it marks. The pid of a free slot is 0 or that of a
process that could not be made, and its `ptid` is that of the group it has last belonged to; `allocproc`
does not reset `killed`, so that a slot which is marked while it is free is born killed
(`kill_marks_free`). And `exit` does not wake up those it marks, unlike `kill` (`exit_leaves_sleeper`).
-/

namespace Xv6

open Prog Vm Machine
open Function (update_of_ne update_self)

/-- What happens to the table. -/
inductive Event where
  /-- A system call returns. -/
  | call (c : Slot) (a : Call)
  /-- `c` goes to sleep, in a system call. -/
  | sleep (c : Slot) (chan : Chan)
  /-- `wakeup(chan)`. -/
  | wakeup (chan : Chan)

namespace Ptable

/-- One event. -/
def event (s : Ptable) : Event → Option (Except Fault Ptable)
  | .call c a => s.step (c, a)
  | .sleep c chan =>
    if (s.proc c).state = .RUNNABLE ∨ (s.proc c).state = .RUNNING then
      some (.ok (s.setProc c (((s.proc c).setChan (some chan)).setState .SLEEPING)))
    else
      none
  | .wakeup chan => some ((wakeup1 (some chan)).exec s)

/-- The table is reached from a boot by events. -/
def EventReachable (s : Ptable) : Prop :=
  ∃ freelist s₀ es, boot freelist = .ok s₀ ∧ Machine.Run event s₀ es s

theorem exists_eventReachable (es : List Event) (D : Ptable → Prop) [DecidablePred D]
    (h : bootThen (List.range' 1 300) (fun s₀ ↦ reaches event s₀ es fun s ↦ D s) = true) :
    ∃ s : Ptable, s.EventReachable ∧ D s := by
  obtain ⟨s₀, s, hs₀, hrun, hs⟩ := exists_boot_run h
  exact ⟨s, ⟨_, s₀, es, hs₀, hrun⟩, of_decide_eq_true hs⟩

/-- Only channels and states of slots that are in use have changed. -/
structure Quiet (s t : Ptable) : Prop where
  /-- The slots. -/
  slot : ∀ k, ∃ chan st, t.proc k = ((s.proc k).setChan chan).setState st ∧
    (st = .UNUSED ↔ (s.proc k).state = .UNUSED)
  ids : SameIds s t

/-- An event is a call, or it is quiet. -/
theorem event_ok {s t : Ptable} {e : Event} (h : s.event e = some (.ok t)) :
    (∃ c a r, e = .call c a ∧ s.MayCall c ∧ Effect s c a r t) ∨ Quiet s t := by
  cases e with
  | call c a =>
    obtain ⟨hmay, r, he⟩ := step_effect h
    exact .inl ⟨c, a, r, rfl, hmay, he⟩
  | sleep c chan =>
    rw [event] at h
    split at h
    next hruns =>
      obtain rfl := Except.ok.inj (Option.some.inj h)
      refine .inr ⟨fun k ↦ ?_, rfl, rfl, rfl⟩
      rcases eq_or_ne k c with rfl | hk
      · refine ⟨_, _, update_self .., nofun, fun hs ↦ ?_⟩
        rw [hs] at hruns
        exact hruns.elim nofun nofun
      · exact ⟨_, _, update_of_ne hk .., Iff.rfl⟩
    · cases h
  | wakeup chan =>
    obtain ⟨_, honly, hwoken⟩ := (wakeup1_sat (E := fun _ ↦ False)).of_exec_ok (Option.some.inj h)
    refine .inr ⟨fun k ↦ ?_, honly.nextpid, honly.nexttid, honly.initproc⟩
    rcases hwoken k with ⟨-, hk⟩ | ⟨hs, hk⟩
    · exact ⟨_, _, hk, Iff.rfl⟩
    · exact ⟨_, _, hk, by rw [hs.1]; exact ⟨nofun, nofun⟩⟩

theorem Quiet.used {s t : Ptable} (h : Quiet s t) (k : Slot) :
    (t.proc k).state = .UNUSED ↔ (s.proc k).state = .UNUSED := by
  obtain ⟨chan, st, hk, hst⟩ := h.slot k
  rw [hk]
  exact hst

/-! ### Free slots -/

/-- No free slot is marked as killed. -/
def Unmarked (s : Ptable) : Prop :=
  ∀ k, (s.proc k).state = .UNUSED → (s.proc k).killed = false

/-- The pid is not that of a free slot. -/
def NotFree (s : Ptable) (pid : ℤ) : Prop :=
  ∀ k, (s.proc k).state = .UNUSED → (s.proc k).pid ≠ pid

instance (s : Ptable) (pid : ℤ) : Decidable (s.NotFree pid) :=
  inferInstanceAs (Decidable (∀ _, _))

/-- The pid that is killed is not that of a free slot, and a thread that exits has left no free slot in its
group and points to none. -/
def Spares (s : Ptable) : Event → Prop
  | .call _ (.kill pid) => s.NotFree pid
  | .call c .exit => ∀ k, (s.proc k).state = .UNUSED → ¬s.KilledBy c k
  | _ => True

instance (s : Ptable) : ∀ e, Decidable (s.Spares e)
  | .call _ (.kill pid) => inferInstanceAs (Decidable (s.NotFree pid))
  | .call _ .exit => inferInstanceAs (Decidable (∀ _, _))
  | .call _ .fork | .call _ .wait | .call _ (.sbrk _) | .call _ (.exec _) | .call _ .threadCreate
  | .call _ (.threadExit _) | .call _ (.threadJoin _) | .sleep _ _ | .wakeup _ => isTrue trivial

section Unmarked

variable {s t : Ptable} {c : Slot} {a : Call} {r : Ret}

theorem Unmarked.effect (h : s.Unmarked) (hc : (s.proc c).state ≠ .UNUSED) (he : Effect s c a r t)
    (hspares : s.Spares (.call c a)) : t.Unmarked := by
  intro k hk
  have hsame : t.proc k = s.proc k → (t.proc k).killed = false := by
    intro heq
    rw [heq] at hk ⊢
    exact h k hk
  cases he with
  | full ha hfree => exact h k hk
  | @wasted _ _ np ha hw =>
    rcases eq_or_ne k np with rfl | hne
    · have hfree := h k (unused_of_freeSlot hw.free)
      have hself := hw.self
      generalize t.proc k = q at hself
      cases hself
      all_goals exact hfree
    · exact hsame (hw.other k hne)
  | @forked _ np hf =>
    rcases eq_or_ne k np with rfl | hne
    · obtain ⟨v, d, hself⟩ := hf.self
      rw [hself] at hk
      cases hk
    · exact hsame (hf.other k hne)
  | @spawned _ np _ hsp =>
    rcases eq_or_ne k np with rfl | hne
    · obtain ⟨v, sz, hself, -⟩ := hsp.self
      rw [hself] at hk
      cases hk
    · obtain ⟨sz, hk'⟩ := hsp.resized hne
      rw [hk'] at hk ⊢
      exact h k hk
  | exited hinit hx =>
    by_cases hended : s.EndedBy c k
    · exact nomatch (hx.zombie k hended).symm.trans hk
    · rcases hx.state_or hended with hst | ⟨-, hst⟩
      · have hfree := hst.symm.trans hk
        obtain ⟨q, hq, hk'⟩ := hx.frame k
        rw [hk', if_neg (hspares k hfree), hq]
        exact h k hfree
      · cases hst.symm.trans hk
  | threadExited hx =>
    rcases eq_or_ne k c with rfl | hne
    · cases hx.zombie.symm.trans hk
    · rcases hx.state k hne with hst | ⟨-, hst⟩
      · rw [hx.frame k]
        exact h k (hst.symm.trans hk)
      · cases hst.symm.trans hk
  | @reaped _ p hp hr =>
    rcases eq_or_ne k p with rfl | hne
    · rw [hr.self]
      rfl
    · have hk' := hr.other k hne
      rw [afterThreads] at hk'
      split at hk'
      · rw [hk']
        rfl
      · exact hsame hk'
  | noChild => exact h k hk
  | @joined _ p _ hp hj =>
    rcases eq_or_ne k p with rfl | hne
    · rw [hj.self]
      rfl
    · rw [hj.other k hne] at hk ⊢
      exact h k hk
  | noThread => exact h k hk
  | @killed _ p hp =>
    rcases eq_or_ne k p with rfl | hne
    · rw [setProc_proc, update_self, Proc.setState_state] at hk
      split at hk
      · cases hk
      · exact absurd hp (hspares k hk)
    · exact hsame (update_of_ne hne ..)
  | notKilled => exact h k hk
  | resized hproc ids | replaced hproc ids =>
    rcases eq_or_ne k c with rfl | hne
    · rw [hproc, update_self] at hk
      exact absurd hk hc
    · exact hsame ((congrFun hproc k).trans (update_of_ne hne ..))
  | notReplaced => exact h k hk

theorem Unmarked.event {e : Event} (h : s.Unmarked) (hspares : s.Spares e)
    (hstep : s.event e = some (.ok t)) : t.Unmarked := by
  rcases event_ok hstep with ⟨c, a, r, rfl, hmay, he⟩ | hquiet
  · exact h.effect hmay.used he hspares
  · intro k hk
    have hfree := (hquiet.used k).1 hk
    obtain ⟨chan, st, hk', -⟩ := hquiet.slot k
    rw [hk']
    exact h k hfree

end Unmarked

/-- What `kill(pid)` has done: it returns 0 if somebody has the pid, it has changed one slot at most, and
that is the slot of somebody who has the pid. -/
structure Hits (s : Ptable) (pid r : ℤ) (t : Ptable) : Prop where
  /-- What it returns. -/
  ret : r = 0 ∧ (∃ k, (s.proc k).state ≠ .UNUSED ∧ (s.proc k).pid = pid) ∨
    r = -1 ∧ ¬∃ k, (s.proc k).state ≠ .UNUSED ∧ (s.proc k).pid = pid
  one : ∃ p, ∀ k, k ≠ p → t.proc k = s.proc k
  target : ∀ k, t.proc k ≠ s.proc k → (s.proc k).state ≠ .UNUSED ∧ (s.proc k).pid = pid

theorem kill_hits {s : Ptable} {pid : ℤ} (hfree : s.NotFree pid) :
    (kill pid).Sat s (Hits s pid) fun _ ↦ False := by
  refine sat_kill (fun hnone ↦ ⟨.inr ⟨rfl, ?_⟩, ⟨0, fun _ _ ↦ rfl⟩, fun k hk ↦ absurd rfl hk⟩)
    fun p hp ↦ ?_
  · intro ⟨k, _, hk⟩
    exact List.find?_eq_none.1 hnone k (mem_slots k) (decide_eq_true hk)
  · have hpid := List.find?_some hp
    rw [decide_eq_true_iff] at hpid
    have hused : (s.proc p).state ≠ .UNUSED := fun hs ↦ hfree p hs hpid
    refine ⟨.inl ⟨rfl, p, hused, hpid⟩, ⟨p, fun k hk ↦ update_of_ne hk ..⟩, fun k hk ↦ ?_⟩
    rcases eq_or_ne k p with rfl | hne
    · exact ⟨hused, hpid⟩
    · exact absurd (update_of_ne hne ..) hk

/-- **`kill` hits only who is there.** In every run from a boot in which pids of free slots are not killed and
a thread exits only when no free slot is left in its group, `kill` returns 0 exactly when a slot in use has the
pid and changes nothing but such a slot, and a slot that `allocproc` returns is not marked as killed. -/
theorem kill_hits_live {freelist : List ℕ} {s₀ s : Ptable} {es : List Event}
    (hboot : boot freelist = .ok s₀) (hrun : Machine.Run (Machine.guarded Spares event) s₀ es s) :
    (∀ pid, s.NotFree pid → (kill pid).Sat s (Hits s pid) fun _ ↦ False) ∧
      ∀ np t, allocproc.run s = .ok (some np, t) → (t.proc np).killed = false := by
  have hunmarked : s.Unmarked := by
    refine hrun.invariant (P := Unmarked) ?_ ?_
    · obtain ⟨_, p, d, hbooted⟩ := userinit_sat.of_exec_ok hboot
      intro k hk
      rcases eq_or_ne k p with rfl | hne
      · obtain ⟨v, hself⟩ := hbooted.self
        rw [hself]
        rfl
      · rw [hbooted.other k hne]
        rfl
    · intro τ τ' e hinv hstep
      obtain ⟨hspares, hstep⟩ := guarded_eq_some.1 hstep
      exact hinv.event hspares hstep
  refine ⟨fun pid ↦ kill_hits, fun np t halloc ↦ ?_⟩
  obtain ⟨-, v, htook⟩ := (allocproc_sat (E := fun _ ↦ True)).of_ok halloc
  rw [htook.self]
  exact hunmarked np (unused_of_freeSlot htook.free)

/-- Init makes a process and kills it, and the process exits. -/
theorem kill_hits_live_child : ∃ freelist s₀ es s, boot freelist = .ok s₀ ∧
    Machine.Run (Machine.guarded Spares event) s₀ es s ∧ es = [.call 0 .fork, .call 0 (.kill 2), .call 1 .exit] ∧
      s.NotFree 2 ∧ (kill 2).Sat s (Hits s 2) fun _ ↦ False :=
  exists_boot_run_of (List.range' 1 300) _ (·.NotFree 2) (by decide +kernel) fun s₀ s hs₀ hrun hfree ↦
    ⟨rfl, hfree, (kill_hits_live hs₀ hrun).1 2 hfree⟩

/-- `kill(0)` after the boot marks a free slot, and the next child is born killed. -/
theorem kill_marks_free : ∃ s t u : Ptable, s.EventReachable ∧
    (∀ k, (s.proc k).state ≠ .UNUSED → (s.proc k).pid ≠ 0) ∧ (s.proc 1).state = .UNUSED ∧
    s.step (0, .kill 0) = some (.ok t) ∧ (t.proc 1).killed = true ∧
    t.step (0, .fork) = some (.ok u) ∧ (u.proc 1).state = .RUNNABLE ∧ (u.proc 1).killed = true := by
  obtain ⟨s, hs, hpid, hfree, hkill⟩ := exists_eventReachable [] (fun s ↦
    (∀ k, (s.proc k).state ≠ .UNUSED → (s.proc k).pid ≠ 0) ∧ (s.proc 1).state = .UNUSED ∧
      reaches step s [(0, .kill 0)] (fun t ↦ (t.proc 1).killed = true ∧ reaches step t [(0, .fork)] (fun u ↦
        (u.proc 1).state = .RUNNABLE ∧ (u.proc 1).killed = true))) (by decide +kernel)
  obtain ⟨t, ht, hP⟩ := exists_step hkill
  obtain ⟨hmarked, hfork⟩ := of_decide_eq_true hP
  obtain ⟨u, hu, hP⟩ := exists_step hfork
  exact ⟨s, t, u, hs, hpid, hfree, ht, hmarked, hu, of_decide_eq_true hP⟩

/-! ### A thread exits -/

/-- `k` belongs to the group of the thread `c`: it is a thread of the same process, or that process. -/
def Belongs (s : Ptable) (c k : Slot) : Prop :=
  (s.proc k).state ≠ .UNUSED ∧
    if (s.proc k).tFlag then (s.proc k).ptid = (s.proc c).ptid else (s.proc k).pid = (s.proc c).ptid

instance (s : Ptable) (c k : Slot) : Decidable (s.Belongs c k) := inferInstanceAs (Decidable (_ ∧ _))

/-- Identifiers in use have been given out, processes belong to their own group, and no group is that of a
thread. -/
structure Named (s : Ptable) : Prop where
  pid : ∀ k, (s.proc k).state ≠ .UNUSED → (s.proc k).pid < s.nextpid
  ptid : ∀ k, (s.proc k).state ≠ .UNUSED → (s.proc k).ptid < s.nextpid
  grouped : s.Grouped
  thread : ∀ c k, (s.proc c).state ≠ .UNUSED → (s.proc k).state ≠ .UNUSED →
    (s.proc c).tFlag = true → (s.proc k).ptid ≠ (s.proc c).pid

/-- Where the identifiers of a slot in use come from: it has had them before, or it is new, and then a thread
has the group of a slot in use. -/
def Origin (s t : Ptable) (k : Slot) : Prop :=
  ((s.proc k).state ≠ .UNUSED ∧ (t.proc k).pid = (s.proc k).pid ∧ (t.proc k).ptid = (s.proc k).ptid ∧
    (t.proc k).tFlag = (s.proc k).tFlag) ∨
  (s.freeSlot = some k ∧ s.nextpid < t.nextpid ∧ (t.proc k).pid = s.nextpid ∧
    if (t.proc k).tFlag then ∃ c, (s.proc c).state ≠ .UNUSED ∧ (t.proc k).ptid = (s.proc c).ptid
    else (t.proc k).ptid = s.nextpid)

section Exit

variable {s t : Ptable} {c : Slot} {a : Call} {r : Ret}

theorem Named.of_origin (h : s.Named) (hle : s.nextpid ≤ t.nextpid)
    (horigin : ∀ k, (t.proc k).state ≠ .UNUSED → Origin s t k) : t.Named := by
  constructor
  · intro k hk
    rcases horigin k hk with ⟨hs, hpid, -, -⟩ | ⟨-, hlt, hpid, -⟩
    · rw [hpid]
      exact (h.pid k hs).trans_le hle
    · rwa [hpid]
  · intro k hk
    rcases horigin k hk with ⟨hs, -, hptid, -⟩ | ⟨-, hlt, -, hptid⟩
    · rw [hptid]
      exact (h.ptid k hs).trans_le hle
    · split at hptid
      · obtain ⟨c, hc, hptid⟩ := hptid
        rw [hptid]
        exact (h.ptid c hc).trans_le hle
      · rwa [hptid]
  · intro k hk hflag
    rcases horigin k hk with ⟨hs, hpid, hptid, htflag⟩ | ⟨-, -, hpid, hptid⟩
    · rw [hpid, hptid]
      exact h.grouped k hs (htflag.symm.trans hflag)
    · rw [hflag] at hptid
      exact hpid.trans hptid.symm
  · intro c k hc hk hflag
    rcases horigin c hc with ⟨hcs, hcpid, -, hcflag⟩ | ⟨hcfree, -, hcpid, hcptid⟩
    · rw [hcpid]
      rcases horigin k hk with ⟨hks, -, hkptid, -⟩ | ⟨-, -, -, hkptid⟩
      · rw [hkptid]
        exact h.thread c k hcs hks (hcflag.symm.trans hflag)
      · split at hkptid
        · obtain ⟨c', hc', hkptid⟩ := hkptid
          rw [hkptid]
          exact h.thread c c' hcs hc' (hcflag.symm.trans hflag)
        · rw [hkptid]
          exact (h.pid c hcs).ne'
    · rw [hcpid]
      rcases horigin k hk with ⟨hks, -, hkptid, -⟩ | ⟨hkfree, -⟩
      · rw [hkptid]
        exact (h.ptid k hks).ne
      · -- Only one slot is allocated.
        obtain rfl := Option.mem_unique hcfree hkfree
        rw [hflag] at hcptid
        obtain ⟨c', hc', hcptid⟩ := hcptid
        rw [hcptid]
        exact (h.ptid c' hc').ne

theorem Effect.nextpid_after (h : Effect s c a r t) : s.nextpid ≤ t.nextpid ∧
    ∀ k, a.allocates = true → s.freeSlot = some k → s.nextpid < t.nextpid := by
  have hsame : t.nextpid = s.nextpid → a.allocates = false → s.nextpid ≤ t.nextpid ∧
      ∀ k, a.allocates = true → s.freeSlot = some k → s.nextpid < t.nextpid :=
    fun heq ha ↦ ⟨heq.ge, fun _ ha' ↦ nomatch ha.symm.trans ha'⟩
  cases h with
  | full ha hfree => exact ⟨le_rfl, fun k _ hk ↦ nomatch hfree.symm.trans hk⟩
  | wasted ha h | forked h | spawned h =>
    rw [h.nextpid]
    exact ⟨by omega, fun _ _ _ ↦ by omega⟩
  | exited hinit h | threadExited h => exact hsame h.only.nextpid rfl
  | reaped hp h => exact hsame h.ids.nextpid rfl
  | joined hp h => exact hsame h.nextpid rfl
  | resized hproc ids | replaced hproc ids => exact hsame ids.nextpid rfl
  | noChild | noThread | killed hp | notKilled | notReplaced => exact hsame rfl rfl

variable {k : Slot}

theorem Effect.origin (h : Effect s c a r t) (hc : (s.proc c).state ≠ .UNUSED) (hgroup : s.Grouped)
    (hk : (t.proc k).state ≠ .UNUSED) : Origin s t k := by
  rcases (h.fate hc k).used_before hk with ⟨hs, id⟩ | ⟨ha, hfree, new⟩
  · exact .inl ⟨hs, id.pid, id.ptid, id.tFlag⟩
  · refine .inr ⟨hfree, h.nextpid_after.2 k ha hfree, ?_⟩
    generalize t.proc k = q at new
    cases new with
    | wasted hw => cases hw <;> exact ⟨rfl, rfl⟩
    | forked v d => exact ⟨rfl, rfl⟩
    | spawned v x b sz =>
      refine ⟨rfl, c, hc, ?_⟩
      show (if (s.proc c).tFlag = true then (s.proc c).ptid else (s.proc c).pid) = (s.proc c).ptid
      split
      · rfl
      next hflag => exact hgroup c hc (Bool.eq_false_iff.2 hflag)

theorem EventReachable.named (h : s.EventReachable) : s.Named := by
  obtain ⟨freelist, s₀, es, hboot, hrun⟩ := h
  refine hrun.invariant (P := Named) ?_ ?_
  · obtain ⟨_, p, d, hbooted⟩ := userinit_sat.of_exec_ok hboot
    obtain ⟨v, hself⟩ := hbooted.self
    refine ⟨?_, ?_, ?_, ?_⟩
    · intro k hk
      rw [hbooted.eq_of_used hk, hself, hbooted.nextpid]
      exact (by decide : (1 : ℤ) < 2)
    · intro k hk
      rw [hbooted.eq_of_used hk, hself, hbooted.nextpid]
      exact (by decide : (1 : ℤ) < 2)
    · intro k hk _
      rw [hbooted.eq_of_used hk, hself]
      rfl
    · intro c k hc _ hflag
      rw [hbooted.eq_of_used hc, hself] at hflag
      cases hflag
  · intro τ τ' e hinv hstep
    rcases event_ok hstep with ⟨c, a, r, rfl, hmay, he⟩ | hquiet
    · exact hinv.of_origin he.nextpid_after.1 fun k ↦ he.origin hmay.used hinv.grouped
    · refine hinv.of_origin hquiet.ids.nextpid.ge fun k hk ↦ .inl ?_
      obtain ⟨chan, st, hk', -⟩ := hquiet.slot k
      refine ⟨fun hs ↦ hk ((hquiet.used k).2 hs), ?_⟩
      rw [hk']
      exact ⟨rfl, rfl, rfl⟩

/-- In a reachable table the group is all slots in use with the same `ptid`. -/
theorem Named.belongs_iff (h : s.Named) :
    s.Belongs c k ↔ (s.proc k).state ≠ .UNUSED ∧ (s.proc k).ptid = (s.proc c).ptid := by
  refine and_congr_right fun hk ↦ ?_
  split
  · rfl
  next hflag => rw [h.grouped k hk (Bool.eq_false_iff.2 hflag)]

/-- What `exit` by the thread `c` has done to its group and to the others. -/
structure BroughtDown (s : Ptable) (c : Slot) (t : Ptable) : Prop where
  /-- The other members of the group have been killed, and none is left asleep. -/
  group : ∀ k, k ≠ c → s.Belongs c k → (t.proc k).killed = true ∧ (t.proc k).state ≠ .SLEEPING
  killed : ∀ k, ¬s.Belongs c k → (t.proc k).killed = (s.proc k).killed
  /-- Others may have been woken up, if they slept on the parent or on the first process. -/
  state : ∀ k, ¬s.Belongs c k → (t.proc k).state = (s.proc k).state ∨
    ((s.proc k).state = .SLEEPING ∧ (t.proc k).state = .RUNNABLE ∧
      ((s.proc k).chan = (s.proc c).parent.map .proc ∨ (s.proc k).chan = some (.proc s.initproc)))

/-- The group of the thread `c` can be brought down: `c` is not the first process, the other members that are asleep
are woken up, and the slots outside the group that are marked have been killed before. -/
structure Ready (s : Ptable) (c : Slot) : Prop where
  notInit : c ≠ s.initproc
  woken : ∀ k, k ≠ c → s.Belongs c k → (s.proc k).state = .SLEEPING → s.WokenBy c k
  marked : ∀ k, s.KilledBy c k → ¬s.Belongs c k → (s.proc k).killed = true

instance (s : Ptable) (c : Slot) : Decidable (s.Ready c) :=
  decidable_of_iff (c ≠ s.initproc ∧ (∀ k, k ≠ c → s.Belongs c k → (s.proc k).state = .SLEEPING → s.WokenBy c k) ∧
      ∀ k, s.KilledBy c k → ¬s.Belongs c k → (s.proc k).killed = true)
    ⟨fun h ↦ ⟨h.1, h.2.1, h.2.2⟩, fun h ↦ ⟨h.notInit, h.woken, h.marked⟩⟩

/-- **A thread that exits brings down its group** exactly when the group is ready, in every reachable table: `exit` by
the thread returns, kills all other members, leaves none of them asleep, and does nothing to others but to wake them
up when they sleep on its parent or on the first process. -/
theorem exit_brings_down (hreach : s.EventReachable) (hmay : s.MayCall c) (hthread : (s.proc c).tFlag = true) :
    (exit c).Sat s (fun _ t ↦ BroughtDown s c t) (fun _ ↦ False) ↔ s.Ready c := by
  have hnamed := hreach.named
  -- No group is that of a thread, so that `exit` ends nobody else.
  have hended : ∀ k, s.EndedBy c k → k = c := by
    intro k hk
    rcases hk with hk | ⟨hptid, hused⟩
    · exact hk
    · exact absurd hptid (hnamed.thread c k hmay.used hused hthread)
  have hself : s.Belongs c c := hnamed.belongs_iff.2 ⟨hmay.used, rfl⟩
  have hmarked : ∀ k, s.Belongs c k → s.KilledBy c k := fun k hk ↦ ⟨hthread, .inl (hnamed.belongs_iff.1 hk).2.symm⟩
  -- What `exit` does if `c` is not the first process.
  have hexit (hinit : c ≠ s.initproc) : (exit c).Sat s (fun _ t ↦ Exited s t c ∧ ∀ k, k ≠ c → (t.proc k).state =
      if (s.proc k).state = .SLEEPING ∧ s.WokenBy c k then .RUNNABLE else (s.proc k).state) fun _ ↦ False := by
    rw [exit, sat_get_bind, if_neg hinit]
    exact exitFinal_sat.imp fun _ t h ↦ ⟨h, fun k hk ↦ h.state k (mt (hended k) hk)⟩
  constructor
  · intro h
    obtain ⟨_, t, hrun, hdown⟩ := h.exists_ok
    obtain ⟨hinit, -⟩ := exit_sat.of_ok hrun
    obtain ⟨hexited, hstate⟩ := (hexit hinit).of_ok hrun
    refine ⟨hinit, fun k hk hgroup hsleep ↦ ?_, fun k hkilled hgroup ↦ ?_⟩
    · by_contra hwoken
      have hk' := hstate k hk
      rw [if_neg fun h ↦ hwoken h.2] at hk'
      exact (hdown.group k hk hgroup).2 (hk'.trans hsleep)
    · obtain ⟨q, -, hq⟩ := hexited.frame k
      rw [← hdown.killed k hgroup, hq, if_pos hkilled]
      rfl
  · intro hready
    refine (hexit hready.notInit).imp fun _ t ht ↦ ?_
    obtain ⟨hexited, hstate⟩ := ht
    refine ⟨fun k hk hgroup ↦ ⟨?_, ?_⟩, fun k hgroup ↦ ?_, fun k hgroup ↦ ?_⟩
    · obtain ⟨q, -, hq⟩ := hexited.frame k
      rw [hq, if_pos (hmarked k hgroup)]
      rfl
    · rw [hstate k hk]
      split
      · decide
      next hwoken => exact fun hsleep ↦ hwoken ⟨hsleep, hready.woken k hk hgroup hsleep⟩
    · obtain ⟨q, hq, hk⟩ := hexited.frame k
      by_cases hkilled : s.KilledBy c k
      · rw [hready.marked k hkilled hgroup, hk, if_pos hkilled]
        rfl
      · rw [hk, if_neg hkilled, hq]
        rfl
    · rw [hstate k fun heq ↦ hgroup (heq ▸ hself)]
      split
      next hwoken => exact .inr ⟨hwoken.1, rfl, hwoken.2.imp_right And.left⟩
      · exact .inl rfl

/-- Init makes a thread, which forks a process. The process exits and init waits, and then the thread exits: it is
not the parent of init, but init gets the process. -/
theorem exit_brings_down_two : ∃ s : Ptable, s.EventReachable ∧ s.Belongs 1 0 ∧ (s.proc 0).state = .SLEEPING ∧
    (exit 1).Sat s (fun _ t ↦ BroughtDown s 1 t) fun _ ↦ False := by
  obtain ⟨s, hs, hmay, hflag, hready, hin, hsleep⟩ := exists_eventReachable
    [.call 0 .threadCreate, .call 1 .fork, .call 2 .exit, .sleep 0 (.proc 0)] (fun s ↦ s.MayCall 1 ∧
      (s.proc 1).tFlag = true ∧ s.Ready 1 ∧ s.Belongs 1 0 ∧ (s.proc 0).state = .SLEEPING) (by decide +kernel)
  exact ⟨s, hs, hin, hsleep, (exit_brings_down hs hmay hflag).2 hready⟩

/-- The main thread sleeps in `thread_join` when its thread calls `exit`: it is killed and goes on sleeping. And
the thread of a thread that has gone kills the first process, although that is not in its group. -/
theorem exit_leaves_sleeper :
    (∃ s t : Ptable, s.EventReachable ∧ (s.proc 1).tFlag = true ∧ s.Belongs 1 0 ∧
      s.step (1, .exit) = some (.ok t) ∧ (t.proc 0).state = .SLEEPING) ∧
    ∃ s t : Ptable, s.EventReachable ∧ (s.proc 3).tFlag = true ∧ ¬s.Belongs 3 0 ∧
      s.step (3, .exit) = some (.ok t) ∧ (s.proc 0).killed = false ∧ (t.proc 0).killed = true := by
  constructor
  · obtain ⟨s, hs, hflag, hin, hexit⟩ := exists_eventReachable [.call 0 .threadCreate, .sleep 0 (.proc 0)]
      (fun s ↦ (s.proc 1).tFlag = true ∧ s.Belongs 1 0 ∧
        reaches step s [(1, .exit)] (fun t ↦ (t.proc 0).state = .SLEEPING)) (by decide +kernel)
    obtain ⟨t, ht, hP⟩ := exists_step hexit
    exact ⟨s, t, hs, hflag, hin, ht, of_decide_eq_true hP⟩
  · obtain ⟨s, hs, hflag, hout, hkilled, hexit⟩ := exists_eventReachable
      [.call 0 .fork, .call 1 .threadCreate, .call 2 .threadCreate, .call 2 (.threadExit 0)]
      (fun s ↦ (s.proc 3).tFlag = true ∧ ¬s.Belongs 3 0 ∧ (s.proc 0).killed = false ∧
        reaches step s [(3, .exit)] (fun t ↦ (t.proc 0).killed = true)) (by decide +kernel)
    obtain ⟨t, ht, hP⟩ := exists_step hexit
    exact ⟨s, t, hs, hflag, hout, ht, hkilled, of_decide_eq_true hP⟩

end Exit

end Ptable

end Xv6
