import Xv6.Proc.Spec
import Xv6.Xem.Semaphore

/-!
# Semaphores and `kill`

`kill` wakes up a thread outside the protocol of the semaphores. The number of the thread stays in the
line and what it has taken is not given back: `exit` knows nothing of semaphores. So each killed thread
that waits for a semaphore or holds it costs one of its places, and an `xem_unlock` is spent on its
number; with a semaphore of value 1, those that wait behind it sleep forever (`kill_loses_unlock`).

As long as the killed threads have taken less than the value, there is still somebody who will wake up
those that sleep, and if none of them has been killed in its sleep then no `xem_unlock` is lost
(`semaphore_survives_kill`). When a killed thread exits, `exit` marks its whole group as killed, and
nobody is left who could wait in vain.
-/

namespace Xv6

open Vm Function Ptable Machine

namespace XemSys

variable {d a : ℕ} {v : ℤ} {strict : Bool} {s s' : XemSys} {l : Slot × XemOp}

/-- The slot that `kill` finds. -/
def target (s : XemSys) (pid : ℤ) : Option Slot :=
  Ptable.slots.find? fun p ↦ (s.table.proc p).pid = pid

/-- The threads of the address space `d` use its semaphore `a`, anybody may be killed, and a thread that
has been killed exits. -/
def UsesOrDies (d a : ℕ) (s : XemSys) (l : Slot × XemOp) : Prop :=
  match l.2 with
  | .kill _ => True
  | .exit => (s.table.proc l.1).pgdir = some d
  | _ => Uses d a s l

/-- The killed threads have taken less than `v` of the semaphore after a `kill`; with `strict`, nobody is
killed who sleeps in `xem_wait`. An `exit` leaves nobody in the address space who has not been killed. -/
def Spared (d a : ℕ) (v : ℤ) (strict : Bool) (s : XemSys) (l : Slot × XemOp) : Prop :=
  match l.2 with
  | .kill pid => ∀ p ∈ s.target pid,
      ((s.table.proc p).killed = true ∨ (s.lost d a + s.units d a p : ℤ) < v) ∧
        (strict = true → ¬s.Sleeps d a p)
  | .exit => ∀ j, (s.table.proc j).pgdir = some d →
      (s.table.proc j).killed = true ∨ s.table.KilledBy l.1 j
  | _ => True

instance (d a : ℕ) (s : XemSys) (l : Slot × XemOp) : Decidable (UsesOrDies d a s l) :=
  match l with
  | (t, .wait b) => inferInstanceAs (Decidable (Uses d a s (t, .wait b)))
  | (t, .resume) => inferInstanceAs (Decidable (Uses d a s (t, .resume)))
  | (t, .unlock b) => inferInstanceAs (Decidable (Uses d a s (t, .unlock b)))
  | (_, .kill _) => isTrue trivial
  | (t, .exit) => inferInstanceAs (Decidable ((s.table.proc t).pgdir = some d))

instance (d a : ℕ) (v : ℤ) (strict : Bool) (s : XemSys) (l : Slot × XemOp) :
    Decidable (Spared d a v strict s l) :=
  match l with
  | (_, .wait _) | (_, .resume) | (_, .unlock _) => isTrue trivial
  | (_, .kill _) | (_, .exit) => inferInstanceAs (Decidable (∀ _, _))

/-! ### What the steps do to killed threads -/

/-- `xem_wait` and `xem_unlock` do not change what a killed thread has taken. -/
theorem units_step (hop : IsXem l.2) (hstep : s.step l = some (.ok s')) {u : Slot}
    (hu : (s.table.proc u).killed = true) (d a : ℕ) : s'.units d a u = s.units d a u := by
  have hpgdir := (step_fields hop hstep u).1
  rw [XemSys.units, XemSys.units, hpgdir]
  have hlive : ∀ {t : Slot}, s.MayCall t → u ≠ t := by
    rintro t hmay rfl
    cases hmay.2.2.symm.trans hu
  cases did_of_step hstep with
  | take _ hmay hpos =>
    rw [wait_of_pos hpos, setHeld_held, setHeld_call, setSem_call, setSem_held,
      update_of_ne (hlive hmay)]
  | sleep _ hmay hle =>
    rw [wait_of_le hle, setCall_held, setCall_call, setTable_held, setTable_call, setSem_call,
      setSem_held, update_of_ne (hlive hmay)]
  | @resume t d₁ a₁ hd hcall hrun =>
    rcases eq_or_ne u t with rfl | hut
    · show (if _ then List.count a (update s.held u (a₁ :: s.held u) u) +
        (if update s.call u none u = some a then 1 else 0) else 0) = _
      have hnone : (none : Option ℕ) ≠ some a := by simp
      rw [update_self, update_self, if_neg hnone, hcall, List.count_cons]
      simp only [Option.some.injEq, beq_iff_eq, Nat.add_zero]
    · show (if _ then List.count a (update s.held t (a₁ :: s.held t) u) +
        (if update s.call t none u = some a then 1 else 0) else 0) = _
      rw [update_of_ne hut, update_of_ne hut]
  | @give t d₁ a₁ hd hmay ha hge =>
    rw [unlock_of_nonneg hge, setHeld_held, setHeld_call, setSem_call, setSem_held,
      update_of_ne (hlive hmay)]
  | @pass t d₁ a₁ hd hmay ha hneg =>
    rw [unlock_of_neg hneg, setHeld_held, setHeld_call, setTable_call, setTable_held, setSem_call,
      setSem_held, update_of_ne (hlive hmay)]
  | kill | exit => exact hop.elim

theorem lost_step (hop : IsXem l.2) (hstep : s.step l = some (.ok s')) (d a : ℕ) :
    s'.lost d a = s.lost d a := by
  refine Finset.sum_congr rfl fun u _ ↦ ?_
  rw [(step_fields hop hstep u).2]
  split
  next hu => exact units_step hop hstep hu d a
  · rfl

variable {table : Ptable} {pid : ℤ} {t : Slot}

/-- `kill` changes the slot it finds, and nothing else. -/
theorem kill_target : (kill pid).Sat s.table (fun _ table ↦ (s.target pid = none ∧ table = s.table) ∨
    ∃ p, s.target pid = some p ∧ (table.proc p).killed = true ∧
      (∀ u, (table.proc u).pgdir = (s.table.proc u).pgdir) ∧
      ∀ u, u ≠ p → table.proc u = s.table.proc u) fun _ ↦ True := by
  refine sat_kill (fun hnone ↦ .inl ⟨hnone, rfl⟩) fun p hp ↦ .inr ⟨p, hp, ?_, ?_, ?_⟩
  · rw [setProc_proc, update_self]
    rfl
  · intro u
    rw [setProc_proc]
    rcases eq_or_ne u p with rfl | hu
    · rw [update_self]
      rfl
    · rw [update_of_ne hu]
  · intro u hu
    rw [setProc_proc, update_of_ne hu]

/-- After a `kill` that is `Spared`, the killed threads have still taken less than `v`. -/
theorem lost_kill (hlost : (s.lost d a : ℤ) < v) (hspared : Spared d a v strict s (t, .kill pid))
    (h : (kill pid).exec s.table = .ok table) : ((s.setTable table).lost d a : ℤ) < v := by
  obtain ⟨_, ⟨-, rfl⟩ | ⟨p, hp, hkilled, hpgdir, hother⟩⟩ := kill_target.of_exec_ok h
  · exact hlost
  · have hunits : ∀ u, (s.setTable table).units d a u = s.units d a u := by
      intro u
      rw [XemSys.units, XemSys.units, setTable_table, hpgdir]
      rfl
    have hle : (s.setTable table).lost d a ≤ s.lost d a +
        if (s.table.proc p).killed = true then 0 else s.units d a p := by
      rw [lost, lost, ← Finset.add_sum_erase _ _ (Finset.mem_univ p),
        ← Finset.add_sum_erase (Finset.univ) (fun t ↦ if (s.table.proc t).killed = true then
          s.units d a t else 0) (Finset.mem_univ p)]
      have heq : ∀ u ∈ Finset.univ.erase p, (if ((s.setTable table).table.proc u).killed = true then
          (s.setTable table).units d a u else 0) =
            if (s.table.proc u).killed = true then s.units d a u else 0 := by
        intro u hu
        rw [hunits, setTable_table, hother u (Finset.ne_of_mem_erase hu)]
      rw [Finset.sum_congr rfl heq, hunits, setTable_table, if_pos hkilled]
      split
      · omega
      · omega
    rcases (hspared p hp).1 with hk | hlt
    · rw [if_pos hk] at hle
      omega
    · split at hle
      · omega
      · omega

/-! ### Runs with `kill` -/

/-- What is kept in the runs in which one semaphore is used and threads may be killed. -/
structure Survivable (d a : ℕ) (v : ℤ) (strict : Bool) (s : XemSys) : Prop where
  /-- The invariant. With `strict`, nobody in the line has been killed. -/
  inv : ∃ G, Inv (Only d a) (fun _ _ ↦ v) G s ∧
    (strict = true → ∀ t ∈ (G d a).line, (s.table.proc t).killed = false)
  calls : s.OnlyCalls d a
  lost : (s.lost d a : ℤ) < v

/-- Everybody in the address space has been killed. -/
def AllKilled (d : ℕ) (s : XemSys) : Prop :=
  ∀ t, (s.table.proc t).pgdir = some d → (s.table.proc t).killed = true

/-- A step of `xem_wait` or `xem_unlock`. -/
theorem Survivable.step_uses (h : Survivable d a v strict s) (huses : Uses d a s l)
    (hstep : s.step l = some (.ok s')) : Survivable d a v strict s' := by
  obtain ⟨G, hinv, hline⟩ := h.inv
  obtain ⟨G', hmove, hinv'⟩ := hinv.step (huses.allowed h.calls) hstep
  refine ⟨⟨G', hinv', fun hstrict t ht ↦ ?_⟩, h.calls.step huses hstep, ?_⟩
  · rw [(step_fields huses.isXem hstep t).2]
    cases hmove with
    | same => exact hline hstrict t ht
    | @sleep d₁ a₁ hop hd₁ =>
      by_cases hmem : t ∈ (G d a).line
      · exact hline hstrict t hmem
      -- A thread that goes to sleep has not been killed.
      · have ht' : t = l.1 := by
          unfold enqueue at ht
          rcases eq_or_ne (d, a) (d₁, a₁) with heq | hne
          · obtain ⟨rfl, rfl⟩ := Prod.mk.inj heq
            rw [update₂_self] at ht
            exact List.mem_singleton.1 ((List.mem_append.1 ht).resolve_left hmem)
          · rw [update₂_of_ne _ _ hne] at ht
            exact absurd ht hmem
        rw [ht']
        obtain ⟨t₀, op⟩ := l
        obtain rfl : op = .wait a₁ := hop
        cases did_of_step hstep with
        | take _ hmay _ | sleep _ hmay _ => exact hmay.2.2
    | @pass d₁ a₁ hop hd₁ _ =>
      unfold dequeue at ht
      rcases eq_or_ne (d, a) (d₁, a₁) with heq | hne
      · obtain ⟨rfl, rfl⟩ := Prod.mk.inj heq
        rw [update₂_self] at ht
        exact hline hstrict t (List.mem_of_mem_tail ht)
      · rw [update₂_of_ne _ _ hne] at ht
        exact hline hstrict t ht
  · rw [lost_step huses.isXem hstep]
    exact h.lost

/-- A `kill`. -/
theorem Survivable.step_kill (h : Survivable d a v strict s) (hspared : Spared d a v strict s (t, .kill pid))
    (hkill : (kill pid).exec s.table = .ok table) : Survivable d a v strict (s.setTable table) := by
  obtain ⟨G, hinv, hline⟩ := h.inv
  have hlost := lost_kill h.lost hspared hkill
  have hinv' := hinv.kill (kill_exec hkill)
  obtain ⟨_, ⟨-, rfl⟩ | ⟨p, hp, -, hpgdir, hother⟩⟩ := kill_target.of_exec_ok hkill
  · exact h
  · refine ⟨⟨G, hinv', fun hstrict u hu ↦ ?_⟩, fun u b hub ↦ ?_, hlost⟩
    · have hlive := hline hstrict u hu
      have hup : u ≠ p := by
        intro heq
        refine (hspared p hp).2 hstrict ?_
        rw [← heq]
        exact ((hinv.fits d a ⟨rfl, rfl⟩).sleeps_iff u).2 ⟨hu, hlive⟩
      rw [setTable_table, hother u hup]
      exact hlive
    · rw [setTable_table, hpgdir]
      exact h.calls u b hub

/-- An `exit` that leaves nobody who has not been killed. -/
theorem allKilled_exit (hspared : ∀ j, (s.table.proc j).pgdir = some d →
    (s.table.proc j).killed = true ∨ s.table.KilledBy t j) (hexit : (exit t).exec s.table = .ok table) : AllKilled d (s.setTable table) := by
  intro u hu
  obtain ⟨_, -, hexited⟩ := exit_sat.of_exec_ok hexit
  obtain ⟨q, hq, heq⟩ := hexited.frame u
  rw [setTable_table, heq] at hu ⊢
  split
  · rfl
  next hnot =>
    rw [if_neg hnot, hq] at hu
    rw [hq]
    exact (hspared u hu).resolve_right hnot

/-- When everybody in the address space has been killed, it stays so. -/
theorem AllKilled.step (h : AllKilled d s) (huses : UsesOrDies d a s l)
    (hstep : s.step l = some (.ok s')) : AllKilled d s' := by
  intro u hu
  cases did_of_step hstep with
  | take hd hmay | sleep hd hmay => exact nomatch hmay.2.2.symm.trans (h _ huses.1)
  | resume hd hcall hrun =>
    rw [(step_fields (l := (_, .resume)) trivial hstep u).1] at hu
    rw [(step_fields (l := (_, .resume)) trivial hstep u).2]
    exact h u hu
  | give hd hmay | pass hd hmay => exact nomatch hmay.2.2.symm.trans (h _ huses.1)
  | kill hkill =>
    rw [setTable_table] at hu ⊢
    rcases kill_exec hkill u with heq | ⟨hk, -, -⟩
    · rw [heq] at hu ⊢
      exact h u hu
    · exact hk
  | exit hexit => exact allKilled_exit (fun j hj ↦ .inl (h j hj)) hexit u hu

theorem survivable_step (h : Survivable d a v strict s ∨ AllKilled d s) (huses : UsesOrDies d a s l)
    (hspared : Spared d a v strict s l) (hstep : s.step l = some (.ok s')) :
    Survivable d a v strict s' ∨ AllKilled d s' := by
  rcases h with h | h
  · obtain ⟨t, op⟩ := l
    cases op with
    | wait b | resume | unlock b => exact .inl (h.step_uses huses hstep)
    | kill pid =>
      cases did_of_step hstep with
      | kill hkill => exact .inl (h.step_kill hspared hkill)
    | exit =>
      cases did_of_step hstep with
      | exit hexit => exact .inr (allKilled_exit hspared hexit)
  · exact .inr (h.step huses hstep)

/-- What a semaphore with initial value `v` still guarantees when threads may be killed. -/
structure Outlives (d a : ℕ) (v : ℤ) (strict : Bool) (s : XemSys) : Prop where
  /-- It is held at most `v` times. -/
  holders_le : (s.holders d a : ℤ) ≤ v
  /-- A thread that has not been killed sleeps only while such a thread holds the semaphore. -/
  awaited : ∀ t, s.Sleeps d a t → (s.table.proc t).killed = false → ∃ u, 0 < s.holds d a u
  /-- No `xem_unlock` is lost: if somebody waits, a thread that sleeps and has not been killed is woken
  up. -/
  unlock : strict = true → ∀ t s', (s.table.proc t).pgdir = some d → (s.sem d a).value < 0 →
    s.step (t, .unlock a) = some (.ok s') →
      ∃ u, s.Sleeps d a u ∧ (s.table.proc u).killed = false ∧ ¬s'.Sleeps d a u

theorem Survivable.outlives (h : Survivable d a v strict s) : s.Outlives d a v strict := by
  obtain ⟨G, hinv, hline⟩ := h.inv
  have hU : Only d a d a := ⟨rfl, rfl⟩
  have hf := hinv.fits d a hU
  refine ⟨hf.holders_le, fun t ht _ ↦ ?_, fun hstrict t s' hd hneg hstep ↦ ?_⟩
  · have hpos : 0 < s.holders d a := by
      have := hf.holders_of_sleeps ht
      have := h.lost
      omega
    obtain ⟨u, -, hu⟩ := Finset.exists_ne_zero_of_sum_ne_zero hpos.ne'
    exact ⟨u, Nat.pos_of_ne_zero hu⟩
  · -- The first thread of the line.
    have hlen := hf.length
    obtain ⟨u, rest, hu⟩ : ∃ u rest, (G d a).line = u :: rest :=
      List.exists_cons_of_length_pos (by omega)
    have hmem : u ∈ (G d a).line := by rw [hu]; exact List.mem_cons_self
    have hlive := hline hstrict u hmem
    refine ⟨u, (hf.sleeps_iff u).2 ⟨hmem, hlive⟩, hlive, fun hs' ↦ ?_⟩
    obtain ⟨G', hmove, hinv'⟩ := hinv.step (l := (t, .unlock a)) (fun _ hd' ↦
      ⟨Option.mem_unique hd' hd, rfl⟩) hstep
    have hmem' := (((hinv'.fits d a hU).sleeps_iff u).1 hs').1
    cases hmove with
    | same hgive =>
      have hge := hgive d a rfl hd
      omega
    | sleep hop => cases hop
    | @pass d₁ a₁ hop hd₁ _ =>
      obtain rfl := Option.mem_unique hd₁ hd
      obtain rfl := XemOp.unlock.inj hop
      have hnodup := hf.nodup
      rw [hu, List.nodup_cons] at hnodup
      rw [dequeue, update₂_self, hu] at hmem'
      exact hnodup.1 hmem'

theorem AllKilled.outlives (h : AllKilled d s) (hv : 1 ≤ v) : s.Outlives d a v strict := by
  have hholds : ∀ t, s.holds d a t = 0 := fun t ↦ if_neg fun h' ↦
    nomatch h'.2.symm.trans (h t h'.1)
  refine ⟨?_, fun t ht hlive ↦ ?_, fun _ t s' hd _ hstep ↦ ?_⟩
  · rw [holders, Finset.sum_eq_zero fun t _ ↦ hholds t]
    omega
  · exact nomatch hlive.symm.trans (h t ht.1)
  · cases did_of_step hstep with
    | give _ hmay | pass _ hmay => exact nomatch hmay.2.2.symm.trans (h t hd)

/-- **Semaphores survive some kills.** In every run of threads of one address space with one semaphore
of value `v`, with `kill` of anybody at any time and `exit` of those that have been killed, in which
after each `kill` the killed threads have taken less than `v` and each `exit` leaves nobody in the
address space who has not been killed: the semaphore is held at most `v` times, and a thread that has
not been killed sleeps only while such a thread holds it; and if nobody is killed who sleeps in
`xem_wait`, each `xem_unlock` for which somebody waits wakes up a thread that has not been killed. -/
theorem semaphore_survives_kill {s s' : XemSys} {d a : ℕ} {v : ℤ} {strict : Bool}
    {ls : List (Slot × XemOp)} (hstart : Start (Only d a) (fun _ _ ↦ v) s)
    (hrun : Machine.Run (Machine.guarded (fun s l ↦ UsesOrDies d a s l ∧ Spared d a v strict s l)
      step) s ls s') : s'.Outlives d a v strict := by
  have hv : 1 ≤ v := (hstart.sem d a ⟨rfl, rfl⟩).2
  have hinv : Survivable d a v strict s' ∨ AllKilled d s' := by
    refine hrun.invariant (P := fun s ↦ Survivable d a v strict s ∨ AllKilled d s)
      (.inl ⟨⟨_, hstart.inv, fun _ t ht ↦ nomatch ht⟩, ?_, ?_⟩) ?_
    · intro t b ht
      exact nomatch (hstart.call t).symm.trans ht
    · rw [lost_eq_zero hstart.killed]
      omega
    · intro s₁ s₂ l h hstep
      obtain ⟨⟨huses, hspared⟩, hstep⟩ := guarded_eq_some.1 hstep
      exact survivable_step h huses hspared hstep
  rcases hinv with h | h
  · exact h.outlives
  · exact h.outlives hv

/-- The theorem at a run: with value 2, two threads hold the semaphore, one that waits is killed, and
another one goes on waiting. -/
theorem semaphore_survives_kill_once : ∃ table s, (∀ t, (table.proc t).killed = false) ∧
    Machine.Run (Machine.guarded (fun s l ↦ UsesOrDies 0 8192 s l ∧ Spared 0 8192 2 false s l) step)
      (fresh table 2) [(0, .wait 8192), (1, .wait 8192), (2, .wait 8192), (3, .wait 8192),
        (0, .kill 3), (2, .resume)] s ∧
    s.Outlives 0 8192 2 false ∧ s.Sleeps 0 8192 3 ∧ (s.table.proc 2).killed = true :=
  exists_run_of_calls [(0, .threadCreate), (0, .threadCreate), (0, .threadCreate)]
    (fun s ↦ s.Sleeps 0 8192 3 ∧ (s.table.proc 2).killed = true) (by decide +kernel) fun table s hlive hrun hs ↦
      ⟨semaphore_survives_kill (start_fresh hlive (by decide)) hrun, hs⟩

/-- **An `xem_unlock` is lost on a killed thread.** With value 1, the first process holds the semaphore
and its two threads sleep. The first of them is killed and returns from `xem_wait`. Then the
`xem_unlock` of the first process wakes up nobody: it is spent on the number of the killed thread, the
second thread sleeps on and nobody holds the semaphore. The killed thread then exits. -/
theorem kill_loses_unlock : ∃ table s s', (∀ t, (table.proc t).killed = false) ∧
    Machine.Run (Machine.guarded (UsesOrDies 0 8192) step) (fresh table 1)
      [(0, .wait 8192), (1, .wait 8192), (2, .wait 8192)] s ∧ s.Sleeps 0 8192 1 ∧
    s.target 2 = some 1 ∧
    Machine.Run (Machine.guarded (UsesOrDies 0 8192) step) s
      [(0, .kill 2), (1, .resume), (0, .unlock 8192)] s' ∧
    s'.Sleeps 0 8192 2 ∧ (s'.table.proc 2).killed = false ∧ s'.holders 0 8192 = 0 ∧
    ∃ s'', s'.step (1, .exit) = some (.ok s'') := by
  have hrun : ∃ table s, (∀ t, (table.proc t).killed = false) ∧ Run (guarded (UsesOrDies 0 8192) step) (fresh table 1)
      [(0, .wait 8192), (1, .wait 8192), (2, .wait 8192)] s ∧ s.Sleeps 0 8192 1 ∧ s.target 2 = some 1 ∧
        reaches (guarded (UsesOrDies 0 8192) step) s [(0, .kill 2), (1, .resume), (0, .unlock 8192)]
          fun s' ↦ s'.Sleeps 0 8192 2 ∧ (s'.table.proc 2).killed = false ∧ s'.holders 0 8192 = 0 ∧
            reaches step s' [(1, .exit)] fun _ ↦ true :=
    exists_run_of_calls [(0, .threadCreate), (0, .threadCreate)] _ (by decide +kernel) fun _ _ _ _ h ↦ h
  obtain ⟨table, s, hlive, hrun, hsleeps, htarget, hs'⟩ := hrun
  obtain ⟨s', hrun', hs'⟩ := exists_run hs'
  obtain ⟨hsleeps', hlive', hholders, hexit⟩ := of_decide_eq_true hs'
  obtain ⟨s'', hstep, -⟩ := exists_step hexit
  exact ⟨table, s, s', hlive, hrun, hsleeps, htarget, hrun', hsleeps', hlive', hholders, s'', hstep⟩

end XemSys

end Xv6
