import Mathlib.Logic.Function.Basic
import Mathlib.Algebra.BigOperators.Group.Finset.Basic
import Xv6.Lib.Machine
import Xv6.Lib.Prog

/-!
# Threads that share a state

Several threads work on a shared state, each at a program counter of its own. `next` gives the
program that a thread runs next: this is what it does without being interrupted, and it ends at the
next program counter, or there is no such program and the thread has ended. Any thread can be the
next to run, so a list of threads is a schedule, and what holds along every `Machine.Run` of
`Threads.step` holds for every interleaving.

A program that stops because it has to wait for another thread does not run at all (`waits`); one
that stops for another reason stops the machine. The past is kept, so that a property can speak of
what a thread has seen.
-/

/-- A step that has been taken. -/
structure Event (ι σ π : Type) where
  /-- Whose step it was. -/
  thread : ι
  /-- The shared state before the step. -/
  before : σ
  /-- The program counter before the step. -/
  source : π
  /-- The program counter after the step. -/
  target : π

/-- Threads `ι` with a shared state in `σ` and program counters in `π`. -/
structure Threads (ι σ π : Type) where
  /-- The shared state. -/
  shared : σ
  /-- Where each thread is. -/
  pc : ι → π
  /-- The steps taken so far. -/
  past : List (Event ι σ π)

namespace Threads

open Function

variable {ι σ ε π : Type} [DecidableEq ι] {next : π → Option (Prog σ ε π)} {waits : ε → Prop}
  [DecidablePred waits]

/-- Thread `i` takes a step. -/
def step (next : π → Option (Prog σ ε π)) (waits : ε → Prop) [DecidablePred waits]
    (c : Threads ι σ π) (i : ι) : Option (Except ε (Threads ι σ π)) :=
  match next (c.pc i) with
  | none => none
  | some m =>
    match m.run c.shared with
    | .error e => if waits e then none else some (.error e)
    | .ok (p, s) =>
      some (.ok ⟨s, update c.pc i p, c.past ++ [⟨i, c.shared, c.pc i, p⟩]⟩)

variable {c d : Threads ι σ π} {i : ι} {Q : π → σ → Prop} {E : ε → Prop}

/-- What a step that is taken has done. -/
theorem step_eq_ok (h : step next waits c i = some (.ok d)) : ∃ m p s, next (c.pc i) = some m ∧
    m.run c.shared = .ok (p, s) ∧ d = ⟨s, update c.pc i p, c.past ++ [⟨i, c.shared, c.pc i, p⟩]⟩ := by
  unfold step at h
  split at h
  · cases h
  next m hm =>
    split at h
    · split at h <;> cases h
    next p s hrun => exact ⟨m, p, s, hm, hrun, (Except.ok.inj (Option.some.inj h)).symm⟩

/-- The other threads stay where they are. -/
theorem pc_of_step {j : ι} (h : step next waits c i = some (.ok d)) (hj : j ≠ i) : d.pc j = c.pc j := by
  obtain ⟨m, p, s, -, -, rfl⟩ := step_eq_ok h
  exact update_of_ne hj ..

/-- A sum over the threads changes by the summand of the thread that has taken a step. -/
theorem sum_of_step [Fintype ι] (g : ι → π → ℕ) (h : step next waits c i = some (.ok d)) :
    ∑ j, g j (d.pc j) + g i (c.pc i) = ∑ j, g j (c.pc j) + g i (d.pc i) := by
  have hrest : ∑ j ∈ Finset.univ.erase i, g j (d.pc j) =
      ∑ j ∈ Finset.univ.erase i, g j (c.pc j) :=
    Finset.sum_congr rfl fun j hj ↦ by rw [pc_of_step h (Finset.ne_of_mem_erase hj)]
  rw [← Finset.add_sum_erase _ _ (Finset.mem_univ i), hrest,
    ← Finset.add_sum_erase Finset.univ (fun j ↦ g j (c.pc j)) (Finset.mem_univ i)]
  omega

theorem past_of_step (h : step next waits c i = some (.ok d)) :
    d.past = c.past ++ [⟨i, c.shared, c.pc i, d.pc i⟩] := by
  obtain ⟨m, p, s, -, -, rfl⟩ := step_eq_ok h
  dsimp only
  rw [update_self]

/-- At `p` a thread has a program to run, and from `s` it ends with `Q` or stops with `E`. -/
def NextSat (next : π → Option (Prog σ ε π)) (p : π) (s : σ) (Q : π → σ → Prop) (E : ε → Prop) :
    Prop :=
  ∃ m, next p = some m ∧ m.Sat s Q E

theorem NextSat.mono {p : π} {s : σ} {Q' : π → σ → Prop} {E' : ε → Prop}
    (h : NextSat next p s Q E) (hQ : ∀ q t, Q q t → Q' q t) (hE : ∀ e, E e → E' e) :
    NextSat next p s Q' E' := by
  obtain ⟨m, hm, hsat⟩ := h
  exact ⟨m, hm, hsat.mono hQ hE⟩

/-- A step ends as the program it runs is known to end. -/
theorem NextSat.of_step (hsat : NextSat next (c.pc i) c.shared Q E)
    (h : step next waits c i = some (.ok d)) : Q (d.pc i) d.shared := by
  obtain ⟨m, hm, hsat⟩ := hsat
  obtain ⟨m', p, s, hm', hrun, rfl⟩ := step_eq_ok h
  rw [hm] at hm'
  obtain rfl := Option.some.inj hm'
  dsimp only
  rw [update_self]
  exact hsat.of_ok hrun

/-- The machine stops as the program is known to stop, and not because it waits. -/
theorem NextSat.of_step_error {e : ε} (hsat : NextSat next (c.pc i) c.shared Q E)
    (h : step next waits c i = some (.error e)) : E e ∧ ¬waits e := by
  obtain ⟨m, hm, hsat⟩ := hsat
  rw [step, hm] at h
  dsimp only at h
  split at h
  next e' hrun =>
    split at h
    · cases h
    next hnot =>
      obtain rfl := Except.error.inj (Option.some.inj h)
      exact ⟨hsat.of_error hrun, hnot⟩
  · cases h

/-- A thread whose program does not wait can take a step. -/
theorem NextSat.exists_step (hsat : NextSat next (c.pc i) c.shared Q fun e ↦ ¬waits e) :
    ∃ x, step next waits c i = some x := by
  obtain ⟨m, hm, hsat⟩ := hsat
  rw [step, hm]
  dsimp only
  split
  next e hrun => exact ⟨_, if_neg (hsat.of_error hrun)⟩
  · exact ⟨_, rfl⟩

end Threads
