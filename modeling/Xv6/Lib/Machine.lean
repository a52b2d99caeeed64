import Mathlib.Tactic.Common
import Mathlib.Data.List.Basic

/-!
# Runs of a labelled machine

A machine is a step function `step s l`: the label `l` may be impossible in `s` (`none`, a process
that is asleep, a call that is not made), it may stop the machine (`some (.error e)`, a panic), or
it leads to a next state (`some (.ok t)`). `Run step s ls t` says that the labels `ls` lead from `s`
to `t` without stopping. A property of every state of every run is proved with `Run.invariant`: it
holds at the start, and one step preserves it.
-/

namespace Machine

variable {σ α ε : Type} {step : σ → α → Option (Except ε σ)}

/-- The labels `ls` lead from `s` to `t`. -/
inductive Run (step : σ → α → Option (Except ε σ)) (s : σ) : List α → σ → Prop where
  | nil : Run step s [] s
  | snoc {ls : List α} {t u : σ} {l : α} (run : Run step s ls t) (h : step t l = some (.ok u)) :
      Run step s (ls ++ [l]) u

/-- The machine that takes a step only when it meets a condition. -/
def guarded (P : σ → α → Prop) [∀ s l, Decidable (P s l)] (step : σ → α → Option (Except ε σ))
    (s : σ) (l : α) : Option (Except ε σ) :=
  if P s l then step s l else none

theorem guarded_eq_some {P : σ → α → Prop} [∀ s l, Decidable (P s l)] {s : σ} {l : α}
    {x : Except ε σ} : guarded P step s l = some x ↔ P s l ∧ step s l = some x := by
  unfold guarded
  split
  next h => simp [h]
  next h => simp [h]

namespace Run

/-- A property of states that holds at the start and is preserved by every step holds in every
state of every run. -/
theorem invariant {P : σ → Prop} {s t : σ} {ls : List α} (run : Run step s ls t) (h : P s)
    (hstep : ∀ {t u l}, P t → step t l = some (.ok u) → P u) : P t := by
  induction run with
  | nil => exact h
  | snoc _ hs ih => exact hstep ih hs

/-- The same for a property of the labels so far and the state they lead to. -/
theorem invariant_labels {P : List α → σ → Prop} {s t : σ} {ls : List α} (run : Run step s ls t)
    (h : P [] s)
    (hstep : ∀ {ls t u l}, P ls t → step t l = some (.ok u) → P (ls ++ [l]) u) : P ls t := by
  induction run with
  | nil => exact h
  | snoc _ hs ih => exact hstep ih hs

/-- One run and then another. -/
theorem trans {s t u : σ} {ls ms : List α} (run : Run step s ls t) (run' : Run step t ms u) :
    Run step s (ls ++ ms) u := by
  induction run' with
  | nil =>
    rw [List.append_nil]
    exact run
  | snoc _ hs ih =>
    rw [← List.append_assoc]
    exact ih.snoc hs

end Run

/-! ### Runs that are computed -/

/-- Take the steps `ls` from `s`. -/
def runAll (step : σ → α → Option (Except ε σ)) (s : σ) : List α → Option (Except ε σ)
  | [] => some (.ok s)
  | l :: ls =>
    match step s l with
    | some (.ok t) => runAll step t ls
    | x => x

/-- The steps `ls` lead to a state that satisfies `P`. -/
def reaches (step : σ → α → Option (Except ε σ)) (s : σ) (ls : List α) (P : σ → Bool) : Bool :=
  match runAll step s ls with
  | some (.ok t) => P t
  | _ => false

theorem run_of_runAll {s t : σ} {ls : List α} (h : runAll step s ls = some (.ok t)) :
    Run step s ls t := by
  induction ls generalizing s with
  | nil =>
    obtain rfl := Except.ok.inj (Option.some.inj h)
    exact .nil
  | cons l ls ih =>
    unfold runAll at h
    split at h
    next u hu => exact (Run.nil.snoc hu).trans (ih h)
    next x hx => exact absurd h (hx t)

/-- A run that is found by computing it. -/
theorem exists_run {s : σ} {ls : List α} {P : σ → Bool} (h : reaches step s ls P = true) :
    ∃ t, Run step s ls t ∧ P t = true := by
  unfold reaches at h
  split at h
  next t ht => exact ⟨t, run_of_runAll ht, h⟩
  · cases h

/-- The same, where the rest of what is said of the last state follows from what is computed. -/
theorem exists_run_of {s : σ} {ls : List α} {Q : σ → Prop} (D : σ → Prop) [DecidablePred D]
    (h : reaches step s ls (fun t ↦ D t) = true) (hQ : ∀ t, Run step s ls t → D t → Q t) :
    ∃ t, Run step s ls t ∧ Q t := by
  obtain ⟨t, run, ht⟩ := exists_run h
  exact ⟨t, run, hQ t run (of_decide_eq_true ht)⟩

/-- A step that is found by computing it. -/
theorem exists_step {s : σ} {l : α} {P : σ → Bool} (h : reaches step s [l] P = true) :
    ∃ t, step s l = some (.ok t) ∧ P t = true := by
  unfold reaches runAll at h
  cases hstep : step s l with
  | none =>
    rw [hstep] at h
    cases h
  | some x =>
    rw [hstep] at h
    cases x with
    | error e => cases h
    | ok t => exact ⟨t, rfl, h⟩

/-- The step `l` stops with `e`. -/
def stops [DecidableEq ε] (step : σ → α → Option (Except ε σ)) (s : σ) (l : α) (e : ε) : Bool :=
  match step s l with
  | some (.error e') => e' = e
  | _ => false

theorem step_of_stops [DecidableEq ε] {s : σ} {l : α} {e : ε} (h : stops step s l e = true) :
    step s l = some (.error e) := by
  unfold stops at h
  split at h
  next e' hstep => rw [hstep, of_decide_eq_true h]
  · cases h

end Machine
