import Xv6.Lib.Machine
import Xv6.Proc.Exec

/-!
# System calls one at a time

The machine whose steps are whole system calls on processes and threads, made by any process that
can run, from the table that `userinit` leaves. A call that would sleep is a step only once it does
not: the scans before its last one change nothing.
-/

namespace Xv6

/-- A system call on processes and threads. -/
inductive Call where
  | fork
  | exit
  | wait
  | kill (pid : ℤ)
  | sbrk (n : BitVec 32)
  | exec (prog : Program)
  | threadCreate
  | threadExit (retval : ℕ)
  | threadJoin (thread : ℤ)
  deriving DecidableEq

namespace Ptable

/-- Run a system call for `c`. A call that sleeps returns nothing. -/
def call (c : Slot) : Call → Kern (Option Ret)
  | .fork => return some (.code (← fork c))
  | .exit => do
    exit c
    return some (.code 0)
  | .wait => do
    match ← wait c with
    | .found pid => return some (.code pid)
    | .none => return some (.code (-1))
    | .sleep => return none
  | .kill pid => return some (.code (← kill pid))
  | .sbrk n => do
    -- `sys_sbrk`
    let addr := ((← Prog.get).proc c).sz
    if (← growproc c n.toInt) < 0 then
      return some (.code (-1))
    else
      return some (.code addr)
  | .exec prog => return some (.code (← exec c prog))
  | .threadCreate => do
    match ← threadCreate c with
    | none => return some (.code (-1))
    | some _ => return some (.code 0)
  | .threadExit v => do
    threadExit c v
    return some (.code 0)
  | .threadJoin t => do
    match ← threadJoin c t with
    | .found v => return some (.join v)
    | .none => return some (.code (-1))
    | .sleep => return none

/-- `c` can make a system call: it can run. It may have been killed, after `trap` has looked. -/
def MayCall (s : Ptable) (c : Slot) : Prop :=
  (s.proc c).state = .RUNNABLE ∨ (s.proc c).state = .RUNNING

instance (s : Ptable) (c : Slot) : Decidable (s.MayCall c) :=
  inferInstanceAs (Decidable (_ ∨ _))

/-- A system call by a process that can make it. -/
def step (s : Ptable) (l : Slot × Call) : Option (Except Vm.Fault Ptable) :=
  if s.MayCall l.1 then
    match (call l.1 l.2).run s with
    | .ok (some _, t) => some (.ok t)
    | .ok (none, _) => none
    | .error e => some (.error e)
  else
    none

theorem step_ok {s t : Ptable} {c : Slot} {a : Call} (h : s.step (c, a) = some (.ok t)) :
    s.MayCall c ∧ ∃ r, (call c a).run s = .ok (some r, t) := by
  rw [step] at h
  split at h
  next hmay =>
    split at h
    next r u hrun =>
      obtain rfl := Except.ok.inj (Option.some.inj h)
      exact ⟨hmay, r, hrun⟩
    · cases h
    · cases Option.some.inj h
  · cases h

/-- The table after `userinit`. -/
def boot (freelist : List ℕ) : Except Vm.Fault Ptable := userinit.exec (zero freelist)

/-- The table is reached from a boot by system calls. -/
def Reachable (s : Ptable) : Prop :=
  ∃ freelist s₀ ls, boot freelist = .ok s₀ ∧ Machine.Run step s₀ ls s

/-- A boot leads to a table that satisfies `f`. -/
def bootThen (freelist : List ℕ) (f : Ptable → Bool) : Bool :=
  match boot freelist with
  | .ok s₀ => f s₀
  | .error _ => false

theorem exists_boot {freelist : List ℕ} {f : Ptable → Bool} (h : bootThen freelist f = true) :
    ∃ s₀, boot freelist = .ok s₀ ∧ f s₀ = true := by
  rw [bootThen] at h
  split at h
  next s₀ hs₀ => exact ⟨s₀, hs₀, h⟩
  · cases h

/-- A boot and a run from it that are found by computing them. -/
theorem exists_boot_run {σ α ε : Type} {freelist : List ℕ} {start : Ptable → σ} {ls : List α} {P : σ → Bool}
    {step : σ → α → Option (Except ε σ)} (h : bootThen freelist (fun s ↦ Machine.reaches step (start s) ls P) = true) :
    ∃ s₀ t, boot freelist = .ok s₀ ∧ Machine.Run step (start s₀) ls t ∧ P t = true := by
  obtain ⟨s₀, hs₀, hreach⟩ := exists_boot h
  obtain ⟨t, hrun, ht⟩ := Machine.exists_run hreach
  exact ⟨s₀, t, hs₀, hrun, ht⟩

/-- The same, where the rest of what is said of the last state follows from what is computed. -/
theorem exists_boot_run_of {σ α ε : Type} {start : Ptable → σ} {step : σ → α → Option (Except ε σ)}
    {Q : List α → σ → Prop} (freelist : List ℕ) (ls : List α) (D : σ → Prop) [DecidablePred D]
    (h : bootThen freelist (fun s ↦ Machine.reaches step (start s) ls fun t ↦ D t) = true)
    (hQ : ∀ s₀ t, boot freelist = .ok s₀ → Machine.Run step (start s₀) ls t → D t → Q ls t) :
    ∃ freelist s₀ ls t, boot freelist = .ok s₀ ∧ Machine.Run step (start s₀) ls t ∧ Q ls t := by
  obtain ⟨s₀, t, hs₀, hrun, ht⟩ := exists_boot_run h
  exact ⟨freelist, s₀, ls, t, hs₀, hrun, hQ s₀ t hs₀ hrun (of_decide_eq_true ht)⟩

/-- The calls `ls` after a boot lead to a table that satisfies `P`. -/
def bootReaches (freelist : List ℕ) (ls : List (Slot × Call)) (P : Ptable → Bool) : Bool :=
  bootThen freelist fun s₀ ↦ Machine.reaches step s₀ ls P

theorem exists_reachable {freelist : List ℕ} {ls : List (Slot × Call)} {P : Ptable → Bool}
    (h : bootReaches freelist ls P = true) : ∃ s, Reachable s ∧ P s = true := by
  obtain ⟨s₀, s, hs₀, hrun, hs⟩ := exists_boot_run h
  exact ⟨s, ⟨freelist, s₀, ls, hs₀, hrun⟩, hs⟩

/-- A reachable table and a call that returns, found by computing them. -/
theorem exists_return {α : Type} (freelist : List ℕ) (ls : List (Slot × Call)) (m : Kern α) (D : Ptable → α → Ptable → Prop)
    [∀ s r t, Decidable (D s r t)]
    (h : bootReaches freelist ls (fun s ↦ m.returns s fun r t ↦ D s r t) = true) :
    ∃ s r t, Reachable s ∧ m.run s = .ok (r, t) ∧ D s r t := by
  obtain ⟨s, hs, hret⟩ := exists_reachable h
  obtain ⟨r, t, hrun, ht⟩ := (Prog.sat_of_returns hret).exists_ok
  exact ⟨s, r, t, hs, hrun, of_decide_eq_true ht⟩

end Ptable

end Xv6
