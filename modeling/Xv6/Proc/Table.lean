import Xv6.Proc.Basic
import Xv6.Vm.Spec

/-!
# Rules for code on the process table

The rules of `Prog.Sat` for the atoms that the functions of `Xv6.Proc.Basic` are made of, and for the
scan that `wait` and `thread_join` share: it reaps the first slot that is the caller's and has
exited, and if there is none it returns without a change.
-/

namespace Xv6

open Prog Vm

namespace Ptable

/-- Only slots have changed. -/
structure OnlyProcs (s t : Ptable) : Prop where
  mem : t.mem = s.mem
  nextpid : t.nextpid = s.nextpid
  nexttid : t.nexttid = s.nexttid
  initproc : t.initproc = s.initproc

theorem OnlyProcs.refl (s : Ptable) : OnlyProcs s s := ⟨rfl, rfl, rfl, rfl⟩

theorem OnlyProcs.trans {s t u : Ptable} (h : OnlyProcs s t) (h' : OnlyProcs t u) : OnlyProcs s u :=
  ⟨h'.mem.trans h.mem, h'.nextpid.trans h.nextpid, h'.nexttid.trans h.nexttid,
    h'.initproc.trans h.initproc⟩

/-- No slot has been allocated and no thread has been made. -/
structure SameIds (s t : Ptable) : Prop where
  nextpid : t.nextpid = s.nextpid
  nexttid : t.nexttid = s.nexttid
  initproc : t.initproc = s.initproc

theorem SameIds.refl (s : Ptable) : SameIds s s := ⟨rfl, rfl, rfl⟩

theorem SameIds.trans {s t u : Ptable} (h : SameIds s t) (h' : SameIds t u) : SameIds s u :=
  ⟨h'.nextpid.trans h.nextpid, h'.nexttid.trans h.nexttid, h'.initproc.trans h.initproc⟩

theorem mem_slots (k : Slot) : k ∈ slots := List.mem_finRange k

section Rules

variable {s : Ptable} {α : Type} {Q : α → Ptable → Prop} {E : Fault → Prop}

variable {f : Proc → Proc}

theorem sat_update {k : Slot} {Q : Unit → Ptable → Prop} :
    (update k f).Sat s Q E ↔ Q () (s.setProc k (f (s.proc k))) := Iff.rfl

theorem sat_update_bind {k : Slot} {g : Unit → Kern α} :
    (update k f >>= g).Sat s Q E ↔ (g ()).Sat (s.setProc k (f (s.proc k))) Q E := Iff.rfl

theorem sat_updateAll_bind {c : Slot → Proc → Bool} {g : Unit → Kern α} :
    (updateAll c f >>= g).Sat s Q E ↔ (g ()).Sat (s.mapProcs c f) Q E := Iff.rfl

theorem sat_vm {m : VM α} : (vm m).Sat s Q E ↔ m.Sat s.mem (fun a t ↦ Q a (s.setMem t)) E :=
  sat_zoom

/-- The page directory of a slot is found, or it is not there. -/
theorem sat_pgdirOf {p : Slot} {Q : ℕ → Ptable → Prop} (hE : (s.proc p).pgdir = none → E .dangling)
    (h : ∀ d, (s.proc p).pgdir = some d → Q d s) : (pgdirOf p).Sat s Q E := by
  rw [pgdirOf, sat_get_bind]
  cases hd : (s.proc p).pgdir with
  | none => exact hE hd
  | some d => exact h d hd

theorem sat_freeStack {p : Slot} {Q : Unit → Ptable → Prop} (hE : E (.panic .kfree))
    (h : ∀ m : Mem, m.ndirs = s.mem.ndirs → m.dir = s.mem.dir →
      Q () ((s.setMem m).setProc p ((s.proc p).setKstack none))) : (freeStack p).Sat s Q E := by
  rw [freeStack, sat_get_bind]
  cases (s.proc p).kstack with
  | none => exact hE
  | some v => exact sat_bind.2 (sat_vm.2 ((kfree_sat hE).imp fun _ m hm ↦ h m hm.1 hm.2))

/-- The scan reaps the first slot that is the caller's and has exited. If there is none, it returns
or goes to sleep without a change. -/
theorem sat_scanLoop {c : Slot} {mine : Proc → Bool} {reap : Slot → Kern α} {ps : List Slot}
    {havekids : Bool} {Q : Scan α → Ptable → Prop} :
    (scanLoop c mine reap ps havekids).Sat s Q E ↔
      match ps.find? fun p ↦ mine (s.proc p) && (s.proc p).state = .ZOMBIE with
      | some p => (reap p).Sat s (fun a t ↦ Q (.found a) t) E
      | none =>
        if !(havekids || ps.any fun p ↦ mine (s.proc p)) || (s.proc c).killed then Q .none s
        else Q .sleep s := by
  induction ps generalizing havekids with
  | nil =>
    rw [scanLoop, sat_get_bind, List.find?_nil, List.any_nil, Bool.or_false]
    split
    · rfl
    · rfl
  | cons p ps ih =>
    rw [scanLoop, sat_get_bind, List.find?_cons, List.any_cons]
    dsimp only
    cases hmine : mine (s.proc p) with
    | false =>
      rw [if_neg Bool.false_ne_true, ih, Bool.false_and, Bool.false_or]
    | true =>
      rw [if_pos rfl, Bool.true_and, Bool.true_or, Bool.or_true]
      by_cases hz : (s.proc p).state = .ZOMBIE
      · rw [if_pos hz, decide_eq_true hz, sat_bind]
        rfl
      · rw [if_neg hz, decide_eq_false hz, ih, Bool.true_or]

/-- `kill` finds the first slot with the given pid, or changes nothing. -/
theorem sat_kill {pid : ℤ} {Q : ℤ → Ptable → Prop}
    (hnone : (slots.find? fun p ↦ (s.proc p).pid = pid) = none → Q (-1) s)
    (hsome : ∀ p, (slots.find? fun p ↦ (s.proc p).pid = pid) = some p →
      Q 0 (s.setProc p ((s.proc p).setKilled.setState
        (if (s.proc p).state = .SLEEPING then .RUNNABLE else (s.proc p).state)))) :
    (kill pid).Sat s Q E := by
  rw [kill, sat_get_bind]
  cases hp : slots.find? fun p ↦ (s.proc p).pid = pid with
  | none => exact hnone hp
  | some p => exact hsome p hp

end Rules

end Ptable

end Xv6
