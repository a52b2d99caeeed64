import Xv6.Xem.Semaphore

/-!
# The readers-writer lock

`proc.c`: `rwlock_init` and the functions that acquire and release a `rwlock_t`. The lock is two
semaphores and the number of readers. `lk` protects the number; the first reader takes `writelock` and
the last one gives it back, which need not be the same thread, and a writer takes `writelock` alone.

A thread may be interrupted between any two calls of `xem_wait` and `xem_unlock`, in `xem_wait` while it
sleeps, and before and after it counts itself. `Rw.step` is one such step. A semaphore counts as held by
the thread that has taken it; when the last reader gives `writelock` back, this is first put down to
that reader (`handOver`), which changes nothing but this record.

Here are the steps, what each of them can do, and the record of one thread that the invariant of
`Xv6.Xem.Exclusion` is about.
-/

namespace Xv6

open Vm Function XemSys

/-- `&rwlock->lk`, for a lock at address `r`. -/
def lkAt (r : ℕ) : ℕ := r

/-- `&rwlock->writelock`. -/
def writelockAt (r : ℕ) : ℕ := r + Xem.size

/-- What a thread does next to a lock, once it has returned from `xem_wait`. -/
inductive RwPc where
  /-- It is in none of the functions and does not have the lock. -/
  | idle
  /-- In `rwlock_acquire_readlock`: `rwlock->readers++`. -/
  | readInc
  /-- `if(rwlock->readers == 1)`. -/
  | readTest
  /-- `xem_wait(&rwlock->writelock)`. -/
  | readWait
  /-- `xem_unlock(&rwlock->lk)`. -/
  | readLeave
  /-- It has the lock as a reader. -/
  | reading
  /-- In `rwlock_release_readlock`: `rwlock->readers--`. -/
  | dropDec
  /-- `if(rwlock->readers == 0)`. -/
  | dropTest
  /-- `xem_unlock(&rwlock->writelock)`. -/
  | dropGive
  /-- `xem_unlock(&rwlock->lk)`. -/
  | dropLeave
  /-- It has the lock as a writer. -/
  | writing
  deriving DecidableEq

/-- What a thread that can run does. -/
inductive RwOp where
  /-- It calls `rwlock_acquire_readlock`. -/
  | read
  /-- It calls `rwlock_acquire_writelock`. -/
  | write
  /-- It goes on, or releases what it has. -/
  | go
  /-- It goes on in `xem_wait`, after `sleep`. -/
  | resume
  deriving DecidableEq

/-- The semaphores and one lock. -/
structure Rw where
  /-- The process table and the semaphores. -/
  sys : XemSys
  /-- `rwlock->readers`. -/
  readers : ℤ
  /-- Where the threads are. -/
  pc : Slot → RwPc

/-- The semaphore `a` counts as held by `t`, and no longer by the thread that has taken it. -/
def XemSys.handOver (s : XemSys) (t : Slot) (a : ℕ) : XemSys :=
  match Ptable.slots.find? fun u ↦ a ∈ s.held u with
  | some u =>
    (s.setHeld u ((s.held u).erase a)).setHeld t (a :: (s.setHeld u ((s.held u).erase a)).held t)
  | none => s.setHeld t (a :: s.held t)

namespace Rw

/-- The thread `t` has come to `pc`. -/
@[simps -fullyApplied]
def moved (σ : Rw) (s : XemSys) (t : Slot) (pc : RwPc) (readers : ℤ) : Rw :=
  ⟨s, readers, update σ.pc t pc⟩

/-- A step of `xem_wait` or `xem_unlock`, after which `t` goes on at `pc`. -/
def xem (σ : Rw) (s : XemSys) (t : Slot) (op : XemOp) (pc : RwPc) : Option (Except Fault Rw) :=
  (s.step (t, op)).map (Except.map fun s' ↦ σ.moved s' t pc σ.readers)

/-- A step of `t` on the number of readers. -/
def here (σ : Rw) (t : Slot) (readers : ℤ) (pc : RwPc) : Option (Except Fault Rw) :=
  if σ.sys.MayCall t then some (.ok (σ.moved σ.sys t pc readers)) else none

/-- One step of a thread of the address space `d` on the lock at address `r`. -/
def step (d r : ℕ) (σ : Rw) (l : Slot × RwOp) : Option (Except Fault Rw) :=
  if (σ.sys.table.proc l.1).pgdir = some d then
    match l.2, σ.pc l.1 with
    | .resume, pc => σ.xem σ.sys l.1 .resume pc
    -- `rwlock_acquire_readlock`
    | .read, .idle => σ.xem σ.sys l.1 (.wait (lkAt r)) .readInc
    | .go, .readInc => σ.here l.1 (σ.readers + 1) .readTest
    | .go, .readTest => σ.here l.1 σ.readers (if σ.readers = 1 then .readWait else .readLeave)
    | .go, .readWait => σ.xem σ.sys l.1 (.wait (writelockAt r)) .readLeave
    | .go, .readLeave => σ.xem σ.sys l.1 (.unlock (lkAt r)) .reading
    -- `rwlock_release_readlock`
    | .go, .reading => σ.xem σ.sys l.1 (.wait (lkAt r)) .dropDec
    | .go, .dropDec => σ.here l.1 (σ.readers - 1) .dropTest
    | .go, .dropTest => σ.here l.1 σ.readers (if σ.readers = 0 then .dropGive else .dropLeave)
    | .go, .dropGive =>
      σ.xem (σ.sys.handOver l.1 (writelockAt r)) l.1 (.unlock (writelockAt r)) .dropLeave
    | .go, .dropLeave => σ.xem σ.sys l.1 (.unlock (lkAt r)) .idle
    -- `rwlock_acquire_writelock` and `rwlock_release_writelock`
    | .write, .idle => σ.xem σ.sys l.1 (.wait (writelockAt r)) .writing
    | .go, .writing => σ.xem σ.sys l.1 (.unlock (writelockAt r)) .idle
    | _, _ => none
  else
    none

/-! ### What a step can do -/

/-- The calls of `xem_wait` and `xem_unlock`. -/
inductive XemArc (r : ℕ) : RwPc → XemOp → RwPc → Prop where
  | resume (pc : RwPc) : XemArc r pc .resume pc
  | read : XemArc r .idle (.wait (lkAt r)) .readInc
  | first : XemArc r .readWait (.wait (writelockAt r)) .readLeave
  | leave : XemArc r .readLeave (.unlock (lkAt r)) .reading
  | drop : XemArc r .reading (.wait (lkAt r)) .dropDec
  | give : XemArc r .dropGive (.unlock (writelockAt r)) .dropLeave
  | dropLeave : XemArc r .dropLeave (.unlock (lkAt r)) .idle
  | write : XemArc r .idle (.wait (writelockAt r)) .writing
  | done : XemArc r .writing (.unlock (writelockAt r)) .idle

/-- The steps on the number of readers. -/
inductive HereArc (n : ℤ) : RwPc → RwPc → ℤ → Prop where
  | inc : HereArc n .readInc .readTest (n + 1)
  | testFirst (h : n = 1) : HereArc n .readTest .readWait n
  | testOther (h : n ≠ 1) : HereArc n .readTest .readLeave n
  | dec : HereArc n .dropDec .dropTest (n - 1)
  | testLast (h : n = 0) : HereArc n .dropTest .dropGive n
  | testMore (h : n ≠ 0) : HereArc n .dropTest .dropLeave n

/-- What a step of `t` can do. -/
inductive Did (r : ℕ) (σ : Rw) (t : Slot) : Rw → Prop where
  | xem {op : XemOp} {pc' : RwPc} {s' : XemSys} (arc : XemArc r (σ.pc t) op pc')
      (step : σ.sys.step (t, op) = some (.ok s')) : Did r σ t (σ.moved s' t pc' σ.readers)
  | give {s' : XemSys} (pc : σ.pc t = .dropGive)
      (step : (σ.sys.handOver t (writelockAt r)).step (t, .unlock (writelockAt r)) = some (.ok s')) :
      Did r σ t (σ.moved s' t .dropLeave σ.readers)
  | here {pc' : RwPc} {n : ℤ} (arc : HereArc σ.readers (σ.pc t) pc' n) (may : σ.sys.MayCall t) :
      Did r σ t (σ.moved σ.sys t pc' n)

variable {d r : ℕ} {σ σ' : Rw} {t : Slot}

theorem xem_eq_some {s : XemSys} {op : XemOp} {pc : RwPc} (h : σ.xem s t op pc = some (.ok σ')) :
    ∃ s', s.step (t, op) = some (.ok s') ∧ σ' = σ.moved s' t pc σ.readers := by
  unfold xem at h
  obtain ⟨x, hx, hσ'⟩ := Option.map_eq_some_iff.1 h
  cases x with
  | error e => cases hσ'
  | ok s' => exact ⟨s', hx, (Except.ok.inj hσ').symm⟩

theorem here_eq_some {n : ℤ} {pc : RwPc} (h : σ.here t n pc = some (.ok σ')) :
    σ.sys.MayCall t ∧ σ' = σ.moved σ.sys t pc n := by
  unfold here at h
  split at h
  next hmay => exact ⟨hmay, (Except.ok.inj (Option.some.inj h)).symm⟩
  · cases h

theorem did_of_step {op : RwOp} (h : step d r σ (t, op) = some (.ok σ')) :
    (σ.sys.table.proc t).pgdir = some d ∧ Did r σ t σ' := by
  have hxem : ∀ {op pc'}, XemArc r (σ.pc t) op pc' → σ.xem σ.sys t op pc' = some (.ok σ') →
      Did r σ t σ' := by
    intro op pc' harc hx
    obtain ⟨s', hstep, rfl⟩ := xem_eq_some hx
    exact .xem harc hstep
  have hhere : ∀ {pc' n}, HereArc σ.readers (σ.pc t) pc' n → σ.here t n pc' = some (.ok σ') →
      Did r σ t σ' := by
    intro pc' n harc hx
    obtain ⟨hmay, rfl⟩ := here_eq_some hx
    exact .here harc hmay
  unfold step at h
  split at h
  next hd =>
    refine ⟨hd, ?_⟩
    split at h
    next pc heq => exact hxem (.resume _) h
    next heq => exact hxem (by rw [heq]; exact .read) h
    next heq => exact hhere (by rw [heq]; exact .inc) h
    next heq =>
      split at h
      next hone => exact hhere (by rw [heq]; exact .testFirst hone) h
      next hone => exact hhere (by rw [heq]; exact .testOther hone) h
    next heq => exact hxem (by rw [heq]; exact .first) h
    next heq => exact hxem (by rw [heq]; exact .leave) h
    next heq => exact hxem (by rw [heq]; exact .drop) h
    next heq => exact hhere (by rw [heq]; exact .dec) h
    next heq =>
      split at h
      next hzero => exact hhere (by rw [heq]; exact .testLast hzero) h
      next hzero => exact hhere (by rw [heq]; exact .testMore hzero) h
    next heq =>
      obtain ⟨s', hstep, rfl⟩ := xem_eq_some h
      exact .give heq hstep
    next heq => exact hxem (by rw [heq]; exact .dropLeave) h
    next heq => exact hxem (by rw [heq]; exact .write) h
    next heq => exact hxem (by rw [heq]; exact .done) h
    · cases h
  · cases h

end Rw

/-! ### The record of one thread -/

/-- What is recorded of one thread. -/
structure RwLocal where
  /-- Where it is. -/
  pc : RwPc
  /-- The semaphore in whose `xem_wait` it is. -/
  call : Option ℕ
  /-- The semaphores it has taken. -/
  held : List ℕ

namespace RwLocal

/-- It has `lk`. -/
def InLk (x : RwLocal) : Prop :=
  match x.pc with
  | .readTest | .readWait | .readLeave | .dropTest | .dropGive | .dropLeave => True
  | .readInc | .dropDec => x.call = none
  | .idle | .reading | .writing => False

/-- It relies on the readers having `writelock`. -/
def Settled (x : RwLocal) : Prop :=
  match x.pc with
  | .readLeave => x.call = none
  | .reading | .dropDec | .dropTest | .dropGive => True
  | .idle | .readInc | .readTest | .readWait | .dropLeave | .writing => False

/-- It has counted itself as a reader, and not yet removed itself. -/
def Between (x : RwLocal) : Prop :=
  match x.pc with
  | .readTest | .readWait | .readLeave | .reading | .dropDec => True
  | .idle | .readInc | .dropTest | .dropGive | .dropLeave | .writing => False

/-- It is the first reader, and takes `writelock`. -/
def First (x : RwLocal) : Prop := x.pc = .readWait ∨ (x.pc = .readLeave ∧ x.call ≠ none)

/-- It is recorded as the holder of `writelock`, and not as a writer: it has taken it as a reader. -/
def Owns (r : ℕ) (x : RwLocal) : Prop :=
  writelockAt r ∈ x.held ∧ ¬(x.pc = .writing ∧ x.call = none)

instance (x : RwLocal) : Decidable x.Between :=
  match x with
  | ⟨.readTest, _, _⟩ | ⟨.readWait, _, _⟩ | ⟨.readLeave, _, _⟩ | ⟨.reading, _, _⟩
  | ⟨.dropDec, _, _⟩ => isTrue trivial
  | ⟨.idle, _, _⟩ | ⟨.readInc, _, _⟩ | ⟨.dropTest, _, _⟩ | ⟨.dropGive, _, _⟩
  | ⟨.dropLeave, _, _⟩ | ⟨.writing, _, _⟩ => isFalse id

/-- The record belongs to the place where the thread is. -/
structure Ok (r : ℕ) (x : RwLocal) : Prop where
  /-- It has `lk` where it should. -/
  lk : lkAt r ∈ x.held ↔ x.InLk
  /-- Where it can be in `xem_wait`. -/
  call : x.call = none ∨ (x.call = some (lkAt r) ∧ (x.pc = .readInc ∨ x.pc = .dropDec)) ∨
    (x.call = some (writelockAt r) ∧ (x.pc = .readLeave ∨ x.pc = .writing))
  /-- A writer has `writelock`. -/
  writer : x.pc = .writing → x.call = none → writelockAt r ∈ x.held

variable {r : ℕ} {x : RwLocal}

theorem First.inLk (h : x.First) : x.InLk := by
  obtain ⟨pc, call, held⟩ := x
  rcases h with h | ⟨h, -⟩
  · obtain rfl : pc = .readWait := h
    trivial
  · obtain rfl : pc = .readLeave := h
    trivial

/-- A reader that does not have `lk` and is still counted relies on `writelock`. -/
theorem Between.settled (h : x.Between) (hlk : ¬x.InLk) : x.Settled := by
  obtain ⟨pc, call, held⟩ := x
  cases pc with
  | readTest | readWait | readLeave => exact absurd trivial hlk
  | reading | dropDec => trivial
  | idle | readInc | dropTest | dropGive | dropLeave | writing => exact h.elim

/-- A thread that relies on `writelock` and does not have `lk` is still counted. -/
theorem Settled.between (h : x.Settled) (hlk : ¬x.InLk) : x.Between := by
  obtain ⟨pc, call, held⟩ := x
  cases pc with
  | readLeave | reading | dropDec => trivial
  | dropTest | dropGive => exact absurd trivial hlk
  | idle | readInc | readTest | readWait | dropLeave | writing => exact h.elim

end RwLocal

namespace XemSys

/-- What a step of `xem_wait` or `xem_unlock` does to the record of the thread that takes it. -/
inductive LocalStep : Option ℕ → List ℕ → XemOp → Option ℕ → List ℕ → Prop where
  | take {a : ℕ} {held : List ℕ} : LocalStep none held (.wait a) none (a :: held)
  | sleep {a : ℕ} {held : List ℕ} : LocalStep none held (.wait a) (some a) held
  | resume {a : ℕ} {held : List ℕ} : LocalStep (some a) held .resume none (a :: held)
  | unlock {a : ℕ} {held : List ℕ} (h : a ∈ held) :
      LocalStep none held (.unlock a) none (held.erase a)

variable {s s' : XemSys} {t : Slot} {d : ℕ} {op : XemOp}

theorem step_local (hop : IsXem op) (hstep : s.step (t, op) = some (.ok s')) :
    ∃ call held, LocalStep (s.call t) (s.held t) op call held ∧
      s'.call = update s.call t call ∧ s'.held = update s.held t held := by
  have hself : ∀ {c}, s.call t = c → s.call = update s.call t c := by
    rintro _ rfl
    exact (update_eq_self t s.call).symm
  cases did_of_step hstep with
  | take _ hmay hpos =>
    rw [wait_of_pos hpos, hmay.2.1]
    exact ⟨_, _, .take, hself hmay.2.1, rfl⟩
  | sleep _ hmay hle =>
    rw [wait_of_le hle, hmay.2.1]
    exact ⟨_, _, .sleep, rfl, (update_eq_self t s.held).symm⟩
  | resume _ hcall _ =>
    rw [hcall]
    exact ⟨_, _, .resume, rfl, rfl⟩
  | give _ hmay ha hge =>
    rw [unlock_of_nonneg hge, hmay.2.1]
    exact ⟨_, _, .unlock ha, hself hmay.2.1, rfl⟩
  | pass _ hmay ha hneg =>
    rw [unlock_of_neg hneg, hmay.2.1]
    exact ⟨_, _, .unlock ha, hself hmay.2.1, rfl⟩
  | kill | exit => exact hop.elim

/-- A thread can run, or it sleeps in `xem_wait`. -/
def RunsOrSleeps (s : XemSys) (t : Slot) : Prop :=
  s.CanRun t ∨ ((s.table.proc t).state = .SLEEPING ∧ s.call t ≠ none)

/-- Whoever takes a step could run. -/
theorem canRun_of_step (hop : IsXem op) (hstep : s.step (t, op) = some (.ok s')) : s.CanRun t := by
  cases did_of_step hstep with
  | take _ hmay _ | sleep _ hmay _ => exact hmay.1
  | resume _ _ hrun => exact hrun
  | give _ hmay _ _ | pass _ hmay _ _ => exact hmay.1
  | kill | exit => exact hop.elim

variable {u : Slot}

theorem RunsOrSleeps.congr (h : s.RunsOrSleeps u) (hproc : (s'.table.proc u).state = (s.table.proc u).state)
    (hcall : s'.call u = s.call u) : s'.RunsOrSleeps u := by
  unfold RunsOrSleeps CanRun
  rw [hproc, hcall]
  exact h

theorem RunsOrSleeps.step (h : s.RunsOrSleeps u) (hop : IsXem op) (hstep : s.step (t, op) = some (.ok s')) :
    s'.RunsOrSleeps u := by
  cases did_of_step hstep with
  | take _ _ hpos =>
    rw [wait_of_pos hpos]
    exact h
  | @sleep t d a _ hmay hle =>
    rw [wait_of_le hle]
    rcases eq_or_ne u t with rfl | hu
    · refine .inr ⟨?_, ?_⟩
      · rw [setCall_table, setTable_table, Ptable.setProc_proc, update_self]
        rfl
      · rw [setCall_call, update_self]
        exact nofun
    · refine h.congr ?_ ?_
      · rw [setCall_table, setTable_table, Ptable.setProc_proc, update_of_ne hu]
      · rw [setCall_call, update_of_ne hu]
        rfl
  | @resume t d a _ hcall hrun =>
    unfold resume
    rcases eq_or_ne u t with rfl | hu
    · left
      rw [CanRun, setHeld_table, setCall_table, setTable_table, Ptable.setProc_proc, update_self]
      exact hrun
    · refine h.congr ?_ ?_
      · rw [setHeld_table, setCall_table, setTable_table, Ptable.setProc_proc,
          update_of_ne hu]
      · rw [setHeld_call, setCall_call, update_of_ne hu]
        rfl
  | give _ _ _ hge =>
    rw [unlock_of_nonneg hge]
    exact h
  | @pass t d a _ _ _ hneg =>
    have hp : Passes s (s.unlock t d a) t d a _ := passes_unlock hneg
    rcases hp.proc u with ⟨-, heq⟩ | ⟨-, heq⟩
    · left
      rw [CanRun, heq]
      exact .inl rfl
    · exact h.congr (by rw [heq]) (congrFun hp.call u)
  | kill | exit => exact hop.elim

variable {U : ℕ → ℕ → Prop} {v : ℕ → ℕ → ℤ} {G : ℕ → ℕ → Tickets} {a : ℕ}

/-- What a thread that has not been killed has taken is not recorded for more threads than the value
allows; with value 1 it is one thread. -/
theorem Fits.eq_of_holds {q : Tickets} (h : s.Fits 1 d a q) (ht : 0 < s.holds d a t) (hu : 0 < s.holds d a u) :
    t = u := by
  by_contra hne
  have hle := h.holders_le
  have hpair : s.holds d a t + s.holds d a u ≤ s.holders d a := by
    rw [← Finset.sum_pair hne]
    exact Finset.sum_le_sum_of_subset (Finset.subset_univ _)
  omega

theorem Fits.holds_le_one {q : Tickets} (h : s.Fits 1 d a q) (t : Slot) : s.holds d a t ≤ 1 := by
  have hle := h.holders_le
  have : s.holds d a t ≤ s.holders d a :=
    Finset.single_le_sum (fun _ _ ↦ Nat.zero_le _) (Finset.mem_univ t)
  omega

/-- The sum of what has been taken, when one more, or one less, of the semaphore `a` is recorded for the
thread `t`. -/
theorem sum_units_setHeld {k : ℤ} {held : List ℕ} (hd : (s.table.proc t).pgdir = some d)
    (hself : (held.count a : ℤ) = (s.held t).count a + k)
    (hother : ∀ a', a' ≠ a → held.count a' = (s.held t).count a') (d' a' : ℕ) :
    ∑ w, ((s.setHeld t held).units d' a' w : ℤ) =
      (∑ w, (s.units d' a' w : ℤ)) + if (d', a') = (d, a) then k else 0 := by
  refine sum_units (t := t) (fun w hw ↦ ?_) ?_
  · rw [units, units, setHeld_held, update_of_ne hw]
    rfl
  · rw [units, units, setHeld_held, update_self, setHeld_table, setHeld_call]
    by_cases hd' : (s.table.proc t).pgdir = some d'
    · obtain rfl := Option.mem_unique hd hd'
      rw [if_pos hd', if_pos hd']
      by_cases ha' : a' = a
      · subst ha'
        rw [if_pos rfl]
        push_cast
        omega
      · rw [if_neg fun h ↦ ha' (Prod.mk.inj h).2, hother a' ha', Int.add_zero]
    · have hne : (d', a') ≠ (d, a) := by
        rintro h
        exact hd' ((Prod.mk.inj h).1 ▸ hd)
      rw [if_neg hd', if_neg hd', if_neg hne]
      rfl

/-- Only the records change. -/
theorem handOver_eq (s : XemSys) (t : Slot) (a : ℕ) : ∃ held, s.handOver t a = { s with held := held } := by
  unfold handOver
  split <;> exact ⟨_, rfl⟩

/-- Somebody who has taken the semaphore is found. -/
theorem exists_handOver (hu : a ∈ s.held u) : ∃ w, a ∈ s.held w ∧ s.handOver t a =
    (s.setHeld w ((s.held w).erase a)).setHeld t (a :: (s.setHeld w ((s.held w).erase a)).held t) := by
  unfold handOver
  split
  next w hfind => exact ⟨w, of_decide_eq_true (List.find?_some hfind :), rfl⟩
  next hfind => exact absurd (decide_eq_true hu) (List.find?_eq_none.1 hfind u (Ptable.mem_slots u))

/-- A record that is moved from one thread to another one of the same address space. -/
theorem Inv.handOver (h : Inv U v G s) (hlive : ∀ t, (s.table.proc t).killed = false)
    (hpgdir : ∀ u, a ∈ s.held u → (s.table.proc u).pgdir = some d) (hd : (s.table.proc t).pgdir = some d)
    (hu : a ∈ s.held u) : Inv U v G (s.handOver t a) := by
  obtain ⟨w, hw, heq⟩ := exists_handOver (t := t) hu
  rw [heq]
  obtain ⟨s₁, hs₁⟩ : ∃ s₁, s₁ = s.setHeld w ((s.held w).erase a) := ⟨_, rfl⟩
  rw [← hs₁]
  have hremove : ∀ d' a', ∑ x, (s₁.units d' a' x : ℤ) =
      (∑ x, (s.units d' a' x : ℤ)) + if (d', a') = (d, a) then -1 else 0 := by
    rw [hs₁]
    refine sum_units_setHeld (hpgdir w hw) ?_ fun a' ha' ↦ List.count_erase_of_ne ha'
    have hpos := List.count_pos_iff.2 hw
    rw [List.count_erase_self]
    omega
  have hadd : ∀ d' a', ∑ x, ((s₁.setHeld t (a :: s₁.held t)).units d' a' x : ℤ) =
      (∑ x, (s₁.units d' a' x : ℤ)) + if (d', a') = (d, a) then 1 else 0 := by
    have hd₁ : (s₁.table.proc t).pgdir = some d := by
      rw [hs₁]
      exact hd
    refine sum_units_setHeld hd₁ ?_ fun a' ha' ↦ List.count_cons_of_ne ha'.symm
    rw [List.count_cons_self]
    push_cast
    rfl
  refine ⟨fun d' a' hU ↦ ?_, ?_⟩
  · have hf := h.fits d' a' hU
    have hsum : ∑ x, ((s₁.setHeld t (a :: s₁.held t)).units d' a' x : ℤ) =
        ∑ x, (s.units d' a' x : ℤ) := by
      rw [hadd, hremove]
      split
      · omega
      · omega
    subst hs₁
    refine ⟨hf.count, hf.dcount, hf.length, ?_, hf.nodup, hf.pgdir, ?_, hf.call, hf.asleepOn,
      hf.asleep⟩
    · rw [hsum]
      exact hf.value
    · intro x hx
      rw [XemSys.units, setHeld_table, setHeld_table, if_pos (hf.pgdir x hx), setHeld_call,
        setHeld_call, if_pos (hf.call x hx (hlive x))]
      omega
  · subst hs₁
    exact h.alone

end XemSys

end Xv6
