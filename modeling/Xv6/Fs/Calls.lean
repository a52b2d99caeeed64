import Xv6.Lib.Threads
import Xv6.Fs.File

/-!
# Calls of several processes

Calls on open files, with other calls in between. What a call does without being interrupted is the
part between `ilock` and `iunlock`: the inode is locked, and nobody else can lock it. Before and
after that part, `begin_op` and `end_op` are steps of their own, and so are the checks at the start
of a call. `Phase` is where a call is, and `Phase.next` what it does next.

A thread of the machine is one call, so a process that makes several calls is several threads: the
schedules of such processes are some of the schedules of the machine. A call that nobody interrupts
does what the functions of `file.c` do (`alone_write`).
-/

namespace Xv6

/-- Where a call is. -/
inductive Phase where
  /-- It has not begun. -/
  | start (c : FileCall)
  /-- A write is at the head of the loop, with `i` bytes written. -/
  | top (f : ℕ) (addr : ℕ → Byte) (n i : ℤ) (pos : Option Word)
  /-- It has begun an operation. -/
  | inOp (f : ℕ) (addr : ℕ → Byte) (n i : ℤ) (pos : Option Word)
  /-- It has unlocked the inode, with the result `r` of `writei`. -/
  | wrote (f : ℕ) (addr : ℕ → Byte) (n i : ℤ) (pos : Option Word) (r : ℤ)
  /-- It has returned. -/
  | done (r : ℤ)

/-- What a call does next. -/
def Phase.next (env : Env) : Phase → Option (FS Phase)
  | .start (.read f n pos) => some do
    let (r, _) ← Fs.readFile env f n pos
    return .done r
  | .start (.write f addr n pos) => some do
    let file ← Fs.file f
    if file.writable = false then
      return .done (-1)
    else
      match file.type with
      | .pipe => return .done (env.pipewrite file.pipe ((List.range n.toNat).map addr))
      | .inode => return .top f addr n 0 pos
      | .none => Fs.panic .filewrite
  | .top f addr n i pos => some do
    if i < n then
      Fs.beginOp
      return .inOp f addr n i pos
    else
      return .done (if i = n then n else -1)
  | .inOp f addr n i pos => some do
    let n1 := min (n - i) Fs.maxChunk
    let r ← Fs.lockedWrite env f (fun j ↦ addr (i.toNat + j)) n1 pos
    return .wrote f addr n i pos r
  | .wrote f addr n i pos r => some do
    Fs.endOp
    let n1 := min (n - i) Fs.maxChunk
    if r < 0 then
      return .done (if i = n then n else -1)
    else if r ≠ n1 then
      Fs.panic .shortFilewrite
    else
      return .top f addr n (i + n1) (pos.map (· + BitVec.ofInt 32 r))
  | .done _ => none

namespace Phase

/-- A call that does nothing next has returned. -/
theorem exists_done {env : Env} {q : Phase} (h : q.next env = none) : ∃ r, q = .done r := by
  cases q with
  | start c => cases c <;> cases h
  | done r => exact ⟨r, rfl⟩
  | top | inOp | wrote => cases h

/-- A call that nobody interrupts, for at most `k` steps. -/
def alone (env : Env) : ℕ → Phase → FS Phase
  | 0, q => return q
  | k + 1, q => (q.next env).elim (return q) fun m ↦ m >>= alone env k

variable {env : Env} {f : ℕ} {addr : ℕ → Byte} {n i : ℤ} {pos : Option Word} {k : ℕ}

theorem alone_done {r : ℤ} : alone env k (.done r) = pure (.done r) := by
  cases k <;> rfl

/-- Each turn of the loop takes three steps. -/
theorem alone_top (hk : 3 * (n - i).toNat < k) :
    alone env k (.top f addr n i pos) = Fs.writeChunks env f addr n i pos >>= fun r ↦ return .done r := by
  fun_induction Fs.writeChunks env f addr n i pos generalizing k
  case case1 hi n1 ih =>
    have hmax : Fs.maxChunk = 1536 := rfl
    obtain ⟨k, rfl⟩ : ∃ l, k = l + 3 := ⟨k - 3, by omega⟩
    simp only [alone, next, Option.elim, if_pos hi, Fs.writeChunk, Prog.bind_assoc, Prog.pure_bind]
    congr! 6
    split
    · exact alone_done
    · split
      · rfl
      next hr hn1 => exact ih _ hr hn1 (by omega)
  case case2 hi =>
    obtain ⟨k, rfl⟩ : ∃ l, k = l + 1 := ⟨k - 1, by omega⟩
    rw [alone, next, Option.elim, if_neg hi]
    exact alone_done

/-- **A write that nobody interrupts** is `filewrite` or `pwrite`, with the same results, changes, panics and waits. -/
theorem alone_write (env : Env) (f : ℕ) (addr : ℕ → Byte) (n : ℤ) (pos : Option Word) (k : ℕ) :
    alone env (k + 3 * n.toNat + 2) (.start (.write f addr n pos)) =
      Fs.writeFile env f addr n pos >>= fun r ↦ return .done r := by
  rw [alone, next, Option.elim, Fs.writeFile, Prog.bind_assoc, Prog.bind_assoc]
  congr! 2 with file
  split
  · rfl
  · cases file.type with
    | pipe => rfl
    | inode => exact alone_top (by omega)
    | none => rfl

end Phase

/-- Calls and the file system they share. -/
abbrev Calls (ι : Type) : Type := Threads ι FsState Phase

/-- One of the calls takes a step, unless it has to wait for another. -/
def Calls.step {ι : Type} [DecidableEq ι] (env : Env) :
    Calls ι → ι → Option (Except Stop (Calls ι)) :=
  Threads.step (Phase.next env) (· = .sleep)

/-- A call that has returned takes no step. -/
theorem Calls.not_done_of_step {ι : Type} [DecidableEq ι] {env : Env} {c : Calls ι} {p : ι}
    {x : Except Stop (Calls ι)} (hstep : Calls.step env c p = some x) (r : ℤ) : c.pc p ≠ .done r := by
  intro hdone
  rw [Calls.step, Threads.step, hdone] at hstep
  cases hstep

/-- The calls `c` are made in the state `s`. -/
def Calls.init {ι : Type} (s : FsState) (c : ι → FileCall) : Calls ι :=
  ⟨s, fun p ↦ .start (c p), []⟩

/-! ### What the steps of a write do -/

section Steps

variable {env : Env} {s : FsState} {f : ℕ} {addr : ℕ → Byte} {n i : ℤ} {pos : Option Word}

theorem nextSat_start (hwritable : (s.ftable f).writable = true) (hf : s.OnInode f) :
    Threads.NextSat (Phase.next env) (.start (.write f addr n pos)) s
      (fun q t ↦ q = .top f addr n 0 pos ∧ t = s) fun _ ↦ False := by
  refine ⟨_, rfl, ?_⟩
  show Prog.Sat (if (s.ftable f).writable = false then _ else _) s _ _
  rw [hwritable, if_neg (Bool.false_ne_true ∘ Eq.symm), show (s.ftable f).type = .inode from hf]
  exact ⟨rfl, rfl⟩

theorem nextSat_top (hi : i < n) : Threads.NextSat (Phase.next env) (.top f addr n i pos) s
      (fun q t ↦ q = .inOp f addr n i pos ∧
        t = { s with log := { s.log with outstanding := s.log.outstanding + 1 } })
      fun e ↦ e = .sleep := by
  refine ⟨_, rfl, ?_⟩
  rw [if_pos hi]
  refine Fs.beginOp_sat.bind ?_
  rintro - t ⟨-, -, rfl⟩
  exact ⟨rfl, rfl⟩

/-- With room in the log a write does not wait. -/
theorem nextSat_top_of_room (hi : i < n) (hcommitting : s.log.committing = false)
    (hroom : (s.log.lh.length : ℤ) + (s.log.outstanding + 1) * MAXOPBLOCKS ≤ LOGSIZE) :
    Threads.NextSat (Phase.next env) (.top f addr n i pos) s (fun q t ↦ q = .inOp f addr n i pos ∧
        t = { s with log := { s.log with outstanding := s.log.outstanding + 1 } }) fun _ ↦ False := by
  refine ⟨_, rfl, ?_⟩
  rw [if_pos hi]
  exact (Fs.beginOp_sat_of_room hcommitting hroom).bind fun _ _ ht ↦ ⟨rfl, ht⟩

theorem nextSat_top_end :
    Threads.NextSat (Phase.next env) (.top f addr n n pos) s (fun q t ↦ q = .done n ∧ t = s)
      fun _ ↦ False := by
  refine ⟨_, rfl, ?_⟩
  rw [if_neg (lt_irrefl n), if_pos rfl]
  exact ⟨rfl, rfl⟩

theorem nextSat_inOp {m : ℤ} (hm : min (n - i) Fs.maxChunk = m) {Q : ℤ → FsState → Prop} {E : Stop → Prop}
    (h : (Fs.lockedWrite env f (fun j ↦ addr (i.toNat + j)) m pos).Sat s Q E) :
    Threads.NextSat (Phase.next env) (.inOp f addr n i pos) s
      (fun q t ↦ ∃ r, q = .wrote f addr n i pos r ∧ Q r t) E := by
  subst hm
  exact ⟨_, rfl, h.bind fun r _ ht ↦ ⟨r, rfl, ht⟩⟩

theorem nextSat_wrote {r : ℤ} (hr : r = min (n - i) Fs.maxChunk) (h0 : 0 ≤ r)
    (hcommitting : s.log.committing = false) :
    Threads.NextSat (Phase.next env) (.wrote f addr n i pos r) s
      (fun q t ↦ q = .top f addr n (i + r) (pos.map (· + BitVec.ofInt 32 r)) ∧
        t = { s with log := { s.log with
          outstanding := s.log.outstanding - 1
          lh := if s.log.outstanding = 1 then [] else s.log.lh } })
      fun _ ↦ False := by
  refine ⟨_, rfl, (Fs.endOp_sat.imp_error fun e he ↦ ?_).bind ?_⟩
  · rw [hcommitting] at he
    cases he.1
  · rintro - t rfl
    rw [if_neg (by omega), if_neg (not_not.2 hr), ← hr]
    exact ⟨rfl, rfl⟩

end Steps

end Xv6
