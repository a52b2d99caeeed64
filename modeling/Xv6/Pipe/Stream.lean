import Mathlib.Data.Fintype.Basic
import Xv6.Pipe.Basic

/-!
# Pipes as byte streams

What a process does while it holds the lock of a pipe is said once (`Effect`), and two properties of all
runs follow from it.

A pipe is a first-in first-out stream of bytes (`pipe_stream`): at every moment the bytes that have been
returned, followed by those in the buffer, are the bytes that have been stored. The counters may have
wrapped around any number of times.

Wake-ups can get lost. `pipewrite` wakes up the readers when it has stored everything and before it
sleeps, but not where it returns -1 because the writer has been killed or nobody can read any more. When it
has filled the empty pipe before that, the readers sleep on in front of a full pipe
(`reader_left_asleep`). Otherwise nobody sleeps without a reason (`nobody_sleeps_needlessly`).
-/

namespace Xv6

open Function Machine

namespace PipeSys

variable {ι : Type}

/-- Between `s` and `t` the bytes `bs` have been stored and the bytes `cs` have been taken out. -/
structure Moved (s t : PipeSys ι) (bs cs : List Byte) : Prop where
  contents : s.fifo.contents ++ bs = cs ++ t.fifo.contents
  count : t.fifo.count ≤ PIPESIZE
  stored : t.stored = s.stored ++ bs
  delivered : t.delivered = s.delivered ++ cs
  readopen : t.readopen = s.readopen
  writeopen : t.writeopen = s.writeopen
  killed : t.killed = s.killed

namespace Moved

variable {s t u : PipeSys ι} {bs bs' cs cs' : List Byte}

theorem refl (h : s.fifo.count ≤ PIPESIZE) : Moved s s [] [] :=
  ⟨List.append_nil _, h, (List.append_nil _).symm, (List.append_nil _).symm, rfl, rfl, rfl⟩

/-- What two parts of a call move, one after the other. -/
theorem trans (h : Moved s t bs cs) (h' : Moved t u bs' cs') : Moved s u (bs ++ bs') (cs ++ cs') := by
  refine ⟨?_, h'.count, ?_, ?_, h'.readopen.trans h.readopen, h'.writeopen.trans h.writeopen,
    h'.killed.trans h.killed⟩
  · rw [← List.append_assoc, h.contents, List.append_assoc, h'.contents, List.append_assoc]
  · rw [h'.stored, h.stored, List.append_assoc]
  · rw [h'.delivered, h.delivered, List.append_assoc]

theorem setChan (h : Moved s t bs cs) (chan : ι → Option PipeChan) : Moved s (t.setChan chan) bs cs :=
  { h with }

end Moved

/-! ### The buffer -/

/-- The test of `pipewrite`, although the counters wrap around. -/
theorem isFull_iff {s : PipeSys ι} : s.IsFull ↔ s.fifo.count = PIPESIZE :=
  s.fifo.nwrite_eq_add_iff (by decide)

/-- The test of `piperead`. -/
theorem isEmpty_iff {s : PipeSys ι} : s.IsEmpty ↔ s.fifo.count = 0 := s.fifo.nread_eq_nwrite_iff

/-- A byte is put in. -/
theorem moved_store {s : PipeSys ι} {b : Byte} (hle : s.fifo.count ≤ PIPESIZE) (h : ¬s.IsFull) :
    Moved s (s.store b) [b] [] := by
  have hlt : s.fifo.count < PIPESIZE := lt_of_le_of_ne hle (mt isFull_iff.2 h)
  refine ⟨?_, ?_, rfl, (List.append_nil _).symm, rfl, rfl, rfl⟩
  · exact (s.fifo.contents_push b (by decide) (by decide) hlt).symm
  · rw [store_fifo, s.fifo.count_push b (by decide) hlt]
    exact hlt

/-- The oldest byte is taken out. -/
theorem moved_deliver {s : PipeSys ι} (hle : s.fifo.count ≤ PIPESIZE) (h : ¬s.IsEmpty) :
    Moved s s.deliver [] [s.fifo.front] := by
  have hne : s.fifo.count ≠ 0 := mt isEmpty_iff.2 h
  refine ⟨?_, ?_, (List.append_nil _).symm, rfl, rfl, rfl, rfl⟩
  · rw [List.append_nil]
    exact s.fifo.contents_eq_front_cons hne
  · have hcount := s.fifo.count_pop hne
    rw [deliver_fifo]
    omega

/-! ### `pipewrite` and `piperead` -/

section Calls

variable [DecidableEq ι] {s t : PipeSys ι} {j : ι}

/-- How a step of `pipewrite` by `j` ends that had `rest` bytes to write and has written `bs`. -/
inductive WriteEnd (s t : PipeSys ι) (j : ι) (n : ℤ) (rest : ℕ) (bs : List Byte) : PipePc → Prop where
  /-- It has written them all. -/
  | done (chan : t.chan = s.awake .nread) : WriteEnd s t j n rest bs (.user n)
  /-- The pipe is full, and `j` has been killed or nobody can read any more. -/
  | failed (hlt : bs.length < rest) (full : t.IsFull) (why : s.readopen = false ∨ s.killed j = true)
      (chan : t.chan = s.chan) : WriteEnd s t j n rest bs (.user (-1))
  /-- The pipe is full, and `j` sleeps. -/
  | slept {addr : ℕ → Byte} {i : ℕ} (full : t.IsFull) (readopen : t.readopen = true)
      (chan : t.chan = update (s.awake .nread) j (some .nwrite)) :
      WriteEnd s t j n rest bs (.write addr n i)

variable {n : ℤ}

/-- The loop of `pipewrite`, up to its end or to `sleep`. -/
theorem writeLoop_sat {addr : ℕ → Byte} {rest i : ℕ} (hle : s.fifo.count ≤ PIPESIZE) :
    (writeLoop j addr n rest i).Sat s
      (fun p t ↦ ∃ bs, Moved s t bs [] ∧ WriteEnd s t j n rest bs p) fun _ ↦ False := by
  induction rest generalizing s i with
  | zero => exact ⟨[], (Moved.refl hle).setChan _, .done rfl⟩
  | succ rest ih =>
    rw [writeLoop, Prog.sat_get_bind]
    split
    next hfull =>
      split
      next hwhy => exact ⟨[], .refl hle, .failed (Nat.succ_pos _) hfull hwhy rfl⟩
      next hwhy =>
        have hopen : s.readopen = true := Bool.not_eq_false _ ▸ fun h ↦ hwhy (.inl h)
        exact ⟨[], ((Moved.refl hle).setChan _).setChan _, .slept hfull hopen rfl⟩
    next hfull =>
      have hmoved := moved_store (b := addr i) hle hfull
      refine (ih hmoved.count).imp ?_
      intro p t ⟨bs, hbs, hend⟩
      refine ⟨addr i :: bs, hmoved.trans hbs, ?_⟩
      cases hend with
      | done chan => exact .done chan
      | failed hlt full why chan => exact .failed (Nat.succ_lt_succ hlt) full why chan
      | slept full hopen chan => exact .slept full hopen chan

omit [DecidableEq ι] in
/-- What the loop of `piperead` takes out: less than is wanted only if there is nothing left. -/
theorem readLoop_sat {rest : ℕ} (hle : s.fifo.count ≤ PIPESIZE) :
    (readLoop rest).Sat s (fun k t ↦ ∃ cs, Moved s t [] cs ∧ cs.length = k ∧ t.chan = s.chan ∧
      (k < rest → t.IsEmpty)) fun _ ↦ False := by
  induction rest generalizing s with
  | zero => exact ⟨[], .refl hle, rfl, rfl, fun h ↦ absurd h (lt_irrefl 0)⟩
  | succ rest ih =>
    rw [readLoop, Prog.sat_get_bind]
    split
    next hempty => exact ⟨[], .refl hle, rfl, rfl, fun _ ↦ hempty⟩
    next hempty =>
      have hmoved := moved_deliver hle hempty
      refine (ih hmoved.count).bind ?_
      intro k t ⟨cs, hcs, hlen, hchan, hlt⟩
      refine ⟨_, hmoved.trans hcs, ?_, hchan, fun h ↦ hlt (Nat.lt_of_succ_lt_succ h)⟩
      rw [List.length_append, hlen, Nat.add_comm]
      rfl

/-- What a step of `piperead` by `j` can have done. -/
inductive ReadEnd (s : PipeSys ι) (j : ι) (n : ℤ) : PipePc → PipeSys ι → Prop where
  /-- The pipe is empty, and `j` has been killed. -/
  | failed : ReadEnd s j n (.user (-1)) s
  /-- The pipe is empty, and `j` sleeps. -/
  | slept (empty : s.IsEmpty) (writeopen : s.writeopen = true) :
      ReadEnd s j n (.read n) (s.setChan (update s.chan j (some .nread)))
  /-- It has copied what there was, up to `n` bytes. -/
  | done {t : PipeSys ι} {cs : List Byte} (data : s.IsEmpty → s.writeopen = false) (moved : Moved s t [] cs)
      (empty : cs.length < n.toNat → t.IsEmpty) (chan : t.chan = s.awake .nwrite) :
      ReadEnd s j n (.user cs.length) t

theorem ReadEnd.of_done {k : ℕ} {cs : List Byte} (hlen : cs.length = k)
    (data : s.IsEmpty → s.writeopen = false) (moved : Moved s t [] cs) (empty : k < n.toNat → t.IsEmpty)
    (chan : t.chan = s.awake .nwrite) : ReadEnd s j n (.user k) t := by
  subst hlen
  exact .done data moved empty chan

/-- A step of `piperead`. -/
theorem piperead_sat (hle : s.fifo.count ≤ PIPESIZE) :
    (piperead j n).Sat s (fun p t ↦ ReadEnd s j n p t) fun _ ↦ False := by
  rw [piperead, Prog.sat_get_bind]
  split
  next h =>
    split
    · exact .failed
    · exact .slept h.1 h.2
  next h =>
    refine (readLoop_sat hle).bind ?_
    intro k t ⟨cs, hcs, hlen, hchan, hlt⟩
    refine ReadEnd.of_done hlen (fun hempty ↦ ?_) (hcs.setChan _) hlt ?_
    · exact Bool.eq_false_iff.2 fun hopen ↦ h ⟨hempty, hopen⟩
    · funext k
      show (if t.chan k = some .nwrite then none else t.chan k) = s.awake .nwrite k
      rw [hchan, awake]

end Calls

/-! ### What a step does -/

section Steps

variable [DecidableEq ι] {s t : PipeSys ι} {l : PipeStep ι}

/-- What a step can have done. -/
inductive Effect (s : PipeSys ι) : PipeStep ι → PipeSys ι → Prop where
  /-- `pipewrite` has been called. -/
  | calledWrite {j : ι} {addr : ℕ → Byte} {n : ℤ} :
      Effect s (.write j addr n) (s.setPc j (.write addr n 0))
  /-- `piperead` has been called. -/
  | calledRead {j : ι} {n : ℤ} : Effect s (.read j n) (s.setPc j (.read n))
  /-- `pipewrite` has gone on. -/
  | wrote {j : ι} {addr : ℕ → Byte} {n : ℤ} {i : ℕ} {p : PipePc} {t : PipeSys ι} {bs : List Byte}
      (pc : s.pc j = .write addr n i) (moved : Moved s t bs [])
      (ended : WriteEnd s t j n (n - i).toNat bs p) : Effect s (.run j) (t.setPc j p)
  /-- `piperead` has gone on. -/
  | read {j : ι} {n : ℤ} {p : PipePc} {t : PipeSys ι} (pc : s.pc j = .read n)
      (ended : ReadEnd s j n p t) : Effect s (.run j) (t.setPc j p)
  /-- The write end has been closed. -/
  | closedWrite {b : Bool} :
      Effect s (.close true) { s with writeopen := false, chan := s.awake .nread, freed := b }
  /-- The read end has been closed. -/
  | closedRead {b : Bool} :
      Effect s (.close false) { s with readopen := false, chan := s.awake .nwrite, freed := b }
  /-- A process has been killed. -/
  | killed {j : ι} : Effect s (.kill j)
      { s with killed := update s.killed j true, chan := update s.chan j none }

theorem enter_eq_some {j : ι} {p : PipePc} {x : Except Empty (PipeSys ι)}
    (h : s.enter j p = some x) : x = .ok (s.setPc j p) := by
  rw [enter] at h
  split at h
  · exact (Option.some.inj h).symm
  · cases h

theorem advance_eq_ok {j : ι} {m : PipeM ι PipePc} {Q : PipePc → PipeSys ι → Prop}
    {E : Empty → Prop} (hm : m.Sat s Q E) (h : s.advance j m = .ok t) :
    ∃ p u, Q p u ∧ t = u.setPc j p := by
  rw [advance] at h
  split at h
  next p u hrun => exact ⟨p, u, hm.of_ok hrun, (Except.ok.inj h).symm⟩
  · cases h

/-- What a step can do, whoever takes it. -/
theorem step_effect (hle : s.fifo.count ≤ PIPESIZE) (h : s.step l = some (.ok t)) : Effect s l t := by
  rw [step] at h
  split at h
  · cases h
  · cases l with
    | write j addr n =>
      obtain rfl := Except.ok.inj (enter_eq_some h)
      exact .calledWrite
    | read j n =>
      obtain rfl := Except.ok.inj (enter_eq_some h)
      exact .calledRead
    | run j =>
      rw [move] at h
      split at h
      · cases hpc : s.pc j with
        | user r =>
          rw [hpc] at h
          cases h
        | write addr n i =>
          rw [hpc] at h
          obtain ⟨p, u, ⟨bs, hmoved, hend⟩, rfl⟩ := advance_eq_ok (writeLoop_sat hle) (Option.some.inj h)
          exact .wrote hpc hmoved hend
        | read n =>
          rw [hpc] at h
          obtain ⟨p, u, hend, rfl⟩ := advance_eq_ok (piperead_sat hle) (Option.some.inj h)
          exact .read hpc hend
      · cases h
    | close writable =>
      cases writable with
      | true =>
        obtain rfl := Except.ok.inj (Option.some.inj h)
        exact .closedWrite
      | false =>
        obtain rfl := Except.ok.inj (Option.some.inj h)
        exact .closedRead
    | kill j =>
      obtain rfl := Except.ok.inj (Option.some.inj h)
      exact .killed

end Steps

/-! ### The stream -/

/-- What holds of the bytes in every run. -/
structure StreamInv (s : PipeSys ι) : Prop where
  /-- The buffer holds at most `PIPESIZE` bytes. -/
  count : s.fifo.count ≤ PIPESIZE
  /-- What has been returned and what is in the buffer is what has been stored. -/
  stream : s.delivered ++ s.fifo.contents = s.stored

section Stream

variable {s t : PipeSys ι}

theorem StreamInv.moved {bs cs : List Byte} (h : StreamInv s) (hm : Moved s t bs cs) : StreamInv t := by
  refine ⟨hm.count, ?_⟩
  rw [hm.delivered, hm.stored, List.append_assoc, ← hm.contents, ← List.append_assoc, h.stream]

theorem streamInv_fresh (data : Fin PIPESIZE → Byte) (killed : ι → Bool) :
    StreamInv (fresh data killed) := by
  have hcount : (fresh data killed).fifo.count = 0 := isEmpty_iff.1 rfl
  refine ⟨?_, ?_⟩
  · rw [hcount]
    exact Nat.zero_le _
  · rw [Fifo.contents_eq_nil _ hcount]
    rfl

variable [DecidableEq ι] {l : PipeStep ι}

/-- The stream is kept by a step. -/
theorem StreamInv.effect (h : StreamInv s) (he : Effect s l t) : StreamInv t := by
  cases he with
  | calledWrite | calledRead => exact ⟨h.count, h.stream⟩
  | wrote pc moved ended =>
    have ht := h.moved moved
    exact ⟨ht.count, ht.stream⟩
  | read pc ended =>
    cases ended with
    | failed | slept => exact ⟨h.count, h.stream⟩
    | done data moved =>
      have ht := h.moved moved
      exact ⟨ht.count, ht.stream⟩
  | closedWrite | closedRead | killed => exact ⟨h.count, h.stream⟩

/-- And so in every run. -/
theorem streamInv_of_run {data : Fin PIPESIZE → Byte} {killed : ι → Bool} {ls : List (PipeStep ι)}
    (hrun : Machine.Run step (fresh data killed) ls s) : StreamInv s := by
  refine hrun.invariant (P := StreamInv) (streamInv_fresh data killed) ?_
  intro τ τ' l hinv hstep
  exact hinv.effect (step_effect hinv.count hstep)

/-- A read that returns 0 although it wants something has found nothing, and the write end closed. -/
theorem Effect.closed_of_read {j : ι} {n : ℤ} (he : Effect s (.run j) t) (hpc : s.pc j = .read n)
    (hn : 0 < n) (hret : t.pc j = .user 0) : t.IsEmpty ∧ t.writeopen = false := by
  cases he with
  | wrote pc => cases hpc.symm.trans pc
  | @read _ n' p u pc ended =>
    obtain rfl := PipePc.read.inj (hpc.symm.trans pc)
    rw [setPc_pc, update_self] at hret
    subst hret
    generalize hp : PipePc.user 0 = p at ended
    cases ended with
    | failed => exact absurd (PipePc.user.inj hp) (by decide)
    | slept => cases hp
    | @done _ cs data moved empty chan =>
      have hlen : cs.length = 0 := Int.natCast_eq_zero.1 (PipePc.user.inj hp).symm
      have hempty : u.IsEmpty := empty (by omega)
      -- No byte has been taken out, so the pipe was empty before.
      have hcontents := moved.contents
      rw [List.length_eq_zero_iff.1 hlen, List.append_nil, List.nil_append,
        Fifo.contents_eq_nil _ (isEmpty_iff.1 hempty)] at hcontents
      have hbefore : s.IsEmpty := isEmpty_iff.2 (s.fifo.length_contents ▸ congrArg List.length hcontents)
      exact ⟨hempty, moved.writeopen.trans (data hbefore)⟩

/-- **Pipes are first-in first-out byte streams.** In every run of any number of processes, the buffer holds at most
`PIPESIZE` bytes, what has been returned is the beginning of what has been stored, and `piperead` returns 0
for more than 0 bytes only if the pipe is empty and its write end is closed. -/
theorem pipe_stream {data : Fin PIPESIZE → Byte} {killed : ι → Bool} {ls : List (PipeStep ι)}
    (hrun : Machine.Run step (fresh data killed) ls s) :
    (s.fifo.nwrite - s.fifo.nread).toNat ≤ PIPESIZE ∧ s.delivered <+: s.stored ∧
      ∀ j n t, s.pc j = .read n → 0 < n → s.step (.run j) = some (.ok t) → t.pc j = .user 0 →
        t.IsEmpty ∧ t.writeopen = false := by
  have hinv := streamInv_of_run hrun
  refine ⟨hinv.count, ⟨s.fifo.contents, hinv.stream⟩, fun j n t hpc hn hstep hret ↦ ?_⟩
  exact (step_effect hinv.count hstep).closed_of_read hpc hn hret

/-- Two bytes of three have been read. -/
theorem pipe_stream_two_of_three : ∃ (ls : List (PipeStep (Fin 2))) (s : PipeSys (Fin 2)),
    Machine.Run step (fresh (fun _ ↦ 0) fun _ ↦ false) ls s ∧ s.stored = [10, 11, 12] ∧
      s.delivered = [10, 11] ∧ (s.fifo.nwrite - s.fifo.nread).toNat ≤ PIPESIZE ∧
      s.delivered <+: s.stored ∧
      ∀ j n t, s.pc j = .read n → 0 < n → s.step (.run j) = some (.ok t) → t.pc j = .user 0 →
        t.IsEmpty ∧ t.writeopen = false :=
  ⟨[.read 0 2, .run 0, .write 1 (fun i ↦ BitVec.ofNat 8 (10 + i)) 3, .run 1, .run 0], exists_run_of
    (fun s ↦ s.stored = [10, 11, 12] ∧ s.delivered = [10, 11]) (by decide +kernel) fun s hrun hs ↦
      ⟨hs.1, hs.2, pipe_stream hrun⟩⟩

end Stream

/-! ### Wake-ups -/

/-- Nobody sleeps without a reason. -/
structure NoLostWakeup (s : PipeSys ι) : Prop where
  nread : ∀ j, s.chan j = some .nread → s.IsEmpty ∧ s.writeopen = true
  nwrite : ∀ j, s.chan j = some .nwrite → s.IsFull ∧ s.readopen = true

/-- How many bytes a process in `pipewrite` still has to write. -/
def leftToWrite : PipePc → ℕ
  | .write _ n i => (n - i).toNat
  | _ => 0

/-- While a reader sleeps, a writer that goes on has at most `PIPESIZE` bytes left, or it has not been killed
and the read end is open. -/
def SparesReaders (s : PipeSys ι) : PipeStep ι → Prop
  | .run j => (∀ k, s.chan k ≠ some .nread) ∨ leftToWrite (s.pc j) ≤ PIPESIZE ∨
      (s.readopen = true ∧ s.killed j = false)
  | _ => True

instance [Fintype ι] (s : PipeSys ι) : ∀ l, Decidable (s.SparesReaders l)
  | .run _ => inferInstanceAs (Decidable (_ ∨ _))
  | .write .. | .read .. | .close _ | .kill _ => .isTrue trivial

section Wakeups

variable {s t : PipeSys ι}

/-- Whoever sleeps on a channel on which `j` has not gone to sleep. -/
theorem of_update_eq_some [DecidableEq ι] {chan : ι → Option PipeChan} {x : Option PipeChan} {c : PipeChan} {j k : ι}
    (h : update chan j x k = some c) (hx : x ≠ some c) : chan k = some c := by
  rcases eq_or_ne k j with rfl | hkj
  · exact absurd ((update_self ..).symm.trans h) hx
  · rwa [update_of_ne hkj] at h

/-- Whoever still sleeps slept before, on another channel. -/
theorem awake_eq_some {c c' : PipeChan} {j : ι} (h : s.awake c j = some c') :
    s.chan j = some c' ∧ c' ≠ c := by
  rw [awake] at h
  split at h
  · cases h
  next hne =>
    refine ⟨h, ?_⟩
    rintro rfl
    exact hne h

/-- A byte has been stored in the empty pipe for each one that is in it now. -/
theorem Moved.length_of_isEmpty {bs : List Byte} (h : Moved s t bs []) (hs : s.IsEmpty) :
    bs.length = t.fifo.count := by
  have hcontents := h.contents
  rw [Fifo.contents_eq_nil _ (isEmpty_iff.1 hs), List.nil_append, List.nil_append] at hcontents
  rw [hcontents, Fifo.length_contents]

variable [DecidableEq ι] {l : PipeStep ι}

/-- A step of `pipewrite`. -/
theorem NoLostWakeup.wrote {j : ι} {addr : ℕ → Byte} {n : ℤ} {i : ℕ} {p : PipePc} {bs : List Byte}
    (h : NoLostWakeup s) (hspares : s.SparesReaders (.run j)) (pc : s.pc j = .write addr n i)
    (moved : Moved s t bs []) (ended : WriteEnd s t j n (n - i).toNat bs p) : NoLostWakeup t := by
  -- Somebody sleeps on `nwrite` only if the pipe is full, and then nothing has been stored.
  have hfull : ∀ k, s.chan k = some .nwrite → t.IsFull ∧ t.readopen = true := by
    intro k hk
    obtain ⟨hfull, hopen⟩ := h.nwrite k hk
    have hlen := congrArg List.length moved.contents
    rw [List.length_append, Fifo.length_contents, List.nil_append, Fifo.length_contents,
      isFull_iff.1 hfull] at hlen
    refine ⟨isFull_iff.2 (le_antisymm moved.count ?_), moved.readopen.trans hopen⟩
    omega
  cases ended with
  | done chan =>
    refine ⟨fun k hk ↦ ?_, fun k hk ↦ ?_⟩
    · rw [chan] at hk
      exact absurd rfl (awake_eq_some hk).2
    · rw [chan] at hk
      exact hfull k (awake_eq_some hk).1
  | failed hlt full why chan =>
    refine ⟨fun k hk ↦ ?_, fun k hk ↦ hfull k (chan ▸ hk)⟩
    rw [chan] at hk
    exfalso
    rcases hspares with hnone | hle | ⟨hopen, hkilled⟩
    · exact hnone k hk
    · -- The pipe was empty and is full, so `PIPESIZE` bytes have been stored.
      have hlen := moved.length_of_isEmpty (h.nread k hk).1
      rw [pc, leftToWrite] at hle
      rw [isFull_iff.1 full] at hlen
      omega
    · rcases why with hclosed | hkilled'
      · exact Bool.false_ne_true (hclosed.symm.trans hopen)
      · exact Bool.false_ne_true (hkilled.symm.trans hkilled')
  | slept full hopen chan =>
    refine ⟨fun k hk ↦ ?_, fun _ _ ↦ ⟨full, hopen⟩⟩
    rw [chan] at hk
    exact absurd rfl (awake_eq_some (of_update_eq_some hk (by decide))).2

/-- A step of `piperead`. -/
theorem NoLostWakeup.read {j : ι} {n : ℤ} {p : PipePc} (h : NoLostWakeup s)
    (ended : ReadEnd s j n p t) : NoLostWakeup t := by
  cases ended with
  | failed => exact h
  | slept empty writeopen =>
    exact ⟨fun _ _ ↦ ⟨empty, writeopen⟩, fun k hk ↦ h.nwrite k (of_update_eq_some hk (by decide))⟩
  | done data moved empty chan =>
    refine ⟨fun k hk ↦ ?_, fun k hk ↦ ?_⟩
    · -- Somebody who sleeps on `nread` has found the pipe empty, and the reader would have slept too.
      rw [chan] at hk
      obtain ⟨hempty, hopen⟩ := h.nread k (awake_eq_some hk).1
      exact absurd ((data hempty).symm.trans hopen) Bool.false_ne_true
    · rw [chan] at hk
      exact absurd rfl (awake_eq_some hk).2

/-- A step loses no wake-up. -/
theorem NoLostWakeup.effect (h : NoLostWakeup s) (hspares : s.SparesReaders l) (he : Effect s l t) :
    NoLostWakeup t := by
  cases he with
  | calledWrite | calledRead => exact ⟨h.nread, h.nwrite⟩
  | wrote pc moved ended =>
    have ht := h.wrote hspares pc moved ended
    exact ⟨ht.nread, ht.nwrite⟩
  | read pc ended =>
    have ht := h.read ended
    exact ⟨ht.nread, ht.nwrite⟩
  | closedWrite =>
    exact ⟨fun k hk ↦ absurd rfl (awake_eq_some hk).2, fun k hk ↦ h.nwrite k (awake_eq_some hk).1⟩
  | closedRead =>
    exact ⟨fun k hk ↦ h.nread k (awake_eq_some hk).1, fun k hk ↦ absurd rfl (awake_eq_some hk).2⟩
  | killed =>
    exact ⟨fun k hk ↦ h.nread k (of_update_eq_some hk (by decide)),
      fun k hk ↦ h.nwrite k (of_update_eq_some hk (by decide))⟩

/-- **No wake-up is lost** in a run in which, while a reader sleeps, a writer that goes on has at most
`PIPESIZE` bytes left, or has not been killed and the read end is open. -/
theorem nobody_sleeps_needlessly [∀ (s : PipeSys ι) l, Decidable (s.SparesReaders l)]
    {data : Fin PIPESIZE → Byte} {killed : ι → Bool} {ls : List (PipeStep ι)}
    (hrun : Machine.Run (Machine.guarded SparesReaders step) (fresh data killed) ls s) :
    NoLostWakeup s := by
  have hinv : StreamInv s ∧ NoLostWakeup s := by
    refine hrun.invariant (P := fun s ↦ StreamInv s ∧ NoLostWakeup s)
      ⟨streamInv_fresh data killed, nofun, nofun⟩ ?_
    intro τ τ' l ⟨hstream, hwake⟩ hstep
    obtain ⟨hspares, hstep⟩ := guarded_eq_some.1 hstep
    have he := step_effect hstream.count hstep
    exact ⟨hstream.effect he, hwake.effect hspares he⟩
  exact hinv.2

/-- A writer wakes up the reader when the pipe is full, and sleeps. -/
theorem nobody_sleeps_needlessly_full :
    ∃ (ls : List (PipeStep (Fin 2))) (s : PipeSys (Fin 2)),
      Machine.Run (Machine.guarded SparesReaders step) (fresh (fun _ ↦ 0) fun _ ↦ false) ls s ∧
        s.chan 0 = none ∧ s.chan 1 = some .nwrite ∧ NoLostWakeup s :=
  ⟨[.read 0 2, .run 0, .write 1 (fun _ ↦ 7) 513, .run 1], exists_run_of
    (fun s ↦ s.chan 0 = none ∧ s.chan 1 = some .nwrite) (by decide +kernel) fun s hrun hs ↦
      ⟨hs.1, hs.2, nobody_sleeps_needlessly hrun⟩⟩

/-- A reader sleeps, a writer of more than `PIPESIZE` bytes is killed and goes on: it fills the pipe and returns
-1, and the reader sleeps on. -/
theorem reader_left_asleep : ∃ (ls : List (PipeStep (Fin 2))) (s : PipeSys (Fin 2)),
    Machine.Run step (fresh (fun _ ↦ 0) fun _ ↦ false) ls s ∧
      s.chan 0 = some .nread ∧ ¬s.IsEmpty ∧ s.readopen = true ∧ s.writeopen = true :=
  ⟨[.read 0 2, .run 0, .write 1 (fun _ ↦ 7) 513, .kill 1, .run 1],
    exists_run_of _ (by decide +kernel) fun _ _ hs ↦ hs⟩

end Wakeups

end PipeSys

end Xv6
