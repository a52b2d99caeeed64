import Mathlib.Algebra.BigOperators.Group.Finset.Basic
import Mathlib.Algebra.Order.BigOperators.Group.Finset
import Xv6.Log.Crash

/-!
# The log reservation

`begin_op` admits an operation when the log has room for `MAXOPBLOCKS` blocks of each outstanding
operation. Whether that suffices is a question about what the processes do, so it is stated about
the labels of a run: `Tally` counts, from the labels alone, which blocks each operation and the
current group have passed to `log_write`.

* `Counted` ties the tally to the machine: the log holds exactly the blocks of the current group.
  It rests on absorption, and on the group being closed when the last operation ends.
* `Tally.Reserved` is the reservation: the blocks of the group, and what the outstanding operations
  may still add, fit into the log. It rests on the admission test.

The log has room for one block less than `begin_op` gives away: the header takes one of its
`LOGSIZE` blocks. So the reservation is good for operations of `MAXOPBLOCKS - 1` blocks, and three
operations that use theirs to the last block panic.
-/

namespace Xv6.Log

open Function

/-- What the processes have done since the last commit, counted from the labels. -/
structure Tally where
  /-- The processes between `begin_op` and `end_op`. -/
  active : Finset ℕ
  /-- The blocks that the last operation of each process has passed to `log_write`. -/
  own : ℕ → Finset ℕ
  /-- The blocks that the operations since the last commit have passed to `log_write`. -/
  group : Finset ℕ

namespace Tally

/-- Nothing has happened. -/
def start : Tally where
  active := ∅
  own := fun _ ↦ ∅
  group := ∅

/-- Count one label. -/
def next (T : Tally) : Label → Tally
  | .beginOp p => { T with active := insert p T.active, own := update T.own p ∅ }
  | .logWrite p b =>
    { T with own := update T.own p (insert b (T.own p)), group := insert b T.group }
  | .endOp p =>
    { T with
      active := T.active.erase p
      group := if T.active.erase p = ∅ then ∅ else T.group }
  | .crash => start
  | _ => T

/-- Count all labels. -/
def count (ls : List Label) : Tally :=
  ls.foldl next start

theorem count_concat (ls : List Label) (l : Label) : count (ls ++ [l]) = (count ls).next l := by
  rw [count, List.foldl_append, List.foldl_cons, List.foldl_nil, count]

/-- The label does not take an operation beyond `N` blocks. -/
def Allows (N : ℕ) (T : Tally) : Label → Prop
  | .logWrite p b => (insert b (T.own p)).card ≤ N
  | _ => True

instance (N : ℕ) (T : Tally) (l : Label) : Decidable (T.Allows N l) := by
  cases l <;> unfold Allows <;> infer_instance

/-- Each of the labels is allowed when it comes. -/
def Within (N : ℕ) : Tally → List Label → Prop
  | _, [] => True
  | T, l :: ls => T.Allows N l ∧ Within N (T.next l) ls

instance decidableWithin (N : ℕ) : (T : Tally) → (ls : List Label) → Decidable (T.Within N ls)
  | _, [] => .isTrue trivial
  | T, l :: ls => @instDecidableAnd _ _ _ (decidableWithin N (T.next l) ls)

theorem within_concat {N : ℕ} {T : Tally} {ls : List Label} {l : Label} :
    T.Within N (ls ++ [l]) ↔ T.Within N ls ∧ (ls.foldl next T).Allows N l := by
  induction ls generalizing T with
  | nil => simp [Within]
  | cons x xs ih => rw [List.cons_append, Within, ih, Within, List.foldl_cons, and_assoc]

/-- The reservation: while operations are outstanding, the blocks of the group and the blocks the
operations may still add leave two blocks for each block by which `N` falls short of
`MAXOPBLOCKS`. -/
def Reserved (N : ℕ) (T : Tally) : Prop :=
  T.active.Nonempty →
    T.group.card + ∑ p ∈ T.active, (N - (T.own p).card) + 2 * (MAXOPBLOCKS - N) ≤ LOGSIZE

/-- What is known of the tally of a run whose operations pass at most `N` blocks each. -/
structure Inv (N : ℕ) (T : Tally) : Prop where
  own_subset : ∀ p ∈ T.active, T.own p ⊆ T.group
  group_idle : T.active = ∅ → T.group = ∅
  reserved : T.Reserved N

variable {N : ℕ} {T : Tally}

theorem inv_start (N : ℕ) : start.Inv N where
  own_subset := fun _ h ↦ absurd h (Finset.notMem_empty _)
  group_idle := fun _ ↦ rfl
  reserved := fun h ↦ absurd h Finset.not_nonempty_empty

/-- An admitted operation gets its reservation. -/
theorem Inv.beginOp (h : T.Inv N) (hN : N ≤ MAXOPBLOCKS) {p : ℕ} (hp : p ∉ T.active)
    (hroom : T.group.card + (T.active.card + 1) * MAXOPBLOCKS ≤ LOGSIZE) :
    (T.next (.beginOp p)).Inv N := by
  have hne : ∀ q ∈ T.active, q ≠ p := fun q hq hqp ↦ hp (hqp ▸ hq)
  refine ⟨fun q hq ↦ ?_, fun hempty ↦ absurd hempty (Finset.insert_ne_empty p T.active),
    fun _ ↦ ?_⟩
  · show update T.own p ∅ q ⊆ T.group
    rcases Finset.mem_insert.1 hq with rfl | hq
    · rw [update_self]
      exact Finset.empty_subset _
    · rw [update_of_ne (hne q hq)]
      exact h.own_subset q hq
  · show T.group.card + ∑ q ∈ insert p T.active, (N - (update T.own p ∅ q).card)
      + 2 * (MAXOPBLOCKS - N) ≤ LOGSIZE
    have hsum : ∑ q ∈ insert p T.active, (N - (update T.own p ∅ q).card) ≤
        (T.active.card + 1) * N := by
      rw [← Finset.card_insert_of_notMem hp]
      exact Finset.sum_le_card_nsmul _ _ _ fun q _ ↦ Nat.sub_le _ _
    obtain ⟨k, hk⟩ := Nat.exists_eq_add_of_le hN
    have hM : MAXOPBLOCKS = 10 := rfl
    have hL : LOGSIZE = 30 := rfl
    -- the first operation of a group has the whole log; a later one shares it with another one
    rcases Finset.eq_empty_or_nonempty T.active with hempty | hsome
    · rw [hempty, Finset.card_empty] at hsum
      rw [h.group_idle hempty, Finset.card_empty]
      rw [hempty]
      omega
    · have hcard : 1 ≤ T.active.card := Finset.card_pos.2 hsome
      have hsub : MAXOPBLOCKS - N = k := by omega
      have hmul : 2 * k ≤ (T.active.card + 1) * k := Nat.mul_le_mul_right k (by omega)
      rw [hk, Nat.mul_add] at hroom
      omega

/-- A new block of an operation is paid for by its reservation. -/
theorem Inv.logWrite (h : T.Inv N) {p b : ℕ} (hp : p ∈ T.active)
    (hallow : T.Allows N (.logWrite p b)) : (T.next (.logWrite p b)).Inv N := by
  refine ⟨fun q hq ↦ ?_, fun hempty ↦ ?_, fun _ ↦ ?_⟩
  · show update T.own p (insert b (T.own p)) q ⊆ insert b T.group
    by_cases hqp : q = p
    · rw [hqp, update_self]
      exact Finset.insert_subset_insert b (h.own_subset p hp)
    · rw [update_of_ne hqp]
      exact (h.own_subset q hq).trans (Finset.subset_insert b _)
  · exact absurd hp (hempty ▸ Finset.notMem_empty p)
  · show (insert b T.group).card
      + ∑ q ∈ T.active, (N - (update T.own p (insert b (T.own p)) q).card)
      + 2 * (MAXOPBLOCKS - N) ≤ LOGSIZE
    have hres := h.reserved ⟨p, hp⟩
    by_cases hb : b ∈ T.own p
    · rw [Finset.insert_eq_of_mem (h.own_subset p hp hb), Finset.insert_eq_of_mem hb,
        update_eq_self]
      exact hres
    · have hcard := Finset.card_insert_of_notMem hb
      have hgroup := Finset.card_insert_le b T.group
      have hold := Finset.add_sum_erase T.active (fun q ↦ N - (T.own q).card) hp
      have hnew := Finset.add_sum_erase T.active
        (fun q ↦ N - (update T.own p (insert b (T.own p)) q).card) hp
      have hrest : ∑ q ∈ T.active.erase p,
          (N - (update T.own p (insert b (T.own p)) q).card) =
            ∑ q ∈ T.active.erase p, (N - (T.own q).card) :=
        Finset.sum_congr rfl fun q hq ↦ by
          rw [update_of_ne (Finset.ne_of_mem_erase hq)]
      rw [hrest, update_self] at hnew
      have hle : (insert b (T.own p)).card ≤ N := hallow
      omega

theorem Inv.endOp (h : T.Inv N) (p : ℕ) : (T.next (.endOp p)).Inv N := by
  have hsub : T.active.erase p ⊆ T.active := Finset.erase_subset p T.active
  refine ⟨fun q hq ↦ ?_, fun hempty ↦ if_pos hempty, fun hsome ↦ ?_⟩
  · show T.own q ⊆ if T.active.erase p = ∅ then ∅ else T.group
    have hne : T.active.erase p ≠ ∅ := Finset.ne_empty_of_mem hq
    rw [if_neg hne]
    exact h.own_subset q (hsub hq)
  · show (if T.active.erase p = ∅ then ∅ else T.group).card
      + ∑ q ∈ T.active.erase p, (N - (T.own q).card) + 2 * (MAXOPBLOCKS - N) ≤ LOGSIZE
    have hne : T.active.erase p ≠ ∅ := hsome.ne_empty
    rw [if_neg hne]
    have hres := h.reserved (hsome.mono hsub)
    have hle : ∑ q ∈ T.active.erase p, (N - (T.own q).card) ≤
        ∑ q ∈ T.active, (N - (T.own q).card) := Finset.sum_le_sum_of_subset hsub
    omega

end Tally

namespace Sys

variable {sb : Superblock} {s t : Sys} {T : Tally}

/-- The tally agrees with the machine. -/
structure Counted (sb : Superblock) (T : Tally) (s : Sys) : Prop where
  size_eq : s.log.size = sb.nlog
  op : ∀ p, s.op p ≠ none ↔ p ∈ T.active
  /-- `log.outstanding` counts them. -/
  outstanding : s.log.outstanding = T.active.card
  group_idle : T.active = ∅ → T.group = ∅
  /-- Between commits the log holds the blocks of the current group. -/
  running : s.phase = .running →
    s.log.committing = false ∧ s.log.lh.Nodup ∧ s.log.lh.toFinset = T.group
  /-- During a commit and during recovery no operation is outstanding. -/
  idle : s.phase ≠ .running → T.active = ∅
  committed : s.phase = .committed → s.log.lh = []
  committing : (∀ tail, s.phase ≠ .recover tail) → s.phase ≠ .running → s.log.committing = true
  recovering : ∀ tail, s.phase = .recover tail → s.log.committing = false

theorem counted_boot (s : Sys) : Counted sb .start (s.boot sb) where
  size_eq := rfl
  op := fun p ↦ by simp [boot, Tally.start]
  outstanding := rfl
  group_idle := fun _ ↦ rfl
  running := nofun
  idle := fun _ ↦ rfl
  committed := nofun
  committing := fun h ↦ absurd rfl (h 0)
  recovering := fun _ _ ↦ rfl

variable {p o : ℕ} {log : Log}

section

variable (h : Counted sb T s)

include h

theorem Counted.running_of_op (hp : s.op p = some o) : s.phase = .running := by
  have hmem : p ∈ T.active := (h.op p).1 (by simp [hp])
  by_contra hph
  exact absurd hmem (h.idle hph ▸ Finset.notMem_empty p)

/-- Between commits `log.lh.n` is the number of blocks of the group. -/
theorem Counted.length_lh (hr : s.phase = .running) : s.log.lh.length = T.group.card := by
  obtain ⟨-, hnodup, hset⟩ := h.running hr
  rw [← hset, List.toFinset_card_of_nodup hnodup]

theorem Counted.beginOp (hp : s.op p = none) (hrec : ∀ tail, s.phase ≠ .recover tail)
    (hlog : s.log.beginOp = some log) : Counted sb (T.next (.beginOp p)) { s with
      log := log
      op := update s.op p (some s.nextId)
      nextId := s.nextId + 1 } ∧
    p ∉ T.active ∧ T.group.card + (T.active.card + 1) * MAXOPBLOCKS ≤ LOGSIZE := by
  obtain ⟨hc, hroom, rfl⟩ := beginOp_eq_some hlog
  have hmem : p ∉ T.active := fun hmem ↦ (h.op p).2 hmem hp
  have hr : s.phase = .running := by
    by_contra hr
    rw [h.committing hrec hr] at hc
    cases hc
  refine ⟨⟨h.size_eq, fun q ↦ ?_, ?_, fun hempty ↦ ?_, h.running, fun hn ↦ absurd hr hn,
    h.committed, h.committing, h.recovering⟩, hmem, ?_⟩
  · show update s.op p (some s.nextId) q ≠ none ↔ q ∈ insert p T.active
    by_cases hqp : q = p
    · simp [hqp]
    · rw [update_of_ne hqp, h.op q, Finset.mem_insert, or_iff_right hqp]
  · show s.log.outstanding + 1 = (insert p T.active).card
    rw [Finset.card_insert_of_notMem hmem, h.outstanding]
    rfl
  · exact absurd hempty (Finset.insert_ne_empty p T.active)
  · rw [h.length_lh hr, h.outstanding] at hroom
    exact_mod_cast hroom

theorem Counted.logWrite {b : ℕ} (hp : s.op p = some o)
    (hlog : s.log.logWrite b = .ok log) (pending : List (ℕ × ℕ)) :
    Counted sb (T.next (.logWrite p b)) { s with log := log, pending := pending } := by
  obtain ⟨-, -, -, rfl⟩ := logWrite_eq_ok hlog
  have hr := h.running_of_op hp
  have hmem : p ∈ T.active := (h.op p).1 (by simp [hp])
  refine ⟨h.size_eq, h.op, h.outstanding, fun hempty ↦ ?_, fun _ ↦ ?_, h.idle, fun hc ↦ ?_,
    h.committing, h.recovering⟩
  · exact absurd hmem (hempty ▸ Finset.notMem_empty p)
  · obtain ⟨hc, hnodup, hset⟩ := h.running hr
    refine ⟨hc, nodup_absorb hnodup, ?_⟩
    show (absorb s.log.lh b).toFinset = insert b T.group
    rw [toFinset_absorb, hset]
  · exact absurd (hr.symm.trans hc) (by simp)

theorem Counted.endOp (hp : s.op p = some o) (hlog : s.log.endOp = .ok log) :
    Counted sb (T.next (.endOp p)) { s with
      log := log
      op := update s.op p none
      phase := phaseAfterEnd log } := by
  obtain ⟨hc, rfl⟩ := endOp_eq_ok hlog
  have hr := h.running_of_op hp
  have hmem : p ∈ T.active := (h.op p).1 (by simp [hp])
  have hcard := Finset.card_erase_of_mem hmem
  have hpos : 1 ≤ T.active.card := Finset.card_pos.2 ⟨p, hmem⟩
  have hout := h.outstanding
  have hop : ∀ q, update s.op p none q ≠ none ↔ q ∈ T.active.erase p := by
    intro q
    by_cases hqp : q = p
    · simp [hqp]
    · rw [update_of_ne hqp, h.op q, Finset.mem_erase, and_iff_right hqp]
  have hcount : s.log.outstanding - 1 = ((T.active.erase p).card : ℤ) := by omega
  by_cases hlast : s.log.outstanding = 1
  · -- the last operation: the group is closed and the machine commits
    have hempty : T.active.erase p = ∅ := Finset.card_eq_zero.1 (by omega)
    refine ⟨h.size_eq, hop, hcount, fun hempty ↦ if_pos hempty, fun hph ↦ ?_, fun _ ↦ hempty,
      fun hph ↦ ?_, fun _ _ ↦ decide_eq_true hlast, fun tail hph ↦ ?_⟩
    · simp only [phaseAfterEnd, hlast, decide_true, if_true] at hph
      split at hph <;> cases hph
    · simp only [phaseAfterEnd, hlast, decide_true, if_true] at hph
      split at hph
      · cases hph
      next hlen => exact List.length_eq_zero_iff.1 (Nat.eq_zero_of_not_pos hlen)
    · simp only [phaseAfterEnd, hlast, decide_true, if_true] at hph
      split at hph <;> cases hph
  · have hne : T.active.erase p ≠ ∅ := fun hempty ↦ by
      rw [hempty, Finset.card_empty] at hcard
      omega
    have hph : phaseAfterEnd { s.log with
        outstanding := s.log.outstanding - 1
        committing := decide (s.log.outstanding = 1) } = .running := by
      simp [phaseAfterEnd, hlast]
    refine ⟨h.size_eq, hop, hcount, fun hempty ↦ absurd hempty hne, fun _ ↦ ?_,
      fun hn ↦ absurd hph hn, fun hcom ↦ ?_, fun _ hn ↦ absurd hph hn,
      fun tail hrec ↦ absurd (hph.symm.trans hrec) (by simp)⟩
    · obtain ⟨-, hnodup, hset⟩ := h.running hr
      refine ⟨decide_eq_false hlast, hnodup, ?_⟩
      show s.log.lh.toFinset = if T.active.erase p = ∅ then ∅ else T.group
      rw [if_neg hne, hset]
    · exact absurd (hph.symm.trans hcom) (by simp)

/-- While no operation is outstanding, only the phase and the entries of the log change. -/
theorem Counted.of_idle (hidle : T.active = ∅) (hop : t.op = s.op)
    (hsize : t.log.size = s.log.size) (hout : t.log.outstanding = s.log.outstanding)
    (hrun : t.phase = .running → t.log.committing = false)
    (hlh : t.phase = .running ∨ t.phase = .committed → t.log.lh = [])
    (hcommit : (∀ tail, t.phase ≠ .recover tail) → t.phase ≠ .running → t.log.committing = true)
    (hrec : ∀ tail, t.phase = .recover tail → t.log.committing = false) : Counted sb T t where
  size_eq := hsize.trans h.size_eq
  op := hop ▸ h.op
  outstanding := hout.trans h.outstanding
  group_idle := h.group_idle
  running := fun hr ↦ by
    rw [hlh (.inl hr), h.group_idle hidle]
    exact ⟨hrun hr, List.nodup_nil, List.toFinset_nil⟩
  idle := fun _ ↦ hidle
  committed := fun hc ↦ hlh (.inr hc)
  committing := hcommit
  recovering := hrec

/-- Ticks happen only while no operation is outstanding, and empty the log at the end. -/
theorem Counted.tick (hstep : s.tick sb = some t) : Counted sb T t := by
  unfold Sys.tick at hstep
  split at hstep
  · cases hstep
  next tail hph =>
    have hcommit := h.committing (by simp [hph]) (by simp [hph])
    have hidle := h.idle (by simp [hph])
    split at hstep <;> cases hstep <;>
      exact h.of_idle hidle rfl rfl rfl (by simp) (by simp) (fun _ _ ↦ hcommit) (by simp)
  next tail hph =>
    have hcommit := h.committing (by simp [hph]) (by simp [hph])
    have hidle := h.idle (by simp [hph])
    split at hstep <;> cases hstep
    · exact h.of_idle hidle rfl rfl rfl (by simp) (by simp) (fun _ _ ↦ hcommit) (by simp)
    · exact h.of_idle hidle rfl rfl rfl (by simp) (fun _ ↦ rfl) (fun _ _ ↦ hcommit) (by simp)
  next hph =>
    have hidle := h.idle (by simp [hph])
    cases hstep
    exact h.of_idle hidle rfl rfl rfl (fun _ ↦ rfl) (fun _ ↦ h.committed hph) (by simp) (by simp)
  next tail hph =>
    have hrec := h.recovering tail hph
    have hidle := h.idle (by simp [hph])
    split at hstep <;> cases hstep
    · exact h.of_idle hidle rfl rfl rfl (by simp) (by simp) (by simp) (fun _ _ ↦ hrec)
    · exact h.of_idle hidle rfl rfl rfl (fun _ ↦ hrec) (fun _ ↦ rfl) (by simp) (by simp)

end

/-- The tally keeps agreeing with the machine, and the reservation holds if the operations stay
within their blocks. -/
theorem Counted.step {N : ℕ} (hN : N ≤ MAXOPBLOCKS) (h : Counted sb T s) {l : Label}
    (hstep : s.step sb l = some (.ok t)) :
    Counted sb (T.next l) t ∧ (T.Inv N → T.Allows N l → (T.next l).Inv N) := by
  have hcase := step_eq_ok sb hstep
  cases l with
  | beginOp p =>
    obtain ⟨log, hp, hrec, hlog, rfl⟩ := hcase
    obtain ⟨hcounted, hnew, hroom⟩ := h.beginOp hp hrec hlog
    exact ⟨hcounted, fun hT _ ↦ hT.beginOp hN hnew hroom⟩
  | modify p b v =>
    obtain ⟨o, hp, hb, rfl⟩ := hcase
    exact ⟨{ h with }, fun hT _ ↦ hT⟩
  | logWrite p b =>
    obtain ⟨o, log, hp, -, hlog, rfl⟩ := hcase
    exact ⟨h.logWrite hp hlog _, fun hT hallow ↦ hT.logWrite ((h.op p).1 (by simp [hp])) hallow⟩
  | endOp p =>
    obtain ⟨o, log, hp, -, hlog, rfl⟩ := hcase
    exact ⟨h.endOp hp hlog, fun hT _ ↦ hT.endOp p⟩
  | tick => exact ⟨h.tick hcase, fun hT _ ↦ hT⟩
  | evict b =>
    obtain ⟨-, rfl⟩ := hcase
    exact ⟨{ h with }, fun hT _ ↦ hT⟩
  | crash =>
    rw [hcase]
    exact ⟨counted_boot s, fun _ _ ↦ Tally.inv_start N⟩

/-- The tally of a run. -/
theorem counted_run {N : ℕ} (hN : N ≤ MAXOPBLOCKS) {d : Disk} {ls : List Label}
    (run : Machine.Run (Sys.step sb) (initial sb d) ls s) :
    Counted sb (Tally.count ls) s ∧ (Tally.start.Within N ls → (Tally.count ls).Inv N) := by
  refine run.invariant_labels (P := fun ls s ↦ Counted sb (Tally.count ls) s ∧
    (Tally.start.Within N ls → (Tally.count ls).Inv N)) ?_ ?_
  · exact ⟨counted_boot _, fun _ ↦ Tally.inv_start N⟩
  · intro ls s t l h hstep
    obtain ⟨hcounted, hinv⟩ := h.1.step hN hstep
    rw [Tally.count_concat]
    refine ⟨hcounted, fun hwithin ↦ ?_⟩
    obtain ⟨hls, hl⟩ := Tally.within_concat.1 hwithin
    exact hinv (h.2 hls) hl

/-- **The log reservation.** In a run of any processes on the log that `mkfs` lays out, `log_write`
does not panic with `too big a transaction` exactly as long as the operations since the last commit
have passed fewer than `LOGSIZE - 1` different blocks to it. In particular it never does if no
operation passes more than `MAXOPBLOCKS - 1` blocks. -/
theorem logWrite_not_tooBig_iff {d : Disk} {ls : List Label}
    (run : Machine.Run (Sys.step mkfsSuperblock) (initial mkfsSuperblock d) ls s) {p b : ℕ}
    (hp : s.op p ≠ none) (hb : Home mkfsSuperblock b) :
    (s.step mkfsSuperblock (.logWrite p b) ≠ some (.error .tooBigTransaction) ↔
      (Tally.count ls).group.card < LOGSIZE - 1) ∧
    (Tally.start.Within (MAXOPBLOCKS - 1) ls →
      s.step mkfsSuperblock (.logWrite p b) ≠ some (.error .tooBigTransaction)) := by
  obtain ⟨hcounted, hinv⟩ := counted_run (N := MAXOPBLOCKS - 1) (by decide) run
  obtain ⟨o, ho⟩ := Option.ne_none_iff_exists'.1 hp
  have hlen := hcounted.length_lh (hcounted.running_of_op ho)
  have hmem : p ∈ (Tally.count ls).active := (hcounted.op p).1 hp
  have hsize : s.log.size = 30 := hcounted.size_eq
  have hL : LOGSIZE = 30 := rfl
  have hstep : s.step mkfsSuperblock (.logWrite p b) ≠ some (.error .tooBigTransaction) ↔
      (Tally.count ls).group.card < LOGSIZE - 1 := by
    simp only [Sys.step, ho, if_pos hb]
    constructor
    · intro hne
      by_contra hfull
      exact hne (by rw [Log.logWrite, if_pos (by omega)]; rfl)
    · intro hroom herr
      rw [Log.logWrite, if_neg (by omega)] at herr
      split at herr <;> cases herr
  refine ⟨hstep, fun hwithin ↦ hstep.2 ?_⟩
  have hres := (hinv hwithin).reserved ⟨p, hmem⟩
  have hM : MAXOPBLOCKS = 10 := rfl
  omega

/-- The labels of three operations that use their reservations to the last block, up to the last
`log_write`. -/
def fullReservation : List Label :=
  [.tick, .beginOp 0, .beginOp 1, .beginOp 2] ++ (List.range' 100 10).map (.logWrite 0)
    ++ (List.range' 110 10).map (.logWrite 1) ++ (List.range' 120 9).map (.logWrite 2)

/-- The thirtieth block does not fit. -/
theorem logWrite_tooBig_mkfs :
    Tally.start.Within MAXOPBLOCKS (fullReservation ++ [.logWrite 2 129]) ∧
      ∃ s, Machine.Run (Sys.step mkfsSuperblock) (initial mkfsSuperblock fun _ ↦ Block.zero)
          fullReservation s ∧
        s.step mkfsSuperblock (.logWrite 2 129) = some (.error .tooBigTransaction) :=
  ⟨by decide, Machine.exists_run_of
    (fun s ↦ Machine.stops (Sys.step mkfsSuperblock) s (.logWrite 2 129) .tooBigTransaction) (by decide +kernel)
    fun s _ hs ↦ Machine.step_of_stops hs⟩

/-- A small operation in a run of the machine. -/
theorem logWrite_not_tooBig_iff_mkfs :
    ∃ s, Machine.Run (Sys.step mkfsSuperblock) (initial mkfsSuperblock fun _ ↦ Block.zero)
        [.tick, .beginOp 7] s ∧
      s.step mkfsSuperblock (.logWrite 7 100) ≠ some (.error .tooBigTransaction) :=
  Machine.exists_run_of (fun s ↦ s.op 7 = some 0) (by decide +kernel) fun s run hp ↦
    (logWrite_not_tooBig_iff run (by simp [hp]) (by decide)).2 (by decide)

end Sys

end Xv6.Log
