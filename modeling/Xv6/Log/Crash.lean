import Xv6.Log.Recovery

/-!
# Crash atomicity

At every moment of every run of the log machine, crashes included, recovery over the disk as it then
is gives the home blocks after the group commits so far, each counted from the moment its header
reached the disk (`recovers_committed_groups`).

The invariant `Inv` has one part that does not mention the progress of a commit: the disk is
recoverable to the committed groups, a block that nobody uses is the same in the cache and on disk,
and the cache shows the committed groups and the writes since. What is known in addition at each
point of a commit or of a recovery is `PhaseInv`. Operations are kept whole by `OpInv`: all the
writes of one operation enter the same group, because no operation is outstanding when a group is
closed.
-/

namespace Xv6.Log

open Function

/-- The writes of operations, as writes to a store. -/
def writes (ws : List Write) : List (ℕ × Block) :=
  ws.map fun w ↦ (w.block, w.data)

/-- The store `H` after the writes of the given groups. -/
def replay (H : Disk) (groups : List (List Write)) : Disk :=
  overlay (writes groups.flatten) H

theorem replay_concat (H : Disk) (groups : List (List Write)) (g : List Write) :
    replay H (groups ++ [g]) = overlay (writes g) (replay H groups) := by
  rw [replay, replay, List.flatten_append, writes, List.map_append, Overlay.overlay_append,
    List.flatten_singleton]
  rfl

namespace Sys

/-- No process is in an operation. -/
structure Idle (s : Sys) : Prop where
  /-- No process is between `begin_op` and `end_op`. -/
  op : ∀ p, s.op p = none
  pending : s.pending = []

variable (sb : Superblock)

/-- The first `tail` entries of the log have been written to their home blocks. -/
def Installed (s : Sys) (tail : ℕ) : Prop :=
  ∀ i b, i < tail → s.log.lh[i]? = some b → s.disk b = s.disk (sb.logstart + i + 1)

/-- What is known at each point of a commit or of recovery. -/
def PhaseInv (s : Sys) : Prop :=
  match s.phase with
  | .running =>
    s.log.committing = false ∧ s.log.lh.length ≤ LOGSIZE ∧ readHead (s.disk sb.logstart) = []
  | .writeLog tail =>
    s.log.committing = true ∧ s.log.lh.length ≤ LOGSIZE ∧ readHead (s.disk sb.logstart) = [] ∧
      s.Idle ∧ tail ≤ s.log.lh.length ∧
      ∀ i b, i < tail → s.log.lh[i]? = some b → s.disk (sb.logstart + i + 1) = s.bread b
  | .install tail =>
    s.log.committing = true ∧ readHead (s.disk sb.logstart) = s.log.lh ∧ s.Idle ∧
      s.current = [] ∧ s.Installed sb tail
  | .committed =>
    s.log.committing = true ∧ s.log.lh = [] ∧ readHead (s.disk sb.logstart) = [] ∧ s.Idle ∧
      s.current = []
  | .recover tail =>
    s.log.committing = false ∧ readHead (s.disk sb.logstart) = s.log.lh ∧ s.Idle ∧
      s.current = [] ∧ s.Installed sb tail

/-- The invariant of the log machine that started from the home blocks `H`. -/
structure Inv (H : Disk) (s : Sys) : Prop where
  size_eq : s.log.size = sb.nlog
  /-- `log.outstanding` counts the operations. -/
  active : ∃ A : Finset ℕ, (∀ p, s.op p ≠ none ↔ p ∈ A) ∧ s.log.outstanding = A.card
  pending_op : ∀ w ∈ s.pending, s.op w.1 ≠ none
  pending_home : ∀ w ∈ s.pending, Home sb w.2
  lh_nodup : s.log.lh.Nodup
  lh_home : ∀ b ∈ s.log.lh, Home sb b
  lh_fits : s.log.lh.length + 1 ≤ sb.nlog
  /-- A block written since the last commit is in the log, or on its way there. -/
  current_inUse : ∀ w ∈ s.current, s.InUse w.block
  /-- A block that is not in use is the same in the cache and on disk. -/
  clean : ∀ b, ¬s.InUse b → s.bread b = s.disk b
  recoverable : Recoverable sb s.disk (replay H s.groups)
  /-- The cache shows the committed groups and the writes since. -/
  view : (∀ tail, s.phase ≠ .recover tail) → ∀ b, Home sb b →
    s.bread b = overlay (writes s.current) (replay H s.groups) b
  phase : s.PhaseInv sb

variable {sb} {H : Disk} {s t : Sys}

theorem bread_bwrite (s : Sys) (b : ℕ) (v : Block) (x : ℕ) :
    (s.bwrite b v).bread x = if x = b then v else s.bread x := by
  show (update s.cache b (some v) x).getD (update s.disk b v x) = _
  rw [update_apply, update_apply]
  split <;> rfl

variable {b tail p o : ℕ} {log : Log} {d : Disk}

theorem inUse_home (h : Inv sb H s) (hb : s.InUse b) : Home sb b := by
  rcases hb with hb | ⟨w, hw, rfl⟩
  · apply h.lh_home
    unfold dirty at hb
    split at hb
    · exact List.mem_of_mem_drop hb
    · cases hb
    · exact hb
  · exact h.pending_home w hw

/-- A block of the log area is the same in the cache and on disk. -/
theorem bread_logBlock (h : Inv sb H s) {i : ℕ} (hi : i + 1 < sb.nlog) :
    s.bread (sb.logstart + i + 1) = s.disk (sb.logstart + i + 1) :=
  h.clean _ fun hb ↦ (inUse_home h hb).ne_logBlock hi rfl

theorem dirty_install (h : s.phase = .install tail) : s.dirty = s.log.lh.drop tail := by
  rw [dirty, h]

theorem dirty_recover (h : s.phase = .recover tail) : s.dirty = [] := by
  rw [dirty, h]

theorem inUse_of_idle (hidle : s.Idle) : s.InUse b ↔ b ∈ s.dirty := by
  simp [InUse, hidle.pending]

theorem current_inUse_nil (h : s.current = []) : ∀ w ∈ s.current, s.InUse w.block := by
  intro w hw
  rw [h] at hw
  cases hw

/-- During recovery no block is in use: the cache holds nothing the disk does not. -/
theorem clean_of_recover (h : Inv sb H s) (hidle : s.Idle) (hph : s.phase = .recover tail) (x : ℕ) :
    s.bread x = s.disk x := by
  refine h.clean x fun hx ↦ ?_
  rw [inUse_of_idle hidle, dirty_recover hph] at hx
  cases hx

/-- An operation is outstanding only while the machine is `running`. -/
theorem phase_running_of_op (h : Inv sb H s) (hp : s.op p = some o) : s.phase = .running := by
  have hp : s.op p ≠ none := by simp [hp]
  have hph := h.phase
  unfold PhaseInv at hph
  split at hph
  next hr => exact hr
  · exact absurd (hph.2.2.2.1.op p) hp
  · exact absurd (hph.2.2.1.op p) hp
  · exact absurd (hph.2.2.2.1.op p) hp
  · exact absurd (hph.2.2.1.op p) hp

theorem phaseInv_running (h : Inv sb H s) (hr : s.phase = .running) :
    s.log.committing = false ∧ s.log.lh.length ≤ LOGSIZE ∧ readHead (s.disk sb.logstart) = [] := by
  have hph := h.phase
  rwa [PhaseInv, hr] at hph

theorem not_recover_of_running (hr : s.phase = .running) : ∀ tail, s.phase ≠ .recover tail := by
  intro tail ht
  rw [hr] at ht
  cases ht

/-! ### The steps of operations -/

theorem Inv.beginOp (h : Inv sb H s) (hp : s.op p = none) (hrec : ∀ tail, s.phase ≠ .recover tail)
    (hlog : s.log.beginOp = some log) : Inv sb H { s with
      log := log, op := update s.op p (some s.nextId), nextId := s.nextId + 1 } := by
  obtain ⟨hc, -, rfl⟩ := beginOp_eq_some hlog
  have hr : s.phase = .running := by
    have hph := h.phase
    unfold PhaseInv at hph
    split at hph
    next hr => exact hr
    · exact absurd hph.1 (by simp [hc])
    · exact absurd hph.1 (by simp [hc])
    · exact absurd hph.1 (by simp [hc])
    next hr => exact absurd hr (hrec _)
  obtain ⟨A, hA, hout⟩ := h.active
  have hpA : p ∉ A := fun hmem ↦ (hA p).2 hmem hp
  exact
    { h with
      active := by
        refine ⟨insert p A, fun q ↦ ?_, ?_⟩
        · by_cases hq : q = p
          · simp [hq]
          · simp [hA q, hq]
        · rw [hout, Finset.card_insert_of_notMem hpA]
          rfl
      pending_op := by
        intro w hw
        by_cases hq : w.1 = p
        · simp [hq]
        · simpa [update_of_ne hq] using h.pending_op w hw
      phase := by
        have hph := phaseInv_running h hr
        simp only [PhaseInv, hr]
        exact hph }

theorem Inv.modify (h : Inv sb H s) (hp : s.op p = some o) (hb : Home sb b) (v : Block) :
    Inv sb H (s.modified p o b v) := by
  have hr : s.phase = .running := phase_running_of_op h hp
  have hbread : ∀ x, (s.modified p o b v).bread x = if x = b then v else s.bread x := by
    intro x
    show (update s.cache b (some v) x).getD (s.disk x) = _
    rw [update_apply]
    split <;> rfl
  have huse : ∀ x, (s.modified p o b v).InUse x ↔ s.InUse x ∨ x = b := by
    intro x
    show (x ∈ s.dirty ∨ ∃ w ∈ (p, b) :: s.pending, w.2 = x) ↔ _
    simp only [InUse, List.mem_cons, exists_eq_or_imp, eq_comm (a := b)]
    exact (or_congr_right or_comm).trans or_assoc.symm
  exact
    { h with
      pending_op := by
        intro w hw
        rcases List.mem_cons.1 hw with rfl | hw
        · show s.op p ≠ none
          simp [hp]
        · exact h.pending_op w hw
      pending_home := by
        intro w hw
        rcases List.mem_cons.1 hw with rfl | hw
        · exact hb
        · exact h.pending_home w hw
      current_inUse := by
        intro w hw
        rw [huse]
        rcases List.mem_append.1 hw with hw | hw
        · exact .inl (h.current_inUse w hw)
        · rw [List.mem_singleton.1 hw]
          exact .inr rfl
      clean := by
        intro x hx
        rw [huse, not_or] at hx
        rw [hbread, if_neg hx.2]
        exact h.clean x hx.1
      view := by
        intro _ x hx
        have hview := h.view (not_recover_of_running hr) x hx
        rw [hbread, writes, modified, List.map_append, List.map_singleton, Overlay.overlay_concat,
          update_apply, hview]
        rfl
      phase := by
        have hph := phaseInv_running h hr
        rw [PhaseInv, show (s.modified p o b v).phase = _ from hr]
        exact hph }

theorem Inv.logWrite (h : Inv sb H s) (hp : s.op p = some o) (hb : Home sb b)
    (hlog : s.log.logWrite b = .ok log) :
    Inv sb H { s with log := log, pending := s.pending.filter fun w ↦ w ≠ (p, b) } := by
  have hr : s.phase = .running := phase_running_of_op h hp
  obtain ⟨hn, hsize, -, rfl⟩ := logWrite_eq_ok hlog
  rw [h.size_eq] at hsize
  have hlen := length_absorb_le s.log.lh b
  have hmono : ∀ x, s.InUse x →
      Sys.InUse { s with
        log := { s.log with lh := absorb s.log.lh b }
        pending := s.pending.filter fun w ↦ w ≠ (p, b) } x := by
    intro x hx
    simp only [InUse, dirty, hr] at hx ⊢
    rw [mem_absorb]
    rcases hx with hx | ⟨w, hw, hwx⟩
    · exact .inl (.inl hx)
    · by_cases hwp : w = (p, b)
      · exact .inl (.inr (by rw [← hwx, hwp]))
      · exact .inr ⟨w, List.mem_filter.2 ⟨hw, by simpa using hwp⟩, hwx⟩
  exact
    { h with
      pending_op := fun w hw ↦ h.pending_op w (List.mem_of_mem_filter hw)
      pending_home := fun w hw ↦ h.pending_home w (List.mem_of_mem_filter hw)
      lh_nodup := nodup_absorb h.lh_nodup
      lh_home := by
        intro x hx
        rcases mem_absorb.1 hx with hx | rfl
        · exact h.lh_home x hx
        · exact hb
      lh_fits := by
        show (absorb s.log.lh b).length + 1 ≤ sb.nlog
        omega
      current_inUse := fun w hw ↦ hmono _ (h.current_inUse w hw)
      clean := fun x hx ↦ h.clean x fun hs ↦ hx (hmono x hs)
      phase := by
        have hph := phaseInv_running h hr
        simp only [PhaseInv, hr]
        refine ⟨hph.1, ?_, hph.2.2⟩
        omega }

theorem Inv.endOp (h : Inv sb H s) (hp : s.op p = some o) (hpend : ¬∃ w ∈ s.pending, w.1 = p)
    (hlog : s.log.endOp = .ok log) : Inv sb H { s with
      log := log, op := update s.op p none, phase := phaseAfterEnd log } := by
  have hr : s.phase = .running := phase_running_of_op h hp
  have hph := phaseInv_running h hr
  obtain ⟨-, rfl⟩ := endOp_eq_ok hlog
  obtain ⟨A, hA, hout⟩ := h.active
  have hpA : p ∈ A := (hA p).1 (by simp [hp])
  have hcard := Finset.card_erase_of_mem hpA
  have hpos : 0 < A.card := Finset.card_pos.2 ⟨p, hpA⟩
  set t : Sys := { s with
      log := { s.log with
        outstanding := s.log.outstanding - 1, committing := decide (s.log.outstanding = 1) }
      op := update s.op p none
      phase := phaseAfterEnd { s.log with
        outstanding := s.log.outstanding - 1, committing := decide (s.log.outstanding = 1) } }
    with ht
  have hphase : t.phase = .running ∨
      s.log.outstanding = 1 ∧ (t.phase = .writeLog 0 ∨ t.phase = .committed ∧ s.log.lh = []) := by
    simp only [ht, phaseAfterEnd, decide_eq_true_eq]
    split
    next ho =>
      refine .inr ⟨ho, ?_⟩
      split
      · exact .inl rfl
      next hlen => exact .inr ⟨rfl, List.length_eq_zero_iff.1 (by omega)⟩
    · exact .inl rfl
  have hdirty : t.dirty = s.dirty := by
    have hs : s.dirty = s.log.lh := by rw [dirty, hr]
    rw [hs]
    rcases hphase with hp | ⟨-, hp | ⟨hp, -⟩⟩ <;> rw [dirty, hp]
  have huse : ∀ x, t.InUse x ↔ s.InUse x := by
    intro x
    rw [InUse, InUse, hdirty]
  -- the last operation leaves no process in an operation
  have hidle : s.log.outstanding = 1 → t.Idle := by
    intro ho
    have hA1 : A = {p} := by
      obtain ⟨q, hq⟩ := Finset.card_eq_one.1 (show A.card = 1 by omega)
      rw [hq] at hpA ⊢
      rw [Finset.mem_singleton.1 hpA]
    constructor
    · intro q
      by_cases hq : q = p
      · simp [ht, hq]
      · have : q ∉ A := by simpa [hA1] using hq
        rw [← hA q, not_not] at this
        simp [ht, update_of_ne hq, this]
    · rw [List.eq_nil_iff_forall_not_mem]
      intro w hw
      have hwA := (hA w.1).1 (h.pending_op w hw)
      rw [hA1, Finset.mem_singleton] at hwA
      exact hpend ⟨w, hw, hwA⟩
  exact
    { h with
      active := by
        refine ⟨A.erase p, fun q ↦ ?_, ?_⟩
        · by_cases hq : q = p
          · simp [ht, hq]
          · simp [ht, hA q, hq]
        · show s.log.outstanding - 1 = _
          omega
      pending_op := by
        intro w hw
        have hq : w.1 ≠ p := fun hq ↦ hpend ⟨w, hw, hq⟩
        simpa [ht, update_of_ne hq] using h.pending_op w hw
      current_inUse := fun w hw ↦ (huse _).2 (h.current_inUse w hw)
      clean := fun x hx ↦ h.clean x fun hs ↦ hx ((huse x).2 hs)
      view := fun _ ↦ h.view (not_recover_of_running hr)
      phase := by
        rcases hphase with hp | ⟨ho, hp | ⟨hp, hnil⟩⟩
        · have hne : s.log.outstanding ≠ 1 := by
            intro ho
            simp only [ht, phaseAfterEnd, decide_eq_true_eq, if_pos ho] at hp
            split at hp <;> cases hp
          rw [PhaseInv, hp]
          exact ⟨decide_eq_false hne, hph.2⟩
        · rw [PhaseInv, hp]
          exact ⟨decide_eq_true ho, hph.2.1, hph.2.2, hidle ho, Nat.zero_le _,
            fun i _ hi ↦ absurd hi (Nat.not_lt_zero i)⟩
        · rw [PhaseInv, hp]
          refine ⟨decide_eq_true ho, hnil, hph.2.2, hidle ho, ?_⟩
          rw [List.eq_nil_iff_forall_not_mem]
          intro w hw
          have huw := (huse _).2 (h.current_inUse w hw)
          rw [inUse_of_idle (hidle ho), dirty, hp] at huw
          exact absurd huw (by simp [ht, hnil]) }

/-! ### The disk writes of a commit and of recovery -/

/-- An entry of a recoverable log holds the contents of its home block. -/
theorem recoverable_entry {K : Disk} (h : Recoverable sb d K) {i : ℕ}
    (hi : (readHead (d sb.logstart))[i]? = some b) : K b = d (sb.logstart + i + 1) := by
  have hb : Home sb b := h.home b (List.mem_of_getElem? hi)
  have hw : (b, d (sb.logstart + i + 1)) ∈ logEntries sb d 0 (readHead (d sb.logstart)) :=
    mem_logEntries.2 ⟨i, hi, rfl⟩
  rw [← h.eq b hb]
  refine Overlay.overlay_of_mem hw fun v hv hvb ↦ ?_
  obtain ⟨j, hj, hjv⟩ := mem_logEntries.1 hv
  have hji : j = i := by
    rw [← List.getElem?_inj (List.getElem?_eq_some_iff.1 hj).1 h.nodup, hj, hi, hvb]
  rw [← hjv, hji]

section

variable (h : Inv sb H s)

include h

theorem Inv.writeLogBlock (hph : s.phase = .writeLog tail) (hb : s.log.lh[tail]? = some b) :
    Inv sb H { s.bwrite (sb.logstart + tail + 1) (s.bread b) with
      phase := .writeLog (tail + 1) } := by
  have hinv := h.phase
  rw [PhaseInv, hph] at hinv
  obtain ⟨hc, hlen, hnil, hidle, -, hcopied⟩ := hinv
  have hlt : tail < s.log.lh.length := (List.getElem?_eq_some_iff.1 hb).1
  have hfits := h.lh_fits
  set t : Sys := { s.bwrite (sb.logstart + tail + 1) (s.bread b) with
    phase := .writeLog (tail + 1) } with ht
  have hbread : ∀ x, Home sb x → t.bread x = s.bread x := fun x hx ↦ by
    have := s.bread_bwrite (sb.logstart + tail + 1) (s.bread b) x
    rwa [if_neg (hx.ne_logBlock (by omega))] at this
  have huse : ∀ x, t.InUse x ↔ s.InUse x := by
    intro x
    simp only [InUse, dirty, ht, hph]
    rfl
  exact
    { h with
      current_inUse := fun w hw ↦ (huse _).2 (h.current_inUse w hw)
      clean := by
        intro x hx
        rw [huse] at hx
        show (s.bwrite _ _).bread x = update s.disk _ _ x
        rw [bread_bwrite, update_apply, h.clean x hx]
      recoverable := h.recoverable.writeLog hnil (by omega) _
      view := by
        intro _ x hx
        rw [hbread x hx]
        exact h.view (by simp [hph]) x hx
      phase := by
        refine ⟨hc, hlen, ?_, ⟨hidle.op, hidle.pending⟩, hlt, fun i c hi hic ↦ ?_⟩
        · show readHead (update s.disk _ _ sb.logstart) = []
          rwa [update_of_ne (by omega)]
        · have hchome : Home sb c := h.lh_home c (List.mem_of_getElem? hic)
          rw [hbread c hchome]
          show update s.disk (sb.logstart + tail + 1) (s.bread b) (sb.logstart + i + 1) = _
          by_cases hit : i = tail
          · rw [hit, update_self, Option.mem_unique hb (hit ▸ hic)]
          · rw [update_of_ne (by omega), hcopied i c (by omega) hic] }

/-- The commit point: the header reaches the disk, and the writes since the last commit become a
group. -/
theorem Inv.commitHead (hph : s.phase = .writeLog tail) (hb : s.log.lh[tail]? = none) :
    Inv sb H { s.bwrite sb.logstart (Log.writeHead (s.bread sb.logstart) s.log.lh) with
      phase := .install 0
      current := []
      groups := s.groups ++ [s.current] } := by
  have hinv := h.phase
  rw [PhaseInv, hph] at hinv
  obtain ⟨hc, hlen, hnil, hidle, hle, hcopied⟩ := hinv
  have hge : s.log.lh.length ≤ tail := List.getElem?_eq_none_iff.1 hb
  have hfits := h.lh_fits
  have hview := h.view (by simp [hph])
  set t : Sys := { s.bwrite sb.logstart (Log.writeHead (s.bread sb.logstart) s.log.lh) with
      phase := .install 0
      current := []
      groups := s.groups ++ [s.current] } with ht
  have hbread : ∀ x, Home sb x → t.bread x = s.bread x := fun x hx ↦ by
    have := s.bread_bwrite sb.logstart (Log.writeHead (s.bread sb.logstart) s.log.lh) x
    rwa [if_neg (hx.ne_logstart (by omega))] at this
  have huse : ∀ x, t.InUse x ↔ s.InUse x := by
    intro x
    simp only [InUse, dirty, ht, hph, List.drop_zero]
    rfl
  have hdirty : s.dirty = s.log.lh := by rw [dirty, hph]
  have hrec : Recoverable sb t.disk (replay H (s.groups ++ [s.current])) := by
    refine h.recoverable.writeHead hnil ?_ hfits h.lh_home h.lh_nodup ?_ ?_
    · have : LOGSIZE < NINDIRECT := by decide
      omega
    · intro i c hic
      have hlt : i < s.log.lh.length := (List.getElem?_eq_some_iff.1 hic).1
      rw [hcopied i c (by omega) hic, hview c (h.lh_home c (List.mem_of_getElem? hic)),
        replay_concat]
    · intro c hchome hcmem
      rw [replay_concat, ← hview c hchome, h.clean c, h.recoverable.eq_of_readHead_nil hnil hchome]
      rwa [inUse_of_idle hidle, hdirty]
  exact
    { h with
      current_inUse := nofun
      clean := by
        intro x hx
        rw [huse] at hx
        show (s.bwrite _ _).bread x = update s.disk _ _ x
        rw [bread_bwrite, update_apply, h.clean x hx]
      recoverable := hrec
      view := by
        intro _ x hx
        rw [hbread x hx, hview x hx]
        show _ = overlay [] (replay H (s.groups ++ [s.current])) x
        rw [Overlay.overlay_nil, replay_concat]
      phase := by
        refine ⟨hc, ?_, ⟨hidle.op, hidle.pending⟩, rfl, fun i c hi ↦ absurd hi (Nat.not_lt_zero i)⟩
        show readHead (update s.disk _ _ sb.logstart) = s.log.lh
        rw [update_self]
        refine readHead_writeHead ?_ fun c hc ↦ (h.lh_home c hc).lt
        have : LOGSIZE < NINDIRECT := by decide
        omega }

/-- Writing entry `tail` home, in a commit or in recovery: what both have in common. -/
theorem installed_bwrite (hread : readHead (s.disk sb.logstart) = s.log.lh)
    (hinst : s.Installed sb tail) (hb : s.log.lh[tail]? = some b) :
    (∀ i c, i < tail + 1 → s.log.lh[i]? = some c → update s.disk b (s.disk (sb.logstart + tail + 1)) c =
        update s.disk b (s.disk (sb.logstart + tail + 1)) (sb.logstart + i + 1)) ∧
    readHead (update s.disk b (s.disk (sb.logstart + tail + 1)) sb.logstart) = s.log.lh := by
  have hfits := h.lh_fits
  have hbhome : Home sb b := h.lh_home b (List.mem_of_getElem? hb)
  constructor
  · intro i c hi hc
    have hlt : i < s.log.lh.length := (List.getElem?_eq_some_iff.1 hc).1
    rw [update_of_ne (Ne.symm (hbhome.ne_logBlock (by omega)))]
    by_cases hcb : c = b
    · have hit : i = tail := by
        rw [← List.getElem?_inj hlt h.lh_nodup, hc, hb, hcb]
      rw [hcb, update_self, hit]
    · have hit : i ≠ tail := fun hit ↦ hcb (Option.mem_unique hc (hit ▸ hb))
      rw [update_of_ne hcb, hinst i c (by omega) hc]
  · rwa [update_of_ne (Ne.symm (hbhome.ne_logstart (by omega)))]

theorem Inv.installBlock (hph : s.phase = .install tail) (hb : s.log.lh[tail]? = some b) :
    Inv sb H { s.bwrite b (s.bread (sb.logstart + tail + 1)) with
      phase := .install (tail + 1) } := by
  have hinv := h.phase
  rw [PhaseInv, hph] at hinv
  obtain ⟨hc, hread, hidle, hcur, hinst⟩ := hinv
  have hlt : tail < s.log.lh.length := (List.getElem?_eq_some_iff.1 hb).1
  have hfits := h.lh_fits
  have hentry := recoverable_entry h.recoverable (hread ▸ hb)
  rw [bread_logBlock h (by omega)]
  obtain ⟨hinst', hread'⟩ := installed_bwrite h hread hinst hb
  set t : Sys := { s.bwrite b (s.disk (sb.logstart + tail + 1)) with
    phase := .install (tail + 1) } with ht
  have hbread : ∀ x, t.bread x = if x = b then s.disk (sb.logstart + tail + 1) else s.bread x :=
    s.bread_bwrite b _
  have hidle' : t.Idle := ⟨hidle.op, hidle.pending⟩
  exact
    { h with
      current_inUse := current_inUse_nil hcur
      clean := by
        intro x hx
        rw [inUse_of_idle hidle'] at hx
        rw [hbread]
        show _ = update s.disk b _ x
        rw [update_apply]
        split
        · rfl
        next hxb =>
          refine h.clean x fun hs ↦ hx ?_
          rw [inUse_of_idle hidle, dirty_install hph, List.drop_eq_getElem_cons hlt,
            List.mem_cons] at hs
          rcases hs with hs | hs
          · rw [List.getElem?_eq_getElem hlt] at hb
            exact absurd (hs.trans (Option.some.inj hb)) hxb
          · exact hs
      recoverable := h.recoverable.install (hread ▸ hb)
      view := by
        intro _ x hx
        have hview := h.view (by simp [hph]) x hx
        rw [hcur] at hview
        show t.bread x = overlay (writes s.current) (replay H s.groups) x
        rw [hbread, hcur]
        split
        next hxb => rw [hxb, ← hentry]; rfl
        · exact hview
      phase := ⟨hc, hread', hidle', hcur, hinst'⟩ }

/-- Erasing the header, in a commit or in recovery, when all entries of the log are at home. -/
theorem Inv.clear {ph : Phase} (hread : readHead (s.disk sb.logstart) = s.log.lh) (hcur : s.current = [])
    (hinst : s.Installed sb tail) (hb : s.log.lh[tail]? = none) (hclean : ∀ x, s.bread x = s.disk x)
    (ht : t = { s.bwrite sb.logstart (Log.writeHead (s.bread sb.logstart) []) with
      phase := ph
      log := { s.log with lh := [] } })
    (hphase : readHead (t.disk sb.logstart) = [] → t.PhaseInv sb) : Inv sb H t := by
  have hge : s.log.lh.length ≤ tail := List.getElem?_eq_none_iff.1 hb
  have hfits := h.lh_fits
  subst ht
  set t : Sys := { s.bwrite sb.logstart (Log.writeHead (s.bread sb.logstart) []) with
      phase := ph
      log := { s.log with lh := [] } } with ht
  have hclean' : ∀ x, t.bread x = t.disk x := by
    intro x
    show (s.bwrite _ _).bread x = update s.disk _ _ x
    rw [bread_bwrite, update_apply, hclean x]
  have hnil : readHead (t.disk sb.logstart) = [] := by
    show readHead (update s.disk _ _ sb.logstart) = []
    rw [update_self, readHead_writeHead_nil]
  have hrec : Recoverable sb t.disk (replay H s.groups) := by
    refine h.recoverable.clearHead (fun i c hic ↦ ?_) _
    rw [hread] at hic
    exact hinst i c (by have := (List.getElem?_eq_some_iff.1 hic).1; omega) hic
  exact
    { h with
      lh_nodup := List.nodup_nil
      lh_home := nofun
      lh_fits := by
        show 0 + 1 ≤ sb.nlog
        omega
      current_inUse := current_inUse_nil hcur
      clean := fun x _ ↦ hclean' x
      recoverable := hrec
      view := by
        intro _ x hx
        show t.bread x = overlay (writes s.current) (replay H s.groups) x
        rw [hclean', hrec.eq_of_readHead_nil hnil hx, hcur]
        rfl
      phase := hphase hnil }

theorem Inv.commitClear (hph : s.phase = .install tail) (hb : s.log.lh[tail]? = none) :
    Inv sb H { s.bwrite sb.logstart (Log.writeHead (s.bread sb.logstart) []) with
      phase := .committed
      log := { s.log with lh := [] } } := by
  have hinv := h.phase
  rw [PhaseInv, hph] at hinv
  obtain ⟨hc, hread, hidle, hcur, hinst⟩ := hinv
  refine h.clear hread hcur hinst hb (fun x ↦ h.clean x fun hx ↦ ?_) rfl fun hnil ↦
    ⟨hc, rfl, hnil, ⟨hidle.op, hidle.pending⟩, hcur⟩
  rw [inUse_of_idle hidle, dirty_install hph,
    List.drop_eq_nil_of_le (List.getElem?_eq_none_iff.1 hb)] at hx
  cases hx

theorem Inv.committed (hph : s.phase = .committed) :
    Inv sb H { s with phase := .running, log := { s.log with committing := false } } := by
  have hinv := h.phase
  rw [PhaseInv, hph] at hinv
  obtain ⟨hc, hlh, hnil, hidle, hcur⟩ := hinv
  have huse : ∀ x, Sys.InUse { s with
      phase := .running, log := { s.log with committing := false } } x ↔ s.InUse x := by
    intro x
    simp only [InUse, dirty, hph]
  exact
    { h with
      current_inUse := fun w hw ↦ (huse _).2 (h.current_inUse w hw)
      clean := fun x hx ↦ h.clean x fun hs ↦ hx ((huse x).2 hs)
      view := fun _ ↦ h.view (by simp [hph])
      phase := ⟨rfl, by simp [hlh], hnil⟩ }

theorem Inv.recoverBlock (hph : s.phase = .recover tail) (hb : s.log.lh[tail]? = some b) :
    Inv sb H { s.bwrite b (s.bread (sb.logstart + tail + 1)) with
      phase := .recover (tail + 1) } := by
  have hinv := h.phase
  rw [PhaseInv, hph] at hinv
  obtain ⟨hc, hread, hidle, hcur, hinst⟩ := hinv
  have hlt : tail < s.log.lh.length := (List.getElem?_eq_some_iff.1 hb).1
  have hfits := h.lh_fits
  rw [bread_logBlock h (by omega)]
  obtain ⟨hinst', hread'⟩ := installed_bwrite h hread hinst hb
  set t : Sys := { s.bwrite b (s.disk (sb.logstart + tail + 1)) with
    phase := .recover (tail + 1) } with ht
  have hidle' : t.Idle := ⟨hidle.op, hidle.pending⟩
  have hclean := clean_of_recover h hidle hph
  exact
    { h with
      current_inUse := current_inUse_nil hcur
      clean := by
        intro x _
        show (s.bwrite _ _).bread x = update s.disk _ _ x
        rw [bread_bwrite, update_apply, hclean x]
      recoverable := h.recoverable.install (hread ▸ hb)
      view := fun hne ↦ absurd rfl (hne (tail + 1))
      phase := ⟨hc, hread', hidle', hcur, hinst'⟩ }

theorem Inv.recoverClear (hph : s.phase = .recover tail) (hb : s.log.lh[tail]? = none) :
    Inv sb H { s.bwrite sb.logstart (Log.writeHead (s.bread sb.logstart) []) with
      phase := .running
      log := { s.log with lh := [] } } := by
  have hinv := h.phase
  rw [PhaseInv, hph] at hinv
  obtain ⟨hc, hread, hidle, hcur, hinst⟩ := hinv
  exact h.clear hread hcur hinst hb (clean_of_recover h hidle hph) rfl fun hnil ↦
    ⟨hc, Nat.zero_le _, hnil⟩

theorem Inv.tick (hstep : s.tick sb = some t) : Inv sb H t := by
  unfold Sys.tick at hstep
  split at hstep
  · cases hstep
  next hph =>
    split at hstep
    next hb => exact Option.some.inj hstep ▸ h.writeLogBlock hph hb
    next hb => exact Option.some.inj hstep ▸ h.commitHead hph hb
  next hph =>
    split at hstep
    next hb => exact Option.some.inj hstep ▸ h.installBlock hph hb
    next hb => exact Option.some.inj hstep ▸ h.commitClear hph hb
  next hph => exact Option.some.inj hstep ▸ h.committed hph
  next hph =>
    split at hstep
    next hb => exact Option.some.inj hstep ▸ h.recoverBlock hph hb
    next hb => exact Option.some.inj hstep ▸ h.recoverClear hph hb

end

/-! ### Eviction and crashes -/

theorem Inv.evict (h : Inv sb H s) (hb : ¬s.InUse b) :
    Inv sb H { s with cache := update s.cache b none } := by
  set t : Sys := { s with cache := update s.cache b none } with ht
  -- the buffer was clean, so nobody can tell that it is gone
  have hbread : t.bread = s.bread := by
    funext x
    show (update s.cache b none x).getD (s.disk x) = _
    rw [update_apply]
    split
    next hx => rw [hx, h.clean b hb]; rfl
    · rfl
  have hph := h.phase
  exact
    { h with
      clean := fun x hx ↦ hbread ▸ h.clean x hx
      view := fun hne x hx ↦ hbread ▸ h.view hne x hx
      phase := by
        unfold PhaseInv at hph ⊢
        split
        next hr =>
          simp only [show s.phase = _ from hr] at hph
          exact hph
        next hr =>
          simp only [show s.phase = _ from hr] at hph
          obtain ⟨hc, hlen, hnil, hidle, hle, hcopied⟩ := hph
          refine ⟨hc, hlen, hnil, ⟨hidle.op, hidle.pending⟩, hle, ?_⟩
          rw [hbread]
          exact hcopied
        next hr =>
          simp only [show s.phase = _ from hr] at hph
          exact ⟨hph.1, hph.2.1, ⟨hph.2.2.1.op, hph.2.2.1.pending⟩, hph.2.2.2⟩
        next hr =>
          simp only [show s.phase = _ from hr] at hph
          exact ⟨hph.1, hph.2.1, hph.2.2.1, ⟨hph.2.2.2.1.op, hph.2.2.2.1.pending⟩, hph.2.2.2.2⟩
        next hr =>
          simp only [show s.phase = _ from hr] at hph
          exact ⟨hph.1, hph.2.1, ⟨hph.2.2.1.op, hph.2.2.1.pending⟩, hph.2.2.2⟩ }

/-- A machine that boots on a recoverable disk satisfies the invariant. -/
theorem inv_boot (h : Recoverable sb s.disk (replay H s.groups)) : Inv sb H (s.boot sb) where
  size_eq := rfl
  active := ⟨∅, by simp [boot], rfl⟩
  pending_op := nofun
  pending_home := nofun
  lh_nodup := h.nodup
  lh_home := h.home
  lh_fits := h.fits
  current_inUse := nofun
  clean := fun x _ ↦ rfl
  recoverable := h
  view := fun hne ↦ absurd rfl (hne 0)
  phase := ⟨rfl, rfl, ⟨fun _ ↦ rfl, rfl⟩, rfl, fun i c hi ↦ absurd hi (Nat.not_lt_zero i)⟩

/-- One step of the machine keeps the invariant. -/
theorem Inv.step (h : Inv sb H s) {l : Label} (hstep : s.step sb l = some (.ok t)) : Inv sb H t := by
  have hcase := step_eq_ok sb hstep
  cases l with
  | beginOp p =>
    obtain ⟨log, hp, hrec, hlog, rfl⟩ := hcase
    exact h.beginOp hp hrec hlog
  | modify p b v =>
    obtain ⟨o, hp, hb, rfl⟩ := hcase
    exact h.modify hp hb v
  | logWrite p b =>
    obtain ⟨o, log, hp, hb, hlog, rfl⟩ := hcase
    exact h.logWrite hp hb hlog
  | endOp p =>
    obtain ⟨o, log, hp, hpend, hlog, rfl⟩ := hcase
    exact h.endOp hp hpend hlog
  | tick => exact h.tick hcase
  | evict b =>
    obtain ⟨hb, rfl⟩ := hcase
    exact h.evict hb
  | crash =>
    rw [hcase]
    exact inv_boot h.recoverable

/-! ### Operations stay whole -/

/-- Operation `o` is not over, or some of its writes wait for the next commit. -/
def Open (s : Sys) (o : ℕ) : Prop :=
  (∃ p, s.op p = some o) ∨ ∃ w ∈ s.current, w.op = o

/-- All the writes of an operation enter the same group. -/
structure OpInv (s : Sys) : Prop where
  op_lt : ∀ p o, s.op p = some o → o < s.nextId
  history_lt : ∀ w ∈ s.history, w.op < s.nextId
  /-- The writes of an open operation are all waiting for the next commit. -/
  open_eq : ∀ o, s.Open o →
    (s.current.filter fun w ↦ w.op = o) = s.history.filter fun w ↦ w.op = o
  open_fresh : ∀ o, s.Open o → ∀ g ∈ s.groups, ∀ w ∈ g, w.op ≠ o
  /-- A committed operation is committed with all its writes. -/
  whole : ∀ g ∈ s.groups, ∀ w ∈ g,
    (g.filter fun v ↦ v.op = w.op) = s.history.filter fun v ↦ v.op = w.op
  once : s.groups.Pairwise fun g g' ↦ ∀ w ∈ g, ∀ w' ∈ g', w.op ≠ w'.op

section

variable (h : OpInv s)

include h

theorem OpInv.current_lt {w : Write} (hw : w ∈ s.current) : w.op < s.nextId := by
  have heq := h.open_eq w.op (.inr ⟨w, hw, rfl⟩)
  have hmem : w ∈ s.history.filter fun v ↦ v.op = w.op :=
    heq ▸ List.mem_filter.2 ⟨hw, by simp⟩
  exact h.history_lt w (List.mem_of_mem_filter hmem)

/-- A step that writes nothing and starts and commits nothing keeps the operations whole. -/
theorem OpInv.of_eq (hop : ∀ p o, t.op p = some o → s.op p = some o)
    (hid : t.nextId = s.nextId) (hcur : t.current = s.current) (hgr : t.groups = s.groups)
    (hhist : t.history = s.history) : OpInv t := by
  have hopen : ∀ o, t.Open o → s.Open o := by
    rintro o (⟨p, hp⟩ | ⟨w, hw, hwo⟩)
    · exact .inl ⟨p, hop p o hp⟩
    · exact .inr ⟨w, hcur ▸ hw, hwo⟩
  exact
    { op_lt := fun p o hp ↦ hid ▸ h.op_lt p o (hop p o hp)
      history_lt := by rw [hhist, hid]; exact h.history_lt
      open_eq := by rw [hcur, hhist]; exact fun o ho ↦ h.open_eq o (hopen o ho)
      open_fresh := by rw [hgr]; exact fun o ho ↦ h.open_fresh o (hopen o ho)
      whole := by rw [hgr, hhist]; exact h.whole
      once := by rw [hgr]; exact h.once }

theorem OpInv.beginOp (p : ℕ) (log : Log) :
    OpInv { s with
      log := log, op := update s.op p (some s.nextId), nextId := s.nextId + 1 } := by
  have hopen : ∀ o, Open { s with
      log := log, op := update s.op p (some s.nextId), nextId := s.nextId + 1 } o →
      s.Open o ∨ o = s.nextId := by
    rintro o (⟨q, hq⟩ | hw)
    · by_cases hqp : q = p
      · rw [hqp] at hq
        simp only [update_self, Option.some.injEq] at hq
        exact .inr hq.symm
      · simp only [update_of_ne hqp] at hq
        exact .inl (.inl ⟨q, hq⟩)
    · exact .inl (.inr hw)
  -- the new identity occurs nowhere yet
  have hnew : ∀ ws : List Write, (∀ w ∈ ws, w.op < s.nextId) →
      (ws.filter fun w ↦ w.op = s.nextId) = [] := by
    intro ws hws
    rw [List.filter_eq_nil_iff]
    intro w hw
    have := hws w hw
    simp only [decide_eq_true_eq]
    omega
  exact
    { op_lt := by
        intro q o hq
        show o < s.nextId + 1
        rcases hopen o (.inl ⟨q, hq⟩) with (⟨r, hr⟩ | ⟨w, hw, hwo⟩) | ho
        · have := h.op_lt r o hr
          omega
        · have := h.current_lt hw
          omega
        · omega
      history_lt := fun w hw ↦ Nat.lt_succ_of_lt (h.history_lt w hw)
      open_eq := by
        intro o ho
        rcases hopen o ho with ho | rfl
        · exact h.open_eq o ho
        · exact (hnew _ fun w hw ↦ h.current_lt hw).trans (hnew _ h.history_lt).symm
      open_fresh := by
        intro o ho g hg w hw
        rcases hopen o ho with ho | rfl
        · exact h.open_fresh o ho g hg w hw
        · have hmem : w ∈ s.history.filter fun v ↦ v.op = w.op :=
            h.whole g hg w hw ▸ List.mem_filter.2 ⟨hw, by simp⟩
          exact Nat.ne_of_lt (h.history_lt w (List.mem_of_mem_filter hmem))
      whole := h.whole
      once := h.once }

theorem OpInv.modify (hp : s.op p = some o) (b : ℕ) (v : Block) : OpInv (s.modified p o b v) := by
  have ho : s.Open o := Or.inl ⟨p, hp⟩
  have hopen : ∀ q, (s.modified p o b v).Open q → s.Open q := by
    rintro q (hq | ⟨w, hw, hwq⟩)
    · exact .inl hq
    · rcases List.mem_append.1 hw with hw | hw
      · exact .inr ⟨w, hw, hwq⟩
      · rw [List.mem_singleton.1 hw] at hwq
        exact hwq ▸ ho
  exact
    { op_lt := h.op_lt
      history_lt := by
        intro w hw
        rcases List.mem_append.1 hw with hw | hw
        · exact h.history_lt w hw
        · rw [List.mem_singleton.1 hw]
          exact h.op_lt p o hp
      open_eq := by
        intro q hq
        simp only [modified, List.filter_append]
        rw [h.open_eq q (hopen q hq)]
      open_fresh := fun q hq ↦ h.open_fresh q (hopen q hq)
      whole := by
        intro g hg w hw
        have hne : o ≠ w.op := Ne.symm (h.open_fresh o ho g hg w hw)
        simp only [modified, List.filter_append]
        rw [h.whole g hg w hw, List.filter_singleton]
        simp [hne]
      once := h.once }

/-- The commit point closes the group when no operation is running. -/
theorem OpInv.commitHead (hidle : s.Idle) (hcur : t.current = [])
    (hgr : t.groups = s.groups ++ [s.current]) (hhist : t.history = s.history)
    (hop : t.op = s.op) (hid : t.nextId = s.nextId) : OpInv t := by
  have hopen : ∀ o, ¬t.Open o := by
    rintro o (⟨p, hp⟩ | ⟨w, hw, -⟩)
    · rw [hop, hidle.op p] at hp
      cases hp
    · rw [hcur] at hw
      exact List.not_mem_nil hw
  exact
    { op_lt := by rw [hop, hid]; exact h.op_lt
      history_lt := by rw [hhist, hid]; exact h.history_lt
      open_eq := fun o ho ↦ absurd ho (hopen o)
      open_fresh := fun o ho ↦ absurd ho (hopen o)
      whole := by
        rw [hgr, hhist]
        intro g hg w hw
        rcases List.mem_append.1 hg with hg | hg
        · exact h.whole g hg w hw
        · rw [List.mem_singleton.1 hg] at hw ⊢
          exact h.open_eq w.op (.inr ⟨w, hw, rfl⟩)
      once := by
        rw [hgr, List.pairwise_append]
        refine ⟨h.once, List.pairwise_singleton _ _, fun g hg g' hg' w hw w' hw' ↦ ?_⟩
        rw [List.mem_singleton.1 hg'] at hw'
        exact h.open_fresh w'.op (.inr ⟨w', hw', rfl⟩) g hg w hw }

theorem OpInv.tick (hi : Inv sb H s) (hstep : s.tick sb = some t) : OpInv t := by
  unfold Sys.tick at hstep
  split at hstep
  · cases hstep
  next hph =>
    have hinv := hi.phase
    rw [PhaseInv, hph] at hinv
    split at hstep
    · exact Option.some.inj hstep ▸ h.of_eq (fun _ _ hp ↦ hp) rfl rfl rfl rfl
    · exact Option.some.inj hstep ▸ h.commitHead hinv.2.2.2.1 rfl rfl rfl rfl rfl
  · split at hstep <;>
      exact Option.some.inj hstep ▸ h.of_eq (fun _ _ hp ↦ hp) rfl rfl rfl rfl
  · exact Option.some.inj hstep ▸ h.of_eq (fun _ _ hp ↦ hp) rfl rfl rfl rfl
  · split at hstep <;>
      exact Option.some.inj hstep ▸ h.of_eq (fun _ _ hp ↦ hp) rfl rfl rfl rfl

theorem OpInv.boot : OpInv (s.boot sb) where
  op_lt := nofun
  history_lt := h.history_lt
  open_eq := by
    rintro o (⟨p, hp⟩ | ⟨w, hw, -⟩)
    · cases hp
    · cases hw
  open_fresh := by
    rintro o (⟨p, hp⟩ | ⟨w, hw, -⟩)
    · cases hp
    · cases hw
  whole := h.whole
  once := h.once

/-- One step of the machine keeps the operations whole. -/
theorem OpInv.step (hi : Inv sb H s) {l : Label} (hstep : s.step sb l = some (.ok t)) : OpInv t := by
  have hcase := step_eq_ok sb hstep
  cases l with
  | beginOp p =>
    obtain ⟨log, -, -, -, rfl⟩ := hcase
    exact h.beginOp p log
  | modify p b v =>
    obtain ⟨o, hp, -, rfl⟩ := hcase
    exact h.modify hp b v
  | logWrite p b =>
    obtain ⟨o, log, -, -, -, rfl⟩ := hcase
    exact h.of_eq (fun _ _ hp ↦ hp) rfl rfl rfl rfl
  | endOp p =>
    obtain ⟨o, log, -, -, -, rfl⟩ := hcase
    refine h.of_eq (fun q r hq ↦ ?_) rfl rfl rfl rfl
    by_cases hqp : q = p
    · simp [hqp] at hq
    · simpa [hqp] using hq
  | tick => exact h.tick hi hcase
  | evict b =>
    obtain ⟨-, rfl⟩ := hcase
    exact h.of_eq (fun _ _ hp ↦ hp) rfl rfl rfl rfl
  | crash =>
    rw [hcase]
    exact h.boot

end

/-! ### Every run -/

theorem inv_initial (hd : readHead (d sb.logstart) = []) :
    Inv sb d (initial sb d) ∧ OpInv (initial sb d) := by
  constructor
  · exact inv_boot (recoverable_of_readHead_nil sb.nlog_pos hd fun _ _ ↦ rfl)
  · constructor <;> simp [initial, boot, Open]

theorem inv_run (hd : readHead (d sb.logstart) = []) {ls : List Label}
    (run : Machine.Run (Sys.step sb) (initial sb d) ls s) : Inv sb d s ∧ OpInv s :=
  run.invariant (P := fun s ↦ Inv sb d s ∧ OpInv s) (inv_initial hd)
    fun h hstep ↦ ⟨h.1.step hstep, h.2.step h.1 hstep⟩

/-- **Crash atomicity.** Start on a disk with an empty log, and let any processes run operations,
commit and crash at any moment, also while recovering. Then at every moment recovery gives exactly
the home blocks after the group commits so far; whenever the machine is neither committing nor
recovering these are what is on the disk; and every operation has all its writes in one group, or
none in any. -/
theorem recovers_committed_groups {d : Disk} (hd : readHead (d sb.logstart) = [])
    {ls : List Label} (run : Machine.Run (Sys.step sb) (initial sb d) ls s) :
    (∀ b, Home sb b → recoverFromLog sb s.disk b = replay d s.groups b) ∧
    (s.phase = .running → ∀ b, Home sb b → s.disk b = replay d s.groups b) ∧
    ∀ o, (∀ g ∈ s.groups, ∀ w ∈ g, w.op ≠ o) ∨
      ∃ l g r, s.groups = l ++ g :: r ∧
        (g.filter fun w ↦ w.op = o) = (s.history.filter fun w ↦ w.op = o) ∧
        ∀ g' ∈ l ++ r, ∀ w ∈ g', w.op ≠ o := by
  obtain ⟨hinv, hop⟩ := inv_run hd run
  refine ⟨fun b hb ↦ recoverFromLog_home hinv.recoverable hb, fun hr b hb ↦ ?_, fun o ↦ ?_⟩
  · exact hinv.recoverable.eq_of_readHead_nil (phaseInv_running hinv hr).2.2 hb
  · by_cases ho : ∀ g ∈ s.groups, ∀ w ∈ g, w.op ≠ o
    · exact .inl ho
    · push Not at ho
      obtain ⟨g, hg, w, hw, rfl⟩ := ho
      obtain ⟨l, r, hlr⟩ := List.append_of_mem hg
      refine .inr ⟨l, g, r, hlr, hop.whole g hg w hw, fun g' hg' w' hw' ↦ ?_⟩
      have honce := hop.once
      rw [hlr, List.pairwise_append, List.pairwise_cons] at honce
      rcases List.mem_append.1 hg' with hg' | hg'
      · exact honce.2.2 g' hg' g List.mem_cons_self w' hw' w hw
      · exact Ne.symm (honce.2.1.1 g' hg' w hw w' hw')

/-- A run that crashes after the commit point, before the committed block is installed. -/
theorem recovers_committed_groups_mkfs :
    ∃ s, Machine.Run (Sys.step mkfsSuperblock) (initial mkfsSuperblock fun _ ↦ Block.zero)
        [.tick, .beginOp 7, .modify 7 100 (Block.zero.setWord 0 5), .logWrite 7 100, .endOp 7,
          .tick, .tick, .crash] s ∧
      recoverFromLog mkfsSuperblock s.disk 100 = replay (fun _ ↦ Block.zero) s.groups 100 :=
  Machine.exists_run_of (fun _ ↦ True) (by decide +kernel) fun s run _ ↦
    (recovers_committed_groups (by exact readHead_zero) run).1 100 (by decide)

end Sys

end Xv6.Log
