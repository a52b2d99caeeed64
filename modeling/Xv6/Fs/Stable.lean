import Xv6.Fs.Mapped
import Xv6.Fs.OwnershipRun

/-!
# The block map is stable

`bmap` reads one entry of each indirect block on its way and writes one if it was empty; `indexes` gives both.
Below `SAFEBLOCKS` all of them are entries of the block, and what `bmap` has once returned for a data block it
returns from then on, and for no other data block (`bmap_stable`).

From `SAFEBLOCKS` on, the second level of the triple-indirect tree is read behind the end of the block. If there is
a zero there, then `bmap` puts the data block somewhere else each time (`bmap_moves`).
-/

namespace Xv6

open PointerTree Function

/-- The entry of `addrs` that `bmap` uses, and for each indirect block the entry it reads and the one it writes. -/
def indexes (bn : ℕ) : ℕ × List (ℕ × ℕ) :=
  if bn < NDIRECT then
    (bn, [])
  else
    let bn := bn - NDIRECT
    if bn < NINDIRECT then
      (NDIRECT, [(bn, bn)])
    else
      let bn := bn - NINDIRECT
      if bn < NDBLINDIRECT then
        (NDIRECT + 1, [(bn / NINDIRECT, bn / NINDIRECT), (bn % NINDIRECT, bn % NINDIRECT)])
      else
        let bn := bn - NDBLINDIRECT
        (NDIRECT + 2, [(bn / NDBLINDIRECT, bn / NDBLINDIRECT),
          (bn / NINDIRECT, bn % NDBLINDIRECT / NINDIRECT), (bn % NINDIRECT, bn % NINDIRECT)])

namespace Fs

variable (env : Env)

/-- Go through the indirect blocks from `addr` on. -/
def visitFrom : ℕ → List (ℕ × ℕ) → FS ℕ
  | addr, [] => pure addr
  | addr, (i, j) :: path => do
    let addr ← entryPtr env addr i j
    visitFrom addr path

/-- Go through the indirect blocks from the inode on. -/
def visit (ip : ℕ) (pos : ℕ × List (ℕ × ℕ)) : FS ℕ := do
  let addr ← rootPtr env ip pos.1
  visitFrom env addr pos.2

/-- These are the entries that `bmap` reads and writes. -/
theorem bmap_eq_visit {ip bn : ℕ} (h : bn < MAXFILE) : bmap env ip bn = visit env ip (indexes bn) := by
  have hM : MAXFILE = NDIRECT + NINDIRECT + NDBLINDIRECT + NTPLINDIRECT := rfl
  rw [bmap, indexes]
  dsimp only
  split
  · exact (Prog.bind_pure _).symm
  · split
    · simp only [visit, visitFrom, Prog.bind_pure]
    · split
      · simp only [visit, visitFrom, Prog.bind_pure]
      · rw [if_pos (by omega)]
        simp only [visit, visitFrom, Prog.bind_pure]

/-- Below `SAFEBLOCKS` they are entries of the blocks. -/
theorem indexes_lt {bn : ℕ} (h : bn < SAFEBLOCKS) :
    ∀ p ∈ (indexes bn).2, p.1 < NINDIRECT ∧ p.2 < NINDIRECT := by
  have hN : NINDIRECT = 128 := rfl
  have hD : NDBLINDIRECT = 16384 := rfl
  have hK : NDIRECT = 10 := rfl
  have hS : SAFEBLOCKS = 10 + 128 + 2 * 16384 := rfl
  rw [indexes, hN, hD, hK]
  dsimp only
  split
  · exact nofun
  · split
    · simp only [List.mem_singleton, forall_eq]
      omega
    · split
      all_goals
        simp only [List.mem_cons, List.not_mem_nil, or_false, forall_eq_or_imp, forall_eq]
        omega

end Fs

/-! ### What stays -/

section Held

variable {ι : Type} {env : Env} {R : ι → ℕ → ℕ} {i : ι} {s t : FsState} {ip bn a : ℕ}

/-- The trees are in order, and data block `bn` of `*ip` is block `a`. -/
structure Held (sb : Superblock) (i : ι) (ip bn a : ℕ) (s : FsState) : Prop where
  nodup : s.log.lh.Nodup
  owned : ∃ R : ι → ℕ → ℕ, Owned sb R s ∧ R i = s.addrs ip
  mapped : s.Mapped ip bn
  ptr : s.ptr ip (locate bn) = a

theorem Held.setLog (h : Held env.sb i ip bn a s) {log : Log} (hlog : log.lh.Nodup) :
    Held env.sb i ip bn a { s with log := log } := by
  obtain ⟨R, howned, hR⟩ := h.owned
  exact ⟨hlog, ⟨R, { howned with }, hR⟩, h.mapped, h.ptr⟩

/-- `bmap` returns the block and changes nothing. -/
theorem Held.bmap (h : Held env.sb i ip bn a s) (hbn : bn < SAFEBLOCKS) :
    (Fs.bmap env ip bn).run s = .ok (a, s) := by
  obtain ⟨b, t, hrun, hb, ht⟩ :=
    Prog.Sat.exists_ok (m := Fs.bmap env ip bn) (Fs.bmap_mapped hbn h.mapped)
  rw [hrun, hb, ht, h.ptr]

variable [DecidableEq ι]

/-- After `bmap` the data block is there. -/
theorem Held.of_reaches (h : Owned env.sb R s) (hR : R i = s.addrs ip) (hnodup : s.log.lh.Nodup)
    (hbn : bn < SAFEBLOCKS) (hreach : Reaches env.sb ip s (chain (locate bn)) (locate bn) a t) :
    Held env.sb i ip bn a t := by
  obtain ⟨l, hl, hmiss, ha, -, -⟩ := hreach
  have hgrown := h.grows hR hl
  have hR' : update R i (t.addrs ip) i = t.addrs ip := update_self ..
  refine ⟨hl.logged.nodup hnodup, ⟨_, hgrown.owned, hR'⟩, fun q hq ↦ ?_, ha.symm⟩
  have hpos := pos_of_mem_chain hbn hq
  -- There was a block, or one has been put there.
  have hne : t.ptr ip q ≠ 0 := by
    by_cases hzero : s.ptr ip q = 0
    · have hmem : q ∈ l.map Growth.pos := by
        rw [hmiss]
        exact List.mem_filter.2 ⟨hq, decide_eq_true hzero⟩
      obtain ⟨g, hg, rfl⟩ := List.mem_map.1 hmem
      have hnew := hgrown.ptr_new g hg
      rw [forest_ptr hR'] at hnew
      rw [hnew]
      exact hgrown.toExtended.block_ne_zero hg
    · have hold := hgrown.toExtended.ptr_of_ne_zero (p := ((i, q.1), q.2)) (treeShape_pos.2 hpos)
        (by rwa [forest_ptr hR])
      rw [forest_ptr hR, forest_ptr hR'] at hold
      rwa [hold]
  refine ⟨hne, ?_⟩
  have hrange := hgrown.owned.range ((i, q.1), q.2) (treeShape_pos.2 hpos)
  rw [forest_ptr hR'] at hrange
  exact (hrange hne).2.trans_le env.sb.size_le

/-- The data block stays when the tree grows. -/
theorem Held.grows {l : List Growth} (h : Held env.sb i ip bn a s) (hbn : bn < SAFEBLOCKS)
    (hl : Grows env.sb ip s l t) : Held env.sb i ip bn a t := by
  obtain ⟨R, howned, hR⟩ := h.owned
  have hgrown := howned.grows hR hl
  have hR' : update R i (t.addrs ip) i = t.addrs ip := update_self ..
  have hsame : ∀ q ∈ chain (locate bn), t.ptr ip q = s.ptr ip q := by
    intro q hq
    have hold := hgrown.toExtended.ptr_of_ne_zero (p := ((i, q.1), q.2))
      (treeShape_pos.2 (pos_of_mem_chain hbn hq)) (by rw [forest_ptr hR]; exact (h.mapped q hq).1)
    rwa [forest_ptr hR, forest_ptr hR'] at hold
  refine ⟨hl.logged.nodup h.nodup, ⟨_, hgrown.owned, hR'⟩, fun q hq ↦ ?_, ?_⟩
  · rw [hsame q hq]
    exact h.mapped q hq
  · rw [hsame _ (mem_chain.2 ⟨_, List.prefix_rfl, rfl⟩)]
    exact h.ptr

/-- The calls in which the data block stays: `bmap` on the same inode, in any operations. -/
def MapCall.On (ip : ℕ) : MapCall → Prop
  | .bmap jp _ => jp = ip
  | .itrunc _ => False
  | .beginOp | .endOp => True

theorem Held.step {c : MapCall} (h : Held env.sb i ip bn a s) (hbn : bn < SAFEBLOCKS)
    (hon : c.On ip) (hstep : mapStep env s c = some (.ok t)) : Held env.sb i ip bn a t := by
  cases c with
  | beginOp =>
    obtain ⟨_, -, -, rfl⟩ := Fs.beginOp_sat.of_exec_ok (Option.some.inj hstep)
    exact h.setLog h.nodup
  | endOp =>
    obtain ⟨_, rfl⟩ := Fs.endOp_sat.of_exec_ok (Option.some.inj hstep)
    exact h.setLog (Fs.nodup_afterEnd h.nodup)
  | bmap jp bn' =>
    obtain rfl : jp = ip := hon
    obtain ⟨R, howned, hR⟩ := h.owned
    rw [mapStep] at hstep
    split at hstep
    next hbn' =>
      obtain ⟨_, l, hl, -⟩ :=
        (Fs.bmap_sat howned hR h.nodup hbn').of_exec_ok (Option.some.inj hstep)
      exact h.grows hbn hl
    · cases hstep
  | itrunc jp => exact hon.elim

/-- The data block stays over a run. -/
theorem Held.run {calls : List MapCall} (h : Held env.sb i ip bn a s) (hbn : bn < SAFEBLOCKS)
    (run : Machine.Run (mapStep env) s calls t) (hcalls : ∀ c ∈ calls, c.On ip) :
    Held env.sb i ip bn a t := by
  induction run with
  | nil => exact h
  | snoc run hstep ih =>
    rw [List.forall_mem_append, List.forall_mem_singleton] at hcalls
    exact (ih hcalls.1).step hbn hcalls.2 hstep

/-- Another data block is another block. -/
theorem Held.bmap_ne (h : Held env.sb i ip bn a s) (hbn : bn < SAFEBLOCKS) {bn' a' : ℕ}
    (hbn' : bn' < SAFEBLOCKS) (hne : bn' ≠ bn) (hrun : (Fs.bmap env ip bn').run s = .ok (a', t)) :
    a' ≠ a := by
  obtain ⟨R, howned, hR⟩ := h.owned
  obtain ⟨l, hl, -, ha', hpos, -⟩ := (Fs.bmap_sat howned hR h.nodup hbn').of_ok hrun
  have ht := h.grows hbn hl
  obtain ⟨R', howned', hR'⟩ := ht.owned
  intro heq
  have hptr : (forest R' t).ptr ((i, (locate bn').1), (locate bn').2) =
      (forest R' t).ptr ((i, (locate bn).1), (locate bn).2) := by
    rw [forest_ptr hR', forest_ptr hR']
    exact (ha'.symm.trans heq).trans ht.ptr.symm
  have hsame := howned'.inj _ _ (treeShape_pos.2 (Fs.pos_locate hbn'))
    (treeShape_pos.2 (Fs.pos_locate hbn)) (by rw [forest_ptr hR']; exact ha' ▸ hpos) hptr
  simp only [Prod.mk.injEq, true_and] at hsame
  exact hne (Fs.locate_injective (Prod.ext hsame.1 hsame.2))

end Held

/-- `bmap` for a data block below `SAFEBLOCKS` reads and writes entries of indirect blocks only. After any later
calls of `bmap` on the inode it still returns the same block, and a different one for a different data block. It
returns if there are enough free blocks and the log is not full. -/
theorem bmap_stable {ι : Type} [DecidableEq ι] {env : Env} {R : ι → ℕ → ℕ} {i : ι} {s t u : FsState}
    {ip bn a : ℕ} {calls : List MapCall} (howned : Owned env.sb R s) (hR : R i = s.addrs ip)
    (hnodup : s.log.lh.Nodup) (hbn : bn < SAFEBLOCKS) (hrun : (Fs.bmap env ip bn).run s = .ok (a, t))
    (run : Machine.Run (mapStep env) t calls u) (hcalls : ∀ c ∈ calls, c.On ip) :
    (Fs.bmap env ip bn = Fs.visit env ip (indexes bn) ∧
      ∀ p ∈ (indexes bn).2, p.1 < NINDIRECT ∧ p.2 < NINDIRECT) ∧
    (Fs.bmap env ip bn).run u = .ok (a, u) ∧
    (∀ bn' a' v, bn' < SAFEBLOCKS → bn' ≠ bn → (Fs.bmap env ip bn').run u = .ok (a', v) → a' ≠ a) ∧
    ∀ bn', bn' < SAFEBLOCKS → u.log.JustBegun →
      (u.missing ip (chain (locate bn'))).length ≤ (u.freeBlocks env.sb).card →
      ∃ a' v, (Fs.bmap env ip bn').run u = .ok (a', v) := by
  have hfirst := Held.of_reaches howned hR hnodup hbn ((Fs.bmap_sat howned hR hnodup hbn).of_ok hrun)
  have h := hfirst.run hbn run hcalls
  have hmax : bn < MAXFILE := hbn.trans (by decide)
  refine ⟨⟨Fs.bmap_eq_visit env hmax, Fs.indexes_lt hbn⟩, h.bmap hbn, ?_, ?_⟩
  · intro bn' a' v hbn' hne hrun'
    exact h.bmap_ne hbn hbn' hne hrun'
  · intro bn' hbn' hlog hfree
    obtain ⟨R', howned', hR'⟩ := h.owned
    obtain ⟨a', v, hrun', -⟩ := ((howned'.bmap_log hR' h.nodup hbn' hfree).mono
      (fun _ _ hreach ↦ hreach) (fun e ⟨F, hF, hfails⟩ ↦
        hlog.not_fails (hF.trans (by decide)) hfails)).exists_ok
    exact ⟨a', v, hrun'⟩

/-- An operation on the disk without files. -/
def emptyOp : FsState := { emptyFs with log := { emptyFs.log with outstanding := 1 } }

theorem mapInv_emptyOp : MapInv mkfsSuperblock emptyOp :=
  (MapInv.init noFiles_emptyFs).setLog List.nodup_nil

/-- The first data block of a file that is empty at first, before and after others in all parts of the tree. -/
theorem bmap_stable_emptyOp : ∃ a t u, (Fs.bmap mkfsEnv 0 0).run emptyOp = .ok (a, t) ∧
    Machine.Run (mapStep mkfsEnv) t [.bmap 0 10, .bmap 0 200, .endOp, .beginOp, .bmap 0 20000] u ∧
    (Fs.bmap mkfsEnv 0 0).run u = .ok (a, u) ∧
    ∀ bn' a' v, bn' < SAFEBLOCKS → bn' ≠ 0 → (Fs.bmap mkfsEnv 0 bn').run u = .ok (a', v) → a' ≠ a := by
  have hrun : (Fs.bmap mkfsEnv 0 0).returns emptyOp (fun _ t ↦ Machine.reaches (mapStep mkfsEnv) t
      [.bmap 0 10, .bmap 0 200, .endOp, .beginOp, .bmap 0 20000] fun _ ↦ true) = true := by decide +kernel
  obtain ⟨a, t, hrun, hreach⟩ := (Prog.sat_of_returns hrun).exists_ok
  obtain ⟨u, run, -⟩ := Machine.exists_run hreach
  have howned : Owned mkfsEnv.sb emptyOp.addrs emptyOp := mapInv_emptyOp.owned
  obtain ⟨-, hsame, hother, -⟩ :=
    bmap_stable (i := 0) howned rfl List.nodup_nil (by decide) hrun run (by simp [MapCall.On])
  exact ⟨a, t, u, hrun, run, hsame, hother⟩

/-- `bmap` reads entry 128 of an indirect block of 128 entries, and returns another block the second time. -/
theorem bmap_moves : SAFEBLOCKS < MAXFILE ∧
    Fs.bmap mkfsEnv 0 SAFEBLOCKS = Fs.visit mkfsEnv 0 (indexes SAFEBLOCKS) ∧
    (NINDIRECT, 0) ∈ (indexes SAFEBLOCKS).2 ∧
    Owned mkfsEnv.sb emptyOp.addrs emptyOp ∧ emptyOp.log.lh.Nodup ∧
    ∃ t u, (Fs.bmap mkfsEnv 0 SAFEBLOCKS).run emptyOp = .ok (71, t) ∧
      (Fs.bmap mkfsEnv 0 SAFEBLOCKS).run t = .ok (73, u) := by
  have hmax : SAFEBLOCKS < MAXFILE := by decide
  have hrun : (Fs.bmap mkfsEnv 0 SAFEBLOCKS).returns emptyOp (fun a t ↦
      a = 71 && (Fs.bmap mkfsEnv 0 SAFEBLOCKS).returns t fun b _ ↦ b = 73) = true := by
    decide +kernel
  obtain ⟨a, t, hfirst, ha⟩ := (Prog.sat_of_returns hrun).exists_ok
  rw [Bool.and_eq_true, decide_eq_true_eq] at ha
  obtain ⟨rfl, ha⟩ := ha
  obtain ⟨b, u, hsecond, hb⟩ := (Prog.sat_of_returns ha).exists_ok
  obtain rfl := of_decide_eq_true hb
  exact ⟨hmax, Fs.bmap_eq_visit mkfsEnv hmax, by decide, mapInv_emptyOp.owned, List.nodup_nil, t, u,
    hfirst, hsecond⟩

end Xv6
