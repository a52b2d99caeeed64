import Xv6.Bio.Refine

/-!
# Are there enough buffers?

`bget` panics when every buffer is referenced or dirty. Between commits the blocks that have been logged
are dirty, and every operation of the file system holds buffers on top of that: at its deepest `itrunc`
holds three indirect blocks while `bfree` reads a block of the bitmap.

`begin_op` reserves room in the log, and the cache has as many buffers as the log has blocks. So when the
operations have used up what they have reserved, all buffers are pinned but one, and the next operation
that reads two blocks at once panics (`no_buffers_left`). If `begin_op` also counted the buffers that the
operations hold, there would be enough of them for all operations and for the commit
(`enough_buffers`).

An operation here is any process between `begin_op` and `end_op` that logs at most `MAXOPBLOCKS` blocks and
holds at most `MAXHELD` buffers; what it has logged is kept next to the machine of `Xv6.Bio.Basic`.
-/

namespace Xv6

open Function

namespace Bio

/-- The number of buffers that an operation holds at once. -/
def MAXHELD : ℕ := 4

/-- The kernel, and which blocks the operations have logged. -/
structure Ops where
  /-- The cache, the log and the operations. -/
  sys : Sys
  /-- The blocks that the operation of a process has passed to `log_write`. -/
  logged : ℕ → List ℕ

namespace Ops

/-- After `binit` and `initlog`. -/
def init (sb : Superblock) (L : BufLinks) (disk : ℕ → ℕ → Block) : Ops :=
  ⟨Sys.init sb L disk, fun _ ↦ []⟩

/-- What the operations have logged after a step. -/
def loggedAfter (σ : Ops) : Label → ℕ → List ℕ
  | .beginOp p => update σ.logged p []
  | .logWrite r => update σ.logged r.caller.proc
      (Log.absorb (σ.logged r.caller.proc) (σ.sys.cache.buf r.buf).blockno)
  | _ => σ.logged

/-- One step. -/
def step (sb : Superblock) (d : Driver) (dev : ℕ) (σ : Ops) (l : Label) : Option (Except Panic Ops) :=
  (σ.sys.step sb d dev l).map fun x ↦ x.map fun t ↦ ⟨t, σ.loggedAfter l⟩

/-- What operations do: they read blocks of the file system with at most `MAXHELD` buffers held, log at
most `MAXOPBLOCKS` blocks, none of them in the log area, and end when they have released their buffers. -/
def Admitted (sb : Superblock) (dev : ℕ) (σ : Ops) : Label → Prop
  | .op (.bget c dev' _) => dev' = dev ∧ c.proc ∈ σ.sys.ops ∧
      σ.sys.cache.refs.countP (fun r ↦ r.caller = c) < MAXHELD
  | .logWrite r => r.caller.proc ∈ σ.sys.ops ∧ ¬InLog sb r.blockno ∧
      (Log.absorb (σ.logged r.caller.proc) (σ.sys.cache.buf r.buf).blockno).length ≤ MAXOPBLOCKS
  | .endOp p => ∀ r ∈ σ.sys.cache.refs, r.caller ≠ ⟨p, false⟩
  | _ => True

instance (sb : Superblock) (dev : ℕ) (σ : Ops) : ∀ l, Decidable (σ.Admitted sb dev l)
  | .op (.bget _ _ _) => inferInstanceAs (Decidable (_ ∧ _))
  | .logWrite r => inferInstanceAs (Decidable (_ ∧ ¬(sb.logstart ≤ r.blockno ∧ r.blockno < _) ∧ _))
  | .endOp _ => inferInstanceAs (Decidable (∀ _, _))
  | .op (.acquiresleep _) | .op (.fill _) | .op (.modify _ _) | .op (.bwrite _) | .op (.pin _)
  | .op (.releasesleep _) | .op (.relink _) | .beginOp _ | .commit => .isTrue trivial

/-- An operation begins only when there are buffers for the blocks that all operations may log, and for those
that they hold. -/
def Roomy (σ : Ops) : Label → Prop
  | .beginOp _ =>
      σ.sys.log.lh.length + (σ.sys.ops.length + 1) * (MAXOPBLOCKS + MAXHELD) ≤ NBUF
  | _ => True

instance (σ : Ops) : ∀ l, Decidable (σ.Roomy l)
  | .beginOp _ => inferInstanceAs (Decidable (_ ≤ NBUF))
  | .op _ | .logWrite _ | .endOp _ | .commit => .isTrue trivial

theorem step_eq_ok {sb : Superblock} {d : Driver} {dev : ℕ} {σ τ : Ops} {l : Label}
    (h : σ.step sb d dev l = some (.ok τ)) :
    σ.sys.step sb d dev l = some (.ok τ.sys) ∧ τ.logged = σ.loggedAfter l := by
  obtain ⟨x, hx, hτ⟩ := Option.map_eq_some_iff.1 h
  cases x with
  | error e => cases hτ
  | ok t =>
    obtain rfl := Except.ok.inj hτ
    exact ⟨hx, rfl⟩

end Ops

/-! ### The uses of buffers -/

section Refs

variable {s t : Cache} {d : Driver} {o : Op}

open Cache

/-- Who uses a buffer, and of which device. -/
def Ref.key (r : Ref) : Caller × ℕ := (r.caller, r.dev)

/-- Only `bget` adds a user. -/
theorem RefsAfter.keys {refs refs' : List Ref} (h : RefsAfter refs o refs') :
    (∃ c dev blockno, o = .bget c dev blockno ∧ refs'.map Ref.key = (c, dev) :: refs.map Ref.key) ∨
    List.Subperm (refs'.map Ref.key) (refs.map Ref.key) := by
  -- A use that only goes on keeps its place.
  have hmoved : ∀ (r : Ref) (stage : Stage), r ∈ refs →
      List.Subperm (({ r with stage := stage } :: refs.erase r).map Ref.key) (refs.map Ref.key) := by
    intro r stage hr
    have hperm : List.Perm (refs.map Ref.key) ((r :: refs.erase r).map Ref.key) :=
      (List.perm_cons_erase hr).map _
    exact hperm.symm.subperm
  cases h with
  | added => exact .inl ⟨_, _, _, rfl, rfl⟩
  | moved mem | released mem => exact .inr (hmoved _ _ mem)
  | dropped mem => exact .inr ((List.erase_sublist.map _).subperm)
  | same => exact .inr (List.Subperm.refl _)

/-- The buffers that a commit holds. -/
def actives (refs : List Ref) : ℕ := refs.countP Ref.active

theorem actives_cons_erase {refs : List Ref} {r : Ref} (hr : r ∈ refs) :
    actives refs = actives (refs.erase r) + (if r.active then 1 else 0) := by
  rw [actives, (List.perm_cons_erase hr).countP_eq, List.countP_cons, actives]

/-- What a step does to the number of buffers that a commit holds. -/
theorem RefsAfter.actives {refs refs' : List Ref} (h : RefsAfter refs o refs') :
    match o with
    | .bget c _ _ => actives refs' = actives refs + if c.commit then 1 else 0
    | .releasesleep r => actives refs' + (if r.caller.commit then 1 else 0) = actives refs
    | _ => actives refs' = actives refs := by
  cases h with
  | added =>
    rw [Bio.actives, List.countP_cons, ← Bio.actives]
    simp [Ref.active]
  | @moved o r stage mem before after starts _ =>
    have hactives : Bio.actives ({ r with stage := stage } :: refs.erase r) = Bio.actives refs := by
      rw [actives_cons_erase mem, Bio.actives, List.countP_cons, ← Bio.actives]
      simp [Ref.active, before, after]
    cases o with
    | bget | releasesleep => cases starts
    | acquiresleep | fill | modify | bwrite | pin | relink => exact hactives
  | @released r mem before =>
    rw [actives_cons_erase mem, Bio.actives, List.countP_cons, ← Bio.actives]
    simp [Ref.active, before]
  | @dropped r mem before =>
    rw [actives_cons_erase mem]
    simp [Ref.active, before]
  | same get release =>
    cases o with
    | bget c dev blockno => exact absurd rfl (get c dev blockno)
    | releasesleep r => exact absurd rfl (release r)
    | acquiresleep | fill | modify | bwrite | pin | relink => rfl

/-- A buffer that is dirty after a step has been so before, and has not been written, or it has been logged. -/
theorem dirty_exec (hinv : CacheInv s) (h : s.exec d o = some (.ok t)) {i : Fin NBUF}
    (hi : (t.buf i).dirty = true) : (∃ r, o = .pin r ∧ r.buf = i) ∨
      ((s.buf i).dirty = true ∧ ∀ r, o = .bwrite r → r.buf ≠ i) := by
  have hstep := exec_eq_ok h
  have htouch := touches_exec h
  -- A step that touches a buffer and does not make it dirty.
  have htouches : ∀ {j : Fin NBUF} {b : Buf} {e : Edit}, Touches s j b e t →
      (b.dirty = true → (s.buf j).dirty = true) → (s.buf i).dirty = true := by
    intro j b e ht hb
    rcases eq_or_ne i j with rfl | hij
    · rw [ht.self] at hi
      exact hb hi
    · rwa [(ht.other i hij).1] at hi
  cases o with
  | bget c dev blockno =>
    refine .inr ⟨?_, nofun⟩
    rcases bget_eq_ok hinv hstep with ⟨j, -, -, rfl⟩ | ⟨j, -, -, -, rfl⟩
    · have hbuf : ((s.hit c dev blockno j).buf i).dirty = (s.buf i).dirty := by
        show ((s.setBuf j _).buf i).dirty = _
        rw [buf_setBuf]
        split
        next heq => rw [heq]
        · rfl
      exact hbuf.symm.trans hi
    · change ((s.setBuf j _).buf i).dirty = true at hi
      rw [buf_setBuf] at hi
      split at hi
      · cases hi
      · exact hi
  | acquiresleep r => exact .inr ⟨htouches htouch id, nofun⟩
  | fill r =>
    refine .inr ⟨?_, nofun⟩
    obtain ⟨-, -, hfill⟩ := hstep
    rcases fill_eq_ok hfill with ⟨-, rfl⟩ | ⟨-, -, rfl⟩ | ⟨-, -, rfl⟩
    · exact hi
    · change ((s.setBuf r.buf _).buf i).dirty = true at hi
      rw [buf_setBuf] at hi
      split at hi
      · cases hi
      · exact hi
    · change ((s.setBuf r.buf _).buf i).dirty = true at hi
      rw [buf_setBuf] at hi
      split at hi
      next heq =>
        rw [heq]
        exact hi
      · exact hi
  | modify r v => exact .inr ⟨htouches htouch id, nofun⟩
  | bwrite r =>
    refine .inr ⟨htouches htouch.1 nofun, ?_⟩
    rintro _ ⟨⟩ rfl
    rw [htouch.1.self] at hi
    cases hi
  | pin r =>
    rcases eq_or_ne r.buf i with heq | hne
    · exact .inl ⟨r, rfl, heq⟩
    · refine .inr ⟨?_, nofun⟩
      rwa [(htouch.other i hne.symm).1] at hi
  | releasesleep r => exact .inr ⟨htouches htouch id, nofun⟩
  | relink r =>
    refine .inr ⟨?_, nofun⟩
    obtain ⟨-, -, rfl⟩ := hstep
    rw [buf_relink] at hi
    split at hi
    next heq =>
      rw [heq]
      exact hi
    · exact hi

end Refs

/-! ### A commit holds two buffers at most -/

/-- With `n` buffers held, these statements hold at most two at a time and none in the end. -/
def Nests : ℕ → List Instr → Prop
  | n, [] => n = 0
  | n, .bread _ :: l => n < 2 ∧ Nests (n + 1) l
  | n, .brelse _ :: l => 0 < n ∧ Nests (n - 1) l
  | n, _ :: l => Nests n l

variable {sb : Superblock} {l : List Instr}

theorem nests_writeLog (h : Nests 0 l) (tail : ℕ) (lh : List ℕ) : Nests 0 (writeLog sb tail lh ++ l) := by
  induction lh generalizing tail with
  | nil => exact h
  | cons b lh ih => exact ⟨by decide, by decide, by decide, by decide, ih (tail + 1)⟩

theorem nests_installTrans (h : Nests 0 l) (tail : ℕ) (lh : List ℕ) :
    Nests 0 (installTrans sb tail lh ++ l) := by
  induction lh generalizing tail with
  | nil => exact h
  | cons b lh ih => exact ⟨by decide, by decide, by decide, by decide, ih (tail + 1)⟩

theorem nests_writeHead (h : Nests 0 l) : Nests 0 (writeHead sb ++ l) :=
  ⟨by decide, by decide, h⟩

theorem nests_commit (sb : Superblock) (lh : List ℕ) : Nests 0 (commit sb lh) := by
  rw [commit]
  split
  · rw [List.append_assoc, List.append_assoc, List.append_assoc]
    refine nests_writeLog (nests_writeHead (nests_installTrans ?_ 0 lh)) 0 lh
    exact nests_writeHead (l := []) rfl
  · rfl

theorem bwrite_mem_installTrans {tail b : ℕ} {lh : List ℕ} (h : b ∈ lh) :
    Instr.bwrite b ∈ installTrans sb tail lh := by
  induction lh generalizing tail with
  | nil => cases h
  | cons c lh ih =>
    rw [installTrans]
    rcases List.mem_cons.1 h with rfl | h
    · exact List.mem_append_left _ (by simp)
    · exact List.mem_append_right _ (ih h)

/-- A commit writes every block that has been logged. -/
theorem bwrite_mem_commit {b : ℕ} {lh : List ℕ} (h : b ∈ lh) : Instr.bwrite b ∈ commit sb lh := by
  rw [commit, if_pos (List.length_pos_of_mem h)]
  refine List.mem_append_left _ (List.mem_append_left _ (List.mem_append_right _ ?_))
  exact bwrite_mem_installTrans h

/-- What is written after `log.lh.n = 0` is the header. -/
def HeadLast (sb : Superblock) : List Instr → Prop
  | [] => True
  | .clear :: l => (∀ b, Instr.bwrite b ∈ l → b = sb.logstart) ∧ HeadLast sb l
  | _ :: l => HeadLast sb l

theorem headLast_writeLog (h : HeadLast sb l) (tail : ℕ) (lh : List ℕ) :
    HeadLast sb (writeLog sb tail lh ++ l) := by
  induction lh generalizing tail with
  | nil => exact h
  | cons b lh ih => exact ih (tail + 1)

theorem headLast_installTrans (h : HeadLast sb l) (tail : ℕ) (lh : List ℕ) :
    HeadLast sb (installTrans sb tail lh ++ l) := by
  induction lh generalizing tail with
  | nil => exact h
  | cons b lh ih => exact ih (tail + 1)

theorem headLast_commit (sb : Superblock) (lh : List ℕ) : HeadLast sb (commit sb lh) := by
  rw [commit]
  split
  · rw [List.append_assoc, List.append_assoc, List.append_assoc]
    refine headLast_writeLog ?_ 0 lh
    have hinstall : HeadLast sb (installTrans sb 0 lh ++ (.clear :: writeHead sb)) := by
      refine headLast_installTrans (l := .clear :: writeHead sb) ⟨fun b hb ↦ ?_, trivial⟩ 0 lh
      simpa [writeHead] using hb
    exact hinstall
  · trivial

/-- A list whose members are in few groups of a bounded size is short. -/
theorem length_le_of_countP {α β : Type} [DecidableEq β] (f : α → β) {n : ℕ} (bs : List β)
    (l : List α) (hmem : ∀ a ∈ l, f a ∈ bs) (hcount : ∀ b ∈ bs, l.countP (fun a ↦ f a = b) ≤ n) :
    l.length ≤ n * bs.length := by
  induction bs generalizing l with
  | nil =>
    rw [List.eq_nil_iff_forall_not_mem.2 fun a ha ↦ nomatch hmem a ha]
    exact Nat.zero_le _
  | cons b bs ih =>
    -- Leave out the members of the first group.
    have hrest := ih (l.filter fun a ↦ ¬f a = b) (fun a ha ↦ ?_) fun c hc ↦ ?_
    · have hsplit := List.length_eq_countP_add_countP (fun a ↦ decide (f a = b)) (l := l)
      have hb := hcount b List.mem_cons_self
      have hlen : l.countP (fun a ↦ ¬decide (f a = b) = true) =
          (l.filter fun a ↦ ¬f a = b).length := by
        rw [List.countP_eq_length_filter]
        simp only [decide_eq_true_eq]
      rw [List.length_cons, Nat.mul_succ]
      omega
    · rw [List.mem_filter, decide_eq_true_iff] at ha
      rcases List.mem_cons.1 (hmem a ha.1) with heq | hmem
      · exact absurd heq ha.2
      · exact hmem
    · exact (List.filter_sublist.countP_le).trans (hcount c (List.mem_cons_of_mem _ hc))

/-! ### The invariant -/

/-- The uses of buffers are those of operations and of the commit. -/
structure Uses (dev : ℕ) (ops : List ℕ) (committer : Option ℕ) (keys : List (Caller × ℕ)) :
    Prop where
  dev : ∀ k ∈ keys, k.2 = dev
  user : ∀ k ∈ keys, k.1.commit = false → k.1.proc ∈ ops
  commit : ∀ k ∈ keys, k.1.commit = true → committer = some k.1.proc
  /-- An operation holds at most `MAXHELD` buffers. -/
  held : ∀ p, keys.countP (fun k ↦ k.1 = ⟨p, false⟩) ≤ MAXHELD

section Uses

variable {dev : ℕ} {ops : List ℕ} {committer : Option ℕ} {keys keys' : List (Caller × ℕ)}

theorem Uses.of_subperm (h : Uses dev ops committer keys) (hsub : keys'.Subperm keys) :
    Uses dev ops committer keys' where
  dev := fun k hk ↦ h.dev k (hsub.subset hk)
  user := fun k hk ↦ h.user k (hsub.subset hk)
  commit := fun k hk ↦ h.commit k (hsub.subset hk)
  held := fun p ↦ (hsub.countP_le _).trans (h.held p)

/-- An operation reads another block. -/
theorem Uses.cons_user (h : Uses dev ops committer keys) {c : Caller} (hc : c.commit = false)
    (hops : c.proc ∈ ops) (hlt : keys.countP (fun k ↦ k.1 = c) < MAXHELD) :
    Uses dev ops committer ((c, dev) :: keys) where
  dev := List.forall_mem_cons.2 ⟨rfl, h.dev⟩
  user := List.forall_mem_cons.2 ⟨fun _ ↦ hops, h.user⟩
  commit := List.forall_mem_cons.2 ⟨fun htrue ↦ (nomatch hc.symm.trans htrue), h.commit⟩
  held := fun p ↦ by
    rw [List.countP_cons]
    split
    next heq =>
      rw [← of_decide_eq_true heq]
      exact hlt
    · exact h.held p

/-- The commit reads another block. -/
theorem Uses.cons_commit (h : Uses dev ops committer keys) {p : ℕ} (hp : committer = some p) :
    Uses dev ops committer ((⟨p, true⟩, dev) :: keys) where
  dev := List.forall_mem_cons.2 ⟨rfl, h.dev⟩
  user := List.forall_mem_cons.2 ⟨nofun, h.user⟩
  commit := List.forall_mem_cons.2 ⟨fun _ ↦ hp, h.commit⟩
  held := fun q ↦ by
    rw [List.countP_cons, if_neg fun heq ↦ nomatch of_decide_eq_true heq]
    exact h.held q

/-- Without a commit, it may be set who commits. -/
theorem Uses.of_none (h : Uses dev ops none keys) (committer : Option ℕ) :
    Uses dev ops committer keys :=
  { h with commit := fun k hk hc ↦ nomatch h.commit k hk hc }

/-- An operation that uses no buffer ends. -/
theorem Uses.erase (h : Uses dev ops committer keys) {p : ℕ} (hp : ∀ k ∈ keys, k.1 ≠ ⟨p, false⟩) :
    Uses dev (ops.erase p) committer keys where
  dev := h.dev
  user := fun k hk hc ↦ by
    refine (List.mem_erase_of_ne fun heq ↦ hp k hk ?_).2 (h.user k hk hc)
    rw [← heq, ← hc]
  commit := h.commit
  held := h.held

/-- Without a commit, operations hold all buffers that are in use. -/
theorem Uses.length_le (h : Uses dev ops none keys) : keys.length ≤ MAXHELD * ops.length := by
  have hle := length_le_of_countP Prod.fst (n := MAXHELD) (ops.map fun p ↦ (⟨p, false⟩ : Caller)) keys
    (fun k hk ↦ ?_) fun c hc ↦ ?_
  · rwa [List.length_map] at hle
  · have hc : k.1.commit = false := Bool.not_eq_true _ ▸ fun hc ↦ nomatch h.commit k hk hc
    exact List.mem_map.2 ⟨k.1.proc, h.user k hk hc, by rw [← hc]⟩
  · obtain ⟨p, -, rfl⟩ := List.mem_map.1 hc
    exact h.held p

end Uses

/-- What the operations may still log. -/
def promised (logged : ℕ → List ℕ) (ops : List ℕ) : ℕ :=
  (ops.map fun p ↦ MAXOPBLOCKS - (logged p).length).sum

section Promised

variable {logged : ℕ → List ℕ} {ops : List ℕ} {p : ℕ}

theorem promised_eq_add_erase (hp : p ∈ ops) :
    promised logged ops = MAXOPBLOCKS - (logged p).length + promised logged (ops.erase p) := by
  rw [promised, ((List.perm_cons_erase hp).map _).sum_nat, List.map_cons, List.sum_cons, promised]

theorem promised_update (hp : p ∉ ops) (l : List ℕ) :
    promised (update logged p l) ops = promised logged ops := by
  rw [promised, promised]
  refine congrArg List.sum (List.map_congr_left fun q hq ↦ ?_)
  rw [update_of_ne (ne_of_mem_of_not_mem hq hp)]

theorem promised_le (logged : ℕ → List ℕ) (ops : List ℕ) :
    promised logged ops ≤ ops.length * MAXOPBLOCKS := by
  induction ops with
  | nil => exact Nat.zero_le _
  | cons p ops ih =>
    have hcons : promised logged (p :: ops) =
        MAXOPBLOCKS - (logged p).length + promised logged ops := rfl
    rw [hcons, List.length_cons, Nat.succ_mul]
    omega

end Promised

/-- What holds in every run in which operations begin when there is room for them. -/
structure CapInv (sb : Superblock) (dev : ℕ) (disk₀ : ℕ → ℕ → Block) (σ : Ops) : Prop extends
    Booked σ.sys.log σ.sys.ops σ.sys.committer where
  store : StoreInv disk₀ σ.sys.cache
  nodup : σ.sys.ops.Nodup
  uses : Uses dev σ.sys.ops (σ.sys.committer.map Prod.fst) (σ.sys.cache.refs.map Ref.key)
  logged : ∀ p ∈ σ.sys.ops, (σ.logged p).length ≤ MAXOPBLOCKS ∧ ∀ b ∈ σ.logged p, b ∈ σ.sys.log.lh
  home : ∀ b ∈ σ.sys.log.lh, ¬InLog sb b
  /-- Dirty buffers have blocks that have been logged. -/
  dirty : ∀ i, (σ.sys.cache.buf i).dirty = true →
    (σ.sys.cache.buf i).dev = dev ∧ (σ.sys.cache.buf i).blockno ∈ σ.sys.log.lh
  /-- There are buffers for what has been logged, for what operations hold and for what they may log. -/
  reserve : σ.sys.log.lh.length + MAXHELD * σ.sys.ops.length + promised σ.logged σ.sys.ops ≤ NBUF
  room : σ.sys.log.lh.length + MAXHELD ≤ NBUF
  /-- What a commit still has to do. -/
  script : ∀ p todo, σ.sys.committer = some (p, todo) → Nests (actives σ.sys.cache.refs) todo ∧
    HeadLast sb todo ∧ ∀ i, (σ.sys.cache.buf i).dirty = true →
      Instr.bwrite (σ.sys.cache.buf i).blockno ∈ todo

namespace CapInv

variable {sb : Superblock} {d : Driver} {dev : ℕ} {disk₀ : ℕ → ℕ → Block} {σ τ : Ops}

theorem init (sb : Superblock) (dev : ℕ) (L : BufLinks) (disk : ℕ → ℕ → Block) :
    CapInv sb dev disk (Ops.init sb L disk) where
  store := ⟨.init L disk, .init L disk, .init L disk⟩
  outstanding := rfl
  committing := rfl
  idle := fun h ↦ absurd rfl h
  nodup := List.nodup_nil
  uses := ⟨nofun, nofun, nofun, fun _ ↦ Nat.zero_le _⟩
  logged := nofun
  home := nofun
  dirty := nofun
  reserve := (by decide : 0 + MAXHELD * 0 + 0 ≤ NBUF)
  room := (by decide : 0 + MAXHELD ≤ NBUF)
  script := nofun

/-! ### Buffers that are not in use -/

/-- With few uses, some buffer is neither referenced nor dirty. -/
theorem exists_unused (h : CapInv sb dev disk₀ σ) (hdev : dev ≠ 0)
    (hlt : σ.sys.log.lh.length + σ.sys.cache.refs.length < NBUF) :
    ∃ i, (σ.sys.cache.buf i).refcnt = 0 ∧ (σ.sys.cache.buf i).dirty = false := by
  by_contra hnone
  push Not at hnone
  -- Every buffer has a block that has been logged, or a user.
  obtain ⟨s, hs⟩ : ∃ s, s = σ.sys.cache := ⟨_, rfl⟩
  have hinv : CacheInv s := hs ▸ h.store.cache
  have hdirty : (Finset.univ.filter fun i ↦ (s.buf i).dirty = true).card ≤ σ.sys.log.lh.length := by
    refine (Finset.card_le_card_of_injOn (fun i ↦ (s.buf i).blockno) (t := σ.sys.log.lh.toFinset)
      (fun i hi ↦ ?_) fun i hi j hj heq ↦ ?_).trans (List.toFinset_card_le _)
    · rw [Finset.mem_coe, Finset.mem_filter] at hi
      rw [Finset.mem_coe, List.mem_toFinset]
      exact hs ▸ (h.dirty i (hs ▸ hi.2)).2
    · rw [Finset.mem_coe, Finset.mem_filter] at hi hj
      have hdi := (h.dirty i (hs ▸ hi.2)).1
      have hdj := (h.dirty j (hs ▸ hj.2)).1
      rw [← hs] at hdi hdj
      exact hinv.unique i j (hdi ▸ hdev) (hdi.trans hdj.symm) heq
  have hused : (Finset.univ.filter fun i ↦ (s.buf i).refcnt ≠ 0).card ≤ s.refs.length := by
    refine (Finset.card_le_card (t := (s.refs.map Ref.buf).toFinset) fun i hi ↦ ?_).trans
      ((List.toFinset_card_le _).trans_eq (List.length_map _))
    rw [Finset.mem_filter, hinv.refcnt] at hi
    obtain ⟨r, hr, hbuf⟩ := List.countP_pos_iff.1 (Nat.pos_of_ne_zero hi.2)
    rw [List.mem_toFinset, List.mem_map]
    exact ⟨r, hr, of_decide_eq_true hbuf⟩
  have hall : (Finset.univ : Finset (Fin NBUF)) ⊆ (Finset.univ.filter fun i ↦ (s.buf i).dirty = true) ∪
      Finset.univ.filter fun i ↦ (s.buf i).refcnt ≠ 0 := by
    intro i _
    rw [Finset.mem_union, Finset.mem_filter, Finset.mem_filter]
    by_cases hi : (s.buf i).refcnt = 0
    · refine .inl ⟨Finset.mem_univ i, ?_⟩
      have hd := hnone i (hs ▸ hi)
      rw [← hs] at hd
      exact Bool.not_eq_false _ ▸ hd
    · exact .inr ⟨Finset.mem_univ i, hi⟩
  have hcard := (Finset.card_le_card hall).trans (Finset.card_union_le _ _)
  rw [Finset.card_univ, Fintype.card_fin] at hcard
  rw [← hs] at hlt
  omega

/-! ### The steps -/

theorem countP_key (refs : List Ref) (c : Caller) :
    (refs.map Ref.key).countP (fun k ↦ k.1 = c) = refs.countP fun r ↦ r.caller = c := by
  rw [List.countP_map]
  rfl

variable {o : Op} {c : Cache} {log : Log} {p : ℕ} {todo : List Instr}

section

variable (h : CapInv sb dev disk₀ σ)

include h

/-- A step in the cache that logs nothing. -/
theorem of_exec {committer : Option (ℕ × List Instr)}
    (hexec : σ.sys.cache.exec d o = some (.ok c)) (hpin : ∀ r, o ≠ .pin r)
    (hget : ∀ c dev' blockno, o = .bget c dev' blockno → Uses dev σ.sys.ops
      (σ.sys.committer.map Prod.fst) ((c, dev') :: σ.sys.cache.refs.map Ref.key))
    (hcommitter : committer.map Prod.fst = σ.sys.committer.map Prod.fst)
    (hscript : ∀ p todo, committer = some (p, todo) → Nests (actives c.refs) todo ∧
      HeadLast sb todo ∧ ∀ i, (c.buf i).dirty = true → Instr.bwrite (c.buf i).blockno ∈ todo) :
    CapInv sb dev disk₀ ⟨{ σ.sys with cache := c, committer := committer }, σ.logged⟩ := by
  obtain ⟨hcache, hlocks, hcoherent⟩ := h.store
  have hsome : committer.isSome = σ.sys.committer.isSome := by
    rw [← Option.isSome_map (f := Prod.fst), hcommitter, Option.isSome_map]
  refine { h with
    store := h.store.exec hexec
    committing := h.committing.trans hsome.symm
    idle := fun hne ↦ h.idle ?_
    uses := ?_
    dirty := fun i hi ↦ ?_
    script := hscript }
  · rw [← Option.isSome_iff_ne_none] at hne ⊢
    exact hsome ▸ hne
  · rw [hcommitter]
    rcases (refs_exec hcache hexec).keys with ⟨c', dev', blockno, ho, hkeys⟩ | hsub
    · rw [hkeys]
      exact hget c' dev' blockno ho
    · exact h.uses.of_subperm hsub
  · rcases dirty_exec hcache hexec hi with ⟨r, ho, -⟩ | ⟨hdirty, -⟩
    · exact absurd ho (hpin r)
    · obtain ⟨hdev, hblockno⟩ := hcache.keeps_block hexec i (.inr hdirty)
      rw [hdev, hblockno]
      exact h.dirty i hdirty

/-- A step of an operation, or the next step in a call of the committing process. -/
theorem use (hexec : σ.sys.cache.exec d o = some (.ok c))
    (hplain : Sys.plain o = true) (hstart : Sys.starts o = true → o.caller.commit = false)
    (hadmitted : σ.Admitted sb dev (.op o)) : CapInv sb dev disk₀ ⟨{ σ.sys with cache := c }, σ.logged⟩ := by
  have hcache := h.store.cache
  have hpin : ∀ r, o ≠ .pin r := by
    rintro r rfl
    cases hplain
  refine h.of_exec hexec hpin (fun c' dev' blockno ho ↦ ?_) rfl fun p todo hc ↦ ?_
  · subst ho
    obtain ⟨rfl, hops, hlt⟩ := hadmitted
    refine h.uses.cons_user (hstart rfl) hops ?_
    rwa [countP_key]
  · obtain ⟨hnests, hhead, hdirty⟩ := h.script p todo hc
    refine ⟨?_, hhead, fun i hi ↦ ?_⟩
    · have hactives : actives c.refs = actives σ.sys.cache.refs := by
        have hrefs := (refs_exec hcache hexec).actives
        cases o with
        | bget c' dev' blockno =>
          dsimp only at hrefs
          rwa [show c'.commit = false from hstart rfl, if_neg Bool.false_ne_true] at hrefs
        | releasesleep r =>
          dsimp only at hrefs
          rwa [show r.caller.commit = false from hstart rfl, if_neg Bool.false_ne_true] at hrefs
        | acquiresleep | fill | modify | bwrite | pin | relink => exact hrefs
      rw [hactives]
      exact hnests
    · rcases dirty_exec hcache hexec hi with ⟨r, ho, -⟩ | ⟨hi', -⟩
      · exact absurd ho (hpin r)
      · rw [(hcache.keeps_block hexec i (.inr hi')).2]
        exact hdirty i hi'

/-- `log_write`. -/
theorem logWrite {r : Ref} (hexec : σ.sys.cache.exec d (.pin r) = some (.ok c))
    (hlog : σ.sys.log.logWrite (σ.sys.cache.buf r.buf).blockno = .ok log)
    (hadmitted : σ.Admitted sb dev (.logWrite r)) : CapInv sb dev disk₀
      ⟨{ σ.sys with cache := c, log := log }, σ.loggedAfter (.logWrite r)⟩ := by
  obtain ⟨-, -, -, rfl⟩ := Log.logWrite_eq_ok hlog
  obtain ⟨hr, hstage, hpin⟩ := Cache.exec_eq_ok hexec
  obtain ⟨hops, hhome, hfew⟩ := hadmitted
  obtain ⟨hcache, hlocks, hcoherent⟩ := h.store
  have hnone := h.no_commit (List.ne_nil_of_mem hops)
  have hrefs : c.refs = σ.sys.cache.refs := by rw [hpin]; rfl
  have hstore := h.store.exec hexec
  obtain ⟨b, hb⟩ : ∃ b, b = (σ.sys.cache.buf r.buf).blockno := ⟨_, rfl⟩
  have hrb : r.blockno = b := by rw [hb, (hlocks.request r hr).2]
  obtain ⟨p, hp⟩ : ∃ p, p = r.caller.proc := ⟨_, rfl⟩
  rw [← hb, ← hp] at hfew
  rw [← hp] at hops
  -- A block that is new in the log is new for the operation, which gives up one of those it may log.
  have hsum : (Log.absorb σ.sys.log.lh b).length +
      promised (update σ.logged p (Log.absorb (σ.logged p) b)) σ.sys.ops ≤
      σ.sys.log.lh.length + promised σ.logged σ.sys.ops := by
    rw [promised_eq_add_erase hops, promised_eq_add_erase hops, update_self,
      promised_update h.nodup.not_mem_erase]
    by_cases hmem : b ∈ σ.logged p
    · rw [Log.absorb_of_mem hmem, Log.absorb_of_mem ((h.logged p hops).2 b hmem)]
    · rw [Log.absorb_of_not_mem hmem, List.length_append, List.length_singleton] at hfew ⊢
      have hle := Log.length_absorb_le σ.sys.log.lh b
      omega
  have hreserve := h.reserve
  have hpos : MAXHELD ≤ MAXHELD * σ.sys.ops.length :=
    Nat.le_mul_of_pos_right _ (List.length_pos_of_mem hops)
  refine { h with
    store := hstore
    uses := ?_
    logged := fun q hq ↦ ?_
    home := fun x hx ↦ ?_
    dirty := fun i hi ↦ ?_
    reserve := ?_
    room := ?_
    script := fun q todo hc ↦ nomatch hnone.symm.trans hc }
  · rw [hrefs]
    exact h.uses
  · dsimp only [Ops.loggedAfter] at hq ⊢
    rw [← hb, ← hp]
    rcases eq_or_ne q p with rfl | hne
    · rw [update_self]
      refine ⟨hfew, fun x hx ↦ ?_⟩
      rcases Log.mem_absorb.1 hx with hx | rfl
      · exact Log.mem_absorb.2 (.inl ((h.logged q hops).2 x hx))
      · exact Log.mem_absorb.2 (.inr rfl)
    · rw [update_of_ne hne]
      exact ⟨(h.logged q hq).1, fun x hx ↦ Log.mem_absorb.2 (.inl ((h.logged q hq).2 x hx))⟩
  · rw [← hb] at hx
    rcases Log.mem_absorb.1 hx with hx | rfl
    · exact h.home x hx
    · rwa [← hrb]
  · rw [← hb]
    rcases dirty_exec hcache hexec hi with ⟨q, ho, rfl⟩ | ⟨hdirty, -⟩
    · -- the buffer that has been logged
      cases ho
      obtain ⟨hdev, hblockno⟩ := hstore.locks.request r (hrefs ▸ hr)
      refine ⟨hdev.trans (h.uses.dev _ (List.mem_map_of_mem hr)), ?_⟩
      rw [hblockno, hrb]
      exact Log.mem_absorb.2 (.inr rfl)
    · obtain ⟨hdev, hblockno⟩ := hcache.keeps_block hexec i (.inr hdirty)
      rw [hdev, hblockno]
      exact ⟨(h.dirty i hdirty).1, Log.mem_absorb.2 (.inl (h.dirty i hdirty).2)⟩
  · dsimp only [Ops.loggedAfter]
    rw [← hb, ← hp]
    omega
  · dsimp only
    rw [← hb]
    omega

/-- `begin_op`. -/
theorem beginOp (hlog : σ.sys.log.beginOp = some log) (hp : p ∉ σ.sys.ops)
    (hroomy : σ.Roomy (.beginOp p)) : CapInv sb dev disk₀
      ⟨{ σ.sys with log := log, ops := p :: σ.sys.ops }, σ.loggedAfter (.beginOp p)⟩ := by
  have hbooked := h.toBooked.beginOp hlog p
  obtain ⟨-, -, rfl⟩ := Log.beginOp_eq_some hlog
  exact { h with
    toBooked := hbooked
    nodup := List.nodup_cons.2 ⟨hp, h.nodup⟩
    uses := { h.uses with
      user := fun k hk hc ↦ List.mem_cons_of_mem _ (h.uses.user k hk hc) }
    logged := fun q hq ↦ by
      dsimp only [Ops.loggedAfter] at hq ⊢
      rcases eq_or_ne q p with rfl | hne
      · rw [update_self]
        exact ⟨Nat.zero_le _, nofun⟩
      · rw [update_of_ne hne]
        exact h.logged q ((List.mem_cons.1 hq).resolve_left hne)
    reserve := by
      have hle := promised_le (update σ.logged p []) (p :: σ.sys.ops)
      have hroomy : σ.sys.log.lh.length + (σ.sys.ops.length + 1) * (MAXOPBLOCKS + MAXHELD) ≤ NBUF :=
        hroomy
      dsimp only [Ops.loggedAfter]
      rw [Nat.mul_add, Nat.mul_comm _ MAXHELD] at hroomy
      rw [List.length_cons] at hle ⊢
      omega }

/-- `end_op`. A commit begins if the operation was the last one. -/
theorem endOp (hp : p ∈ σ.sys.ops) (hlog : σ.sys.log.endOp = .ok log)
    (hadmitted : σ.Admitted sb dev (.endOp p)) : CapInv sb dev disk₀ ⟨{ σ.sys with
      log := log
      ops := σ.sys.ops.erase p
      committer := if log.committing then some (p, commit sb log.lh) else σ.sys.committer },
      σ.logged⟩ := by
  have hnone := h.no_commit (List.ne_nil_of_mem hp)
  obtain ⟨hbooked, hcommit⟩ := h.toBooked.endOp hlog hp sb
  obtain ⟨-, rfl⟩ := Log.endOp_eq_ok hlog
  have huses : Uses dev (σ.sys.ops.erase p) none (σ.sys.cache.refs.map Ref.key) := by
    have huses := h.uses
    rw [hnone] at huses
    refine huses.erase fun k hk ↦ ?_
    obtain ⟨r, hr, rfl⟩ := List.mem_map.1 hk
    exact hadmitted r hr
  refine { h with
    toBooked := hbooked
    nodup := h.nodup.erase p
    uses := huses.of_none _
    logged := fun q hq ↦ h.logged q (List.mem_of_mem_erase hq)
    reserve := ?_
    script := fun q todo hc ↦ ?_ }
  · have hreserve := h.reserve
    rw [promised_eq_add_erase hp] at hreserve
    have hmul : MAXHELD * (σ.sys.ops.erase p).length ≤ MAXHELD * σ.sys.ops.length :=
      Nat.mul_le_mul_left _ (List.length_erase_le ..)
    dsimp only
    omega
  · obtain ⟨rfl, rfl⟩ := hcommit q todo hc
    refine ⟨?_, headLast_commit sb _, fun i hi ↦ bwrite_mem_commit (h.dirty i hi).2⟩
    -- nothing is in use by a commit yet
    have hactives : actives σ.sys.cache.refs = 0 := by
      refine List.countP_eq_zero.2 fun r hr hactive ↦ ?_
      have hcommit := (Bool.and_eq_true_iff.1 hactive).1
      exact nomatch huses.commit _ (List.mem_map_of_mem hr) hcommit
    rw [hactives]
    exact nests_commit sb _

/-- The end of a commit. -/
theorem committed (hc : σ.sys.committer = some (p, []))
    (hidle : σ.sys.Idle ⟨p, true⟩) : CapInv sb dev disk₀
      ⟨{ σ.sys with log := { σ.sys.log with committing := false }, committer := none }, σ.logged⟩ := by
  obtain ⟨hnests, -, -⟩ := h.script p [] hc
  refine { h with
    committing := rfl
    idle := fun hne ↦ absurd rfl hne
    uses := { h.uses with commit := fun k hk hcommit ↦ ?_ }
    script := nofun }
  -- a use by the commit would be of a buffer that is held
  obtain ⟨r, hr, rfl⟩ := List.mem_map.1 hk
  have hproc := h.uses.commit _ hk hcommit
  rw [hc] at hproc
  have hcaller : r.caller = ⟨p, true⟩ := by
    rw [show p = r.caller.proc from Option.some.inj hproc, ← hcommit]
    rfl
  have hactive := Ref.active_of_ready hcaller (hidle r hr hcaller)
  exact absurd hactive (List.countP_eq_zero.1 hnests r hr)

/-- A statement of a commit that uses the cache. -/
theorem statement (hdev : dev ≠ 0) {i : Instr}
    (hc : σ.sys.committer = some (p, i :: todo)) (hexec : σ.sys.cache.exec d o = some (.ok c))
    (hpin : ∀ r, o ≠ .pin r) (hget : ∀ c dev' blockno, o = .bget c dev' blockno → c = ⟨p, true⟩ ∧ dev' = dev)
    (hclear : i ≠ .clear)
    (hnests : Nests (actives σ.sys.cache.refs) (i :: todo) → Nests (actives c.refs) todo)
    (hwrite : ∀ b, i = .bwrite b → ∃ r ∈ σ.sys.cache.refs, o = .bwrite r ∧ r.blockno = b) :
    CapInv sb dev disk₀ ⟨{ σ.sys with cache := c, committer := some (p, todo) }, σ.logged⟩ := by
  have hcache := h.store.cache
  have hlocks := h.store.locks
  refine h.of_exec hexec hpin (fun c' dev' blockno ho ↦ ?_) (by rw [hc]; rfl) ?_
  · obtain ⟨rfl, rfl⟩ := hget c' dev' blockno ho
    exact h.uses.cons_commit (by rw [hc]; rfl)
  intro p' todo' heq
  obtain ⟨rfl, rfl⟩ := Prod.mk.inj (Option.some.inj heq)
  obtain ⟨hn, hhead, hdirty⟩ := h.script p _ hc
  refine ⟨hnests hn, ?_, fun j hj ↦ ?_⟩
  · cases i with
    | clear => exact absurd rfl hclear
    | bread | memmove | storeHead | bwrite | brelse => exact hhead
  · rcases dirty_exec hcache hexec hj with ⟨r, ho, -⟩ | ⟨hj', hnot⟩
    · exact absurd ho (hpin r)
    rw [(hcache.keeps_block hexec j (.inr hj')).2]
    rcases List.mem_cons.1 (hdirty j hj') with heq | hmem
    · -- the buffer of this block has been written, and there is no other one for it
      obtain ⟨r, hr, ho, hb⟩ := hwrite _ heq.symm
      obtain ⟨hrdev, hrb⟩ := hlocks.request r hr
      have hjdev := (h.dirty j hj').1
      have hkey : r.dev = dev := h.uses.dev _ (List.mem_map_of_mem hr)
      refine absurd (hcache.unique r.buf j ?_ ?_ ?_) (hnot r ho)
      · rw [hrdev, hkey]
        exact hdev
      · rw [hrdev, hkey, hjdev]
      · rw [hrb, hb]
    · exact hmem

/-- One statement of `commit`. -/
theorem runInstr (hdev : dev ≠ 0) {i : Instr} {t : Sys}
    (hc : σ.sys.committer = some (p, i :: todo)) (hrun : σ.sys.runInstr d dev p i = some (.ok t)) :
    CapInv sb dev disk₀ ⟨{ t with committer := some (p, todo) }, σ.logged⟩ := by
  have hcache := h.store.cache
  have hi := Sys.runInstr_eq_ok hrun
  cases i with
  | bread b =>
    obtain ⟨c, hexec, rfl⟩ := Sys.use_eq_ok hi
    refine h.statement hdev hc hexec nofun (fun c' dev' blockno ho ↦ ?_) nofun (fun hn ↦ ?_) nofun
    · cases ho
      exact ⟨rfl, rfl⟩
    · rw [show actives c.refs = _ from (refs_exec hcache hexec).actives]
      exact hn.2
  | memmove dst src =>
    obtain ⟨r, q, -, -, huse⟩ := hi
    obtain ⟨c, hexec, rfl⟩ := Sys.use_eq_ok huse
    refine h.statement hdev hc hexec nofun nofun nofun (fun hn ↦ ?_) nofun
    rw [show actives c.refs = _ from (refs_exec hcache hexec).actives]
    exact hn
  | storeHead b =>
    obtain ⟨r, -, huse⟩ := hi
    obtain ⟨c, hexec, rfl⟩ := Sys.use_eq_ok huse
    refine h.statement hdev hc hexec nofun nofun nofun (fun hn ↦ ?_) nofun
    rw [show actives c.refs = _ from (refs_exec hcache hexec).actives]
    exact hn
  | bwrite b =>
    obtain ⟨r, href, huse⟩ := hi
    obtain ⟨c, hexec, rfl⟩ := Sys.use_eq_ok huse
    obtain ⟨hr, -, hb, -⟩ := Sys.refOf_eq_some href
    refine h.statement hdev hc hexec nofun nofun nofun (fun hn ↦ ?_) fun b' heq ↦ ?_
    · rw [show actives c.refs = _ from (refs_exec hcache hexec).actives]
      exact hn
    · cases heq
      exact ⟨r, hr, rfl, hb⟩
  | brelse b =>
    obtain ⟨r, href, huse⟩ := hi
    obtain ⟨c, hexec, rfl⟩ := Sys.use_eq_ok huse
    obtain ⟨-, hcaller, -, -⟩ := Sys.refOf_eq_some href
    refine h.statement hdev hc hexec nofun nofun nofun (fun hn ↦ ?_) nofun
    have hactives : actives c.refs + (if r.caller.commit then 1 else 0) =
        actives σ.sys.cache.refs := (refs_exec hcache hexec).actives
    rw [hcaller, if_pos rfl] at hactives
    rw [Nat.eq_sub_of_add_eq hactives]
    exact hn.2
  | clear =>
    rw [hi]
    obtain ⟨hnests, hhead, hdirty⟩ := h.script p _ hc
    have hops := h.idle (by rw [hc]; exact nofun)
    -- every block has been written home
    have hclean : ∀ j, (σ.sys.cache.buf j).dirty = false := by
      intro j
      refine Bool.eq_false_iff.2 fun hj ↦ ?_
      have hmem := (List.mem_cons.1 (hdirty j hj)).resolve_left nofun
      refine h.home _ (h.dirty j hj).2 ?_
      rw [hhead.1 _ hmem]
      exact ⟨Nat.le_refl _, Nat.lt_add_of_pos_right sb.nlog_pos⟩
    have huses := h.uses
    rw [hc] at huses
    exact { h with
      toBooked := (hc ▸ h.toBooked).next [] todo
      uses := huses
      logged := fun q hq ↦ by
        rw [show σ.sys.ops = [] from hops] at hq
        cases hq
      home := nofun
      dirty := fun j hj ↦ nomatch (hclean j).symm.trans hj
      reserve := by
        have hreserve := h.reserve
        dsimp only
        rw [List.length_nil]
        omega
      room := by
        have hroom := h.room
        rw [List.length_nil]
        omega
      script := fun p' todo' heq ↦ by
        obtain ⟨rfl, rfl⟩ := Prod.mk.inj (Option.some.inj heq)
        exact ⟨hnests, hhead.2, fun j hj ↦ nomatch (hclean j).symm.trans hj⟩ }

theorem step (hdev : dev ≠ 0) {l : Label} (hadmitted : σ.Admitted sb dev l) (hroomy : σ.Roomy l)
    (hstep : σ.step sb d dev l = some (.ok τ)) : CapInv sb dev disk₀ τ := by
  obtain ⟨hsys, hlogged⟩ := Ops.step_eq_ok hstep
  obtain ⟨t, logged⟩ := τ
  obtain rfl : logged = σ.loggedAfter l := hlogged
  have hl := Sys.step_eq_ok (t := t) hsys
  cases l with
  | op o =>
    obtain ⟨hplain, hstart, huse⟩ := hl
    obtain ⟨c, hexec, rfl⟩ := Sys.use_eq_ok huse
    exact h.use hexec hplain (fun ho ↦ (hstart ho).1) hadmitted
  | logWrite r =>
    obtain ⟨-, -, -, c, log, hexec, hlog, rfl⟩ := hl
    exact h.logWrite hexec hlog hadmitted
  | beginOp p =>
    obtain ⟨hp, -, -, log, hlog, rfl⟩ := hl
    exact h.beginOp hlog hp hroomy
  | endOp p =>
    obtain ⟨hp, -, -, log, hlog, rfl⟩ := hl
    exact h.endOp hp hlog hadmitted
  | commit =>
    obtain ⟨p, hidle, ⟨hc, rfl⟩ | ⟨i, todo, u, hc, hrun, rfl⟩⟩ := hl
    · exact h.committed hc hidle
    · exact h.runInstr hdev hc hrun

end

/-! ### `bget` succeeds -/

/-- For an operation. -/
theorem bget_user (h : CapInv sb dev disk₀ σ) (hdev : dev ≠ 0) {c : Caller} {dev' b : ℕ}
    (hc : c.commit = false) (hadmitted : σ.Admitted sb dev (.op (.bget c dev' b))) :
    ∃ t, σ.sys.cache.bget c dev' b = some (.ok t) := by
  obtain ⟨-, hops, hlt⟩ := hadmitted
  -- the buffer counts among those that operations may hold
  have huses := h.uses
  rw [h.no_commit (List.ne_nil_of_mem hops)] at huses
  have hle := (huses.cons_user hc hops (by rwa [countP_key])).length_le
  rw [List.length_cons, List.length_map] at hle
  have hreserve := h.reserve
  obtain ⟨i, hi, hclean⟩ := h.exists_unused hdev (by omega)
  exact Cache.exists_bget h.store.cache hi hclean c dev' b

/-- For a commit. -/
theorem bget_commit (h : CapInv sb dev disk₀ σ) (hdev : dev ≠ 0) {b : ℕ}
    (hc : σ.sys.committer = some (p, .bread b :: todo)) (hidle : σ.sys.Idle ⟨p, true⟩) :
    ∃ t, σ.sys.cache.bget ⟨p, true⟩ dev b = some (.ok t) := by
  obtain ⟨⟨hactives, -⟩, -, -⟩ := h.script p _ hc
  -- only the commit uses buffers
  have hall : actives σ.sys.cache.refs = σ.sys.cache.refs.length := by
    refine List.countP_eq_length.2 fun r hr ↦ ?_
    have hk := List.mem_map_of_mem (f := Ref.key) hr
    have hcommit : r.caller.commit = true := by
      refine Bool.of_not_eq_false fun hfalse ↦ ?_
      have hops := h.uses.user _ hk hfalse
      rw [h.idle (by rw [hc]; exact nofun)] at hops
      cases hops
    have hproc := h.uses.commit _ hk hcommit
    rw [hc] at hproc
    have hcaller : r.caller = ⟨p, true⟩ := by
      rw [show p = r.caller.proc from Option.some.inj hproc, ← hcommit]
    exact Ref.active_of_ready hcaller (hidle r hr hcaller)
  have hroom := h.room
  have hheld : MAXHELD = 4 := rfl
  obtain ⟨i, hi, hclean⟩ := h.exists_unused hdev (by omega)
  exact Cache.exists_bget h.store.cache hi hclean _ dev b

end CapInv

section NoBuffers

variable {sb : Superblock} {d : Driver} {dev : ℕ}

theorem iderw_ne_noBuffers (s : Cache) (p : ℕ) (i : Fin NBUF) :
    s.iderw d p i ≠ .error .bgetNoBuffers := by
  intro h
  rw [Cache.iderw] at h
  iterate 5
    split at h
    · cases h
  cases h

theorem map_eq_error {α β : Type} {x : Option (Except Panic α)} {f : α → β} {e : Panic}
    (h : x.map (Except.map f) = some (.error e)) : x = some (.error e) := by
  obtain ⟨x, rfl, hx⟩ := Option.map_eq_some_iff.1 h
  cases x with
  | ok a => cases hx
  | error e' => rw [Except.error.inj hx]

/-- No other function panics like this. -/
theorem exec_eq_noBuffers {s : Cache} {o : Op}
    (h : s.exec d o = some (.error .bgetNoBuffers)) : ∃ c dev b, o = .bget c dev b := by
  -- `bread` and `bwrite` call `iderw`
  have hmap : ∀ (t : Cache) (p : ℕ) (i : Fin NBUF) (f : Cache → Cache),
      (t.iderw d p i).map f ≠ .error .bgetNoBuffers := fun t p i f hf ↦
    iderw_ne_noBuffers t p i (Option.some.inj (map_eq_error (x := some (t.iderw d p i)) (congrArg some hf)))
  cases o with
  | bget c dev b => exact ⟨c, dev, b, rfl⟩
  | fill r =>
    obtain ⟨-, h⟩ := Option.ite_none_right_eq_some.1 h
    have h := Option.some.inj h
    rw [Cache.fill] at h
    split at h
    · cases h
    · exact absurd h (hmap _ _ _ _)
  | bwrite r =>
    obtain ⟨-, h⟩ := Option.ite_none_right_eq_some.1 h
    have h := Option.some.inj h
    rw [Cache.bwrite] at h
    split at h
    · cases h
    · exact absurd h (hmap _ _ _ _)
  | releasesleep r =>
    obtain ⟨-, h⟩ := Option.ite_none_right_eq_some.1 h
    have h := Option.some.inj h
    rw [Cache.releasesleep] at h
    split at h
    all_goals cases h
  | acquiresleep | modify | pin | relink =>
    obtain ⟨-, h⟩ := Option.ite_none_right_eq_some.1 h
    cases h

variable {s : Sys}

theorem use_eq_error {o : Op} {e : Panic} (h : s.use d o = some (.error e)) :
    s.cache.exec d o = some (.error e) :=
  map_eq_error h

/-- A statement of a commit that panics like this is a `bread`. -/
theorem runInstr_eq_noBuffers {p : ℕ} {i : Instr} (h : s.runInstr d dev p i = some (.error .bgetNoBuffers)) :
    ∃ b, i = .bread b ∧ s.cache.bget ⟨p, true⟩ dev b = some (.error .bgetNoBuffers) := by
  cases i with
  | bread b => exact ⟨b, rfl, use_eq_error h⟩
  | memmove dst src =>
    obtain ⟨r, -, h⟩ := Option.bind_eq_some_iff.1 h
    obtain ⟨q, -, h⟩ := Option.bind_eq_some_iff.1 h
    obtain ⟨c, dev', b, ho⟩ := exec_eq_noBuffers (use_eq_error h)
    cases ho
  | storeHead b | bwrite b | brelse b =>
    obtain ⟨r, -, h⟩ := Option.bind_eq_some_iff.1 h
    obtain ⟨c, dev', b, ho⟩ := exec_eq_noBuffers (use_eq_error h)
    cases ho
  | clear => cases h

/-- A step that panics like this is a call of `bget` by an operation or by a commit. -/
theorem step_eq_noBuffers {l : Label} (h : s.step sb d dev l = some (.error .bgetNoBuffers)) :
    (∃ c dev' b, l = .op (.bget c dev' b) ∧ c.commit = false ∧
      s.cache.bget c dev' b = some (.error .bgetNoBuffers)) ∨
    ∃ p b todo, l = .commit ∧ s.committer = some (p, .bread b :: todo) ∧ s.Idle ⟨p, true⟩ ∧
      s.cache.bget ⟨p, true⟩ dev b = some (.error .bgetNoBuffers) := by
  cases l with
  | op o =>
    obtain ⟨⟨-, hstart⟩, h⟩ := Option.ite_none_right_eq_some.1 h
    have hexec := use_eq_error h
    obtain ⟨c, dev', b, rfl⟩ := exec_eq_noBuffers hexec
    exact .inl ⟨c, dev', b, rfl, (hstart rfl).1, hexec⟩
  | logWrite r =>
    obtain ⟨-, h⟩ := Option.ite_none_right_eq_some.1 h
    obtain ⟨x, hx, h⟩ := Option.map_eq_some_iff.1 h
    cases hlog : s.log.logWrite (s.cache.buf r.buf).blockno with
    | error e =>
      rw [hlog] at h
      obtain rfl := Except.error.inj h
      rcases Log.logWrite_eq_error hlog with ⟨he, -⟩ | ⟨he, -⟩
      all_goals cases he
    | ok log =>
      rw [hlog] at h
      cases x with
      | ok c => cases h
      | error e =>
        obtain rfl := Except.error.inj h
        obtain ⟨c, dev', b, ho⟩ := exec_eq_noBuffers hx
        cases ho
  | beginOp p =>
    obtain ⟨-, h⟩ := Option.ite_none_right_eq_some.1 h
    obtain ⟨log, -, h⟩ := Option.map_eq_some_iff.1 h
    cases h
  | endOp p =>
    obtain ⟨-, h⟩ := Option.ite_none_right_eq_some.1 h
    have h := Option.some.inj h
    rw [Log.endOp] at h
    split at h
    · cases h
    · split at h
      all_goals cases h
  | commit =>
    rw [Sys.step] at h
    split at h
    · cases h
    · obtain ⟨-, h⟩ := Option.ite_none_right_eq_some.1 h
      cases h
    next p i todo hc =>
      obtain ⟨hidle, h⟩ := Option.ite_none_right_eq_some.1 h
      obtain ⟨b, rfl, hget⟩ := runInstr_eq_noBuffers (map_eq_error h)
      exact .inr ⟨p, b, todo, rfl, hc, hidle, hget⟩

end NoBuffers

/-! ### Runs -/

/-- **Buffers for everyone.** In every run of operations that log at most `MAXOPBLOCKS` blocks and hold at
most `MAXHELD` buffers each, and that begin only when there is room for all these, `bget` returns to every
operation that calls it, and `bget: no buffers` is not reached, by an operation or by a commit. -/
theorem enough_buffers {sb : Superblock} {d : Driver} {dev : ℕ} (hdev : dev ≠ 0) {L : BufLinks}
    {disk : ℕ → ℕ → Block} {labels : List Label} {σ : Ops}
    (run : Machine.Run (Machine.guarded (fun σ l ↦ Ops.Admitted sb dev σ l ∧ Ops.Roomy σ l)
      (Ops.step sb d dev)) (Ops.init sb L disk) labels σ) :
    (∀ c b, c.commit = false → σ.Admitted sb dev (.op (.bget c dev b)) →
      ∃ t, σ.sys.cache.bget c dev b = some (.ok t)) ∧
    ∀ l, σ.Admitted sb dev l → σ.step sb d dev l ≠ some (.error .bgetNoBuffers) := by
  have hinv : CapInv sb dev disk σ := by
    refine run.invariant (P := CapInv sb dev disk) (.init sb dev L disk) ?_
    intro τ τ' l hτ hstep
    obtain ⟨⟨hadmitted, hroomy⟩, hstep⟩ := Machine.guarded_eq_some.1 hstep
    exact hτ.step hdev hadmitted hroomy hstep
  refine ⟨fun c b hc hadmitted ↦ hinv.bget_user hdev hc hadmitted, fun l hadmitted hstep ↦ ?_⟩
  rcases step_eq_noBuffers (map_eq_error hstep) with
    ⟨c, dev', b, rfl, hc, hget⟩ | ⟨p, b, todo, rfl, hc, hidle, hget⟩
  · obtain ⟨t, ht⟩ := hinv.bget_user hdev hc hadmitted
    cases hget.symm.trans ht
  · obtain ⟨t, ht⟩ := hinv.bget_commit hdev hc hidle
    cases hget.symm.trans ht

/-- Process `p` reads block `b` into buffer `i`, logs it and releases it. -/
def logOne (p b : ℕ) (i : Fin NBUF) : List Label :=
  readOne p b i ++ [.logWrite ⟨⟨p, false⟩, 1, b, i, .ready⟩] ++ releaseOne p b i

/-- Two operations fit. The first one has logged ten blocks, and the second one reads a block. -/
theorem enough_buffers_two : ∃ σ, Machine.Run (Machine.guarded
      (fun σ l ↦ Ops.Admitted mkfsSuperblock 1 σ l ∧ Ops.Roomy σ l)
      (Ops.step mkfsSuperblock (memide FSSIZE) 1))
      (Ops.init mkfsSuperblock ⟨fun _ ↦ none, fun _ ↦ none⟩ fun _ _ ↦ Block.zero)
      ([.beginOp 1, .beginOp 2] ++ ((List.finRange NBUF).take 10).flatMap fun i ↦ logOne 1 (100 + i.val) i) σ ∧
    σ.sys.log.lh.length = 10 ∧ ∃ t, σ.sys.cache.bget ⟨2, false⟩ 1 5 = some (.ok t) :=
  Machine.exists_run_of (fun σ ↦ σ.Admitted mkfsSuperblock 1 (.op (.bget ⟨2, false⟩ 1 5)) ∧
    σ.sys.log.lh.length = 10) (by decide +kernel) fun σ hrun hσ ↦
      ⟨hσ.2, (enough_buffers Nat.one_ne_zero hrun).1 _ 5 rfl hσ.1⟩

/-- Three operations have begun, and two of them have logged ten blocks each and the third one nine. This one
reads a block into the last buffer, and panics at the next block. -/
theorem no_buffers_left : ∃ labels σ, Machine.Run (Machine.guarded (Ops.Admitted mkfsSuperblock 1)
      (Ops.step mkfsSuperblock (memide FSSIZE) 1))
      (Ops.init mkfsSuperblock ⟨fun _ ↦ none, fun _ ↦ none⟩ fun _ _ ↦ Block.zero) labels σ ∧
    σ.Admitted mkfsSuperblock 1 (.op (.bget ⟨3, false⟩ 1 201)) ∧
    σ.sys.cache.refs.length = 1 ∧ σ.sys.log.lh.length = 29 ∧
    σ.step mkfsSuperblock (memide FSSIZE) 1 (.op (.bget ⟨3, false⟩ 1 201)) =
      some (.error .bgetNoBuffers) := by
  refine ⟨[.beginOp 1, .beginOp 2, .beginOp 3] ++
    ((List.finRange NBUF).take 29).flatMap (fun i ↦ logOne (i.val / 10 + 1) (100 + i.val) i) ++
    readOne 3 200 ⟨29, by decide⟩, ?_⟩
  exact Machine.exists_run_of (fun σ ↦ σ.Admitted mkfsSuperblock 1 (.op (.bget ⟨3, false⟩ 1 201)) ∧
    σ.sys.cache.refs.length = 1 ∧ σ.sys.log.lh.length = 29 ∧
    Machine.stops (Ops.step mkfsSuperblock (memide FSSIZE) 1) σ (.op (.bget ⟨3, false⟩ 1 201)) .bgetNoBuffers)
    (by decide +kernel) fun σ _ hσ ↦ ⟨hσ.1, hσ.2.1, hσ.2.2.1, Machine.step_of_stops hσ.2.2.2⟩

end Bio

end Xv6
