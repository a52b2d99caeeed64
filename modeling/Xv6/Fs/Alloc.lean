import Xv6.Fs.State

/-!
# The block allocator

`bzero`, `balloc` and `bfree` of `fs.c`, and what they do to the state.

The effect of a `log_write` that does not panic is `FsState.store`, and it can be described without
the limits of the log: `allocate` and `release` are made of it. Whether it panics is a question about
the set of blocks an operation logs: `Logged s F t` says that `F` is the set of blocks logged on the
way from `s` to `t`, and `Log.Fails` that the log has no room for `F`. Both compose, so that a
function that makes several changes is specified by the union of the blocks it logs.
-/

namespace Xv6

open Function

variable (sb : Superblock)

namespace FsState

/-- A `log_write` of block `b` with contents `v` that does not panic. -/
def store (s : FsState) (b : ℕ) (v : Block) : FsState :=
  { s with
    blocks := update s.blocks b v
    log := { s.log with lh := Log.absorb s.log.lh b }
    trace := s.trace ++ [b] }

/-- The bit of block `b` in the free map. -/
def used (s : FsState) (b : ℕ) : Bool :=
  (s.blocks (sb.BBLOCK b)).bit (b % BPB)

/-- Mark block `b` as used and zero it. -/
def allocate (s : FsState) (b : ℕ) : FsState :=
  (s.store (sb.BBLOCK b) ((s.blocks (sb.BBLOCK b)).setBit (b % BPB))).store b Block.zero

/-- Mark block `b` as free. -/
def release (s : FsState) (b : ℕ) : FsState :=
  s.store (sb.BBLOCK b) ((s.blocks (sb.BBLOCK b)).clearBit (b % BPB))

/-- Block `b` is the first free block. -/
structure LeastFree (s : FsState) (b : ℕ) : Prop where
  lt : b < sb.size
  free : s.used sb b = false
  least : ∀ c < b, s.used sb c = true

end FsState

namespace Fs

variable (env : Env)

/-- Zero a block. -/
def bzero (bno : ℕ) : FS Unit := do
  let _ ← bread bno
  logWrite bno Block.zero

/-- The inner loop of `balloc`: the first clear bit of the map block for `b`. -/
@[irreducible]
def firstFree (bp : Block) (b : ℕ) : Option ℕ :=
  (List.range BPB).find? fun bi ↦ decide (b + bi < env.sb.size) && !bp.bit bi

/-- The outer loop of `balloc`, for the given values of `b`. -/
def ballocFrom : List ℕ → FS ℕ
  | [] => panic .outOfBlocks
  | b :: bs => do
    let bp ← bread (env.sb.BBLOCK b)
    match firstFree env bp b with
    | some bi => do
      logWrite (env.sb.BBLOCK b) (bp.setBit bi)
      bzero (b + bi)
      return b + bi
    | none => ballocFrom bs

/-- Allocate a zeroed disk block. -/
def balloc : FS ℕ :=
  ballocFrom env ((List.range ((env.sb.size + BPB - 1) / BPB)).map (· * BPB))

/-- Free a disk block. -/
def bfree (b : ℕ) : FS Unit := do
  let bp ← bread (env.sb.BBLOCK b)
  let bi := b % BPB
  if bp.bit bi = false then
    panic .freeingFreeBlock
  else
    logWrite (env.sb.BBLOCK b) (bp.clearBit bi)

end Fs

/-! ### Which blocks are logged -/

namespace Log

/-- The blocks `F` can be logged without overfilling the log. -/
def Fits (log : Log) (F : Finset ℕ) : Prop :=
  ((log.lh.toFinset ∪ F).card : ℤ) < LOGSIZE ∧ ((log.lh.toFinset ∪ F).card : ℤ) < log.size - 1

/-- How logging the blocks `F` can fail. -/
def Fails (log : Log) (F : Finset ℕ) (e : Stop) : Prop :=
  F.Nonempty ∧ ((e = .panic .tooBigTransaction ∧ ¬log.Fits F) ∨
    (e = .panic .logWriteOutsideTrans ∧ log.outstanding < 1))

theorem Fits.mono {log : Log} {F G : Finset ℕ} (h : log.Fits G) (hFG : F ⊆ G) : log.Fits F := by
  have hcard := Finset.card_le_card (Finset.union_subset_union_right (s := log.lh.toFinset) hFG)
  obtain ⟨h1, h2⟩ := h
  constructor <;> omega

theorem Fails.mono {log : Log} {F G : Finset ℕ} {e : Stop} (h : log.Fails F e) (hFG : F ⊆ G) :
    log.Fails G e := by
  obtain ⟨hF, h⟩ := h
  refine ⟨hF.mono hFG, h.imp_left ?_⟩
  exact fun ⟨he, hfits⟩ ↦ ⟨he, fun hG ↦ hfits (hG.mono hFG)⟩

end Log

/-- The blocks `F` are logged on the way from `s` to `t`, and nothing else happens to the log. -/
structure Logged (s : FsState) (F : Finset ℕ) (t : FsState) : Prop where
  size : t.log.size = s.log.size
  outstanding : t.log.outstanding = s.log.outstanding
  committing : t.log.committing = s.log.committing
  lh : t.log.lh.toFinset = s.log.lh.toFinset ∪ F
  nodup : s.log.lh.Nodup → t.log.lh.Nodup
  /-- The calls of `log_write`. -/
  trace : ∃ tr : List ℕ, t.trace = s.trace ++ tr ∧ tr.toFinset = F

namespace Logged

variable {s t u : FsState} {F G : Finset ℕ}

theorem of_eq (hlog : t.log = s.log) (htrace : t.trace = s.trace) : Logged s ∅ t where
  size := by rw [hlog]
  outstanding := by rw [hlog]
  committing := by rw [hlog]
  lh := by rw [hlog, Finset.union_empty]
  nodup := fun h ↦ by rwa [hlog]
  trace := ⟨[], by rw [htrace, List.append_nil], rfl⟩

theorem trans (h : Logged s F t) (h' : Logged t G u) : Logged s (F ∪ G) u where
  size := h'.size.trans h.size
  outstanding := h'.outstanding.trans h.outstanding
  committing := h'.committing.trans h.committing
  lh := by rw [h'.lh, h.lh, Finset.union_assoc]
  nodup := fun hs ↦ h'.nodup (h.nodup hs)
  trace := by
    obtain ⟨tr, htr, hF⟩ := h.trace
    obtain ⟨tr', htr', hG⟩ := h'.trace
    exact ⟨tr ++ tr', by rw [htr', htr, List.append_assoc], by rw [List.toFinset_append, hF, hG]⟩

theorem setInode (h : Logged s F t) (ip : ℕ) (i : Inode) : Logged s F (t.setInode ip i) where
  size := h.size
  outstanding := h.outstanding
  committing := h.committing
  lh := h.lh
  nodup := h.nodup
  trace := h.trace

theorem store (s : FsState) (b : ℕ) (v : Block) : Logged s {b} (s.store b v) where
  size := rfl
  outstanding := rfl
  committing := rfl
  lh := by
    show (Log.absorb s.log.lh b).toFinset = _
    rw [Log.toFinset_absorb, Finset.union_comm]
    rfl
  nodup := Log.nodup_absorb
  trace := ⟨[b], rfl, rfl⟩

theorem allocate (sb : Superblock) (s : FsState) (b : ℕ) :
    Logged s {sb.BBLOCK b, b} (s.allocate sb b) := by
  exact (store s _ _).trans (store _ _ _)

/-- A later change that fails because of the log, fails because of all that is logged. -/
theorem fails (h : Logged s F t) {e : Stop} (ht : t.log.Fails G e) : s.log.Fails (F ∪ G) e := by
  obtain ⟨hG, ht⟩ := ht
  refine ⟨hG.mono Finset.subset_union_right, ?_⟩
  rcases ht with ⟨he, ht⟩ | ⟨he, ht⟩
  · refine .inl ⟨he, fun hs ↦ ht ?_⟩
    rw [Log.Fits, h.lh, h.size, Finset.union_assoc]
    exact hs
  · exact .inr ⟨he, h.outstanding ▸ ht⟩

end Logged

/-! ### The free map -/

namespace FsState

variable {sb} {s : FsState} {b c : ℕ}

theorem BBLOCK_eq_and_mod_eq : sb.BBLOCK c = sb.BBLOCK b ∧ c % BPB = b % BPB ↔ c = b := by
  unfold Superblock.BBLOCK
  have hb := Nat.div_add_mod b BPB
  have hc := Nat.div_add_mod c BPB
  constructor
  · rintro ⟨hdiv, hmod⟩
    rw [← hb, ← hc, hmod, show c / BPB = b / BPB by omega]
  · rintro rfl
    exact ⟨rfl, rfl⟩

theorem mod_BPB_lt (c : ℕ) : c % BPB < BPB := Nat.mod_lt _ (by decide)

/-- A store outside the free map leaves it alone. -/
theorem used_store_of_ne {v : Block} (h : sb.BBLOCK c ≠ b) : (s.store b v).used sb c = s.used sb c := by
  show (update s.blocks b v (sb.BBLOCK c)).bit _ = _
  rw [update_of_ne h]
  rfl

theorem used_allocate (hb : sb.dataStart ≤ b) (hc : c < sb.size) :
    (s.allocate sb b).used sb c = (decide (c = b) || s.used sb c) := by
  have hne : sb.BBLOCK c ≠ b := by
    have := sb.BBLOCK_lt_dataStart hc
    omega
  rw [allocate, used_store_of_ne hne]
  show (update s.blocks (sb.BBLOCK b) _ (sb.BBLOCK c)).bit (c % BPB) = _
  by_cases hblk : sb.BBLOCK c = sb.BBLOCK b
  · rw [hblk, update_self, Block.bit_setBit (mod_BPB_lt c), used, hblk]
    congr 1
    rw [decide_eq_decide]
    exact (and_iff_right hblk).symm.trans BBLOCK_eq_and_mod_eq
  · rw [update_of_ne hblk, used, decide_eq_false, Bool.false_or]
    rintro rfl
    exact hblk rfl

theorem used_release : (s.release sb b).used sb c = (!decide (c = b) && s.used sb c) := by
  show (update s.blocks (sb.BBLOCK b) _ (sb.BBLOCK c)).bit (c % BPB) = _
  by_cases hblk : sb.BBLOCK c = sb.BBLOCK b
  · rw [hblk, update_self, Block.bit_clearBit (mod_BPB_lt c), used, hblk]
    congr 2
    rw [decide_eq_decide]
    exact (and_iff_right hblk).symm.trans BBLOCK_eq_and_mod_eq
  · rw [update_of_ne hblk, used, decide_eq_false, Bool.not_false, Bool.true_and]
    rintro rfl
    exact hblk rfl

end FsState

/-! ### What the functions do -/

namespace Fs

variable {env : Env} {s : FsState}

theorem logWrite_sat (hnodup : s.log.lh.Nodup) (b : ℕ) (v : Block) :
    (logWrite b v).Sat s (fun _ t ↦ 1 ≤ s.log.outstanding ∧ t = s.store b v) (s.log.Fails {b}) := by
  have hlen : s.log.lh.length ≤ (s.log.lh.toFinset ∪ {b}).card := by
    rw [← List.toFinset_card_of_nodup hnodup]
    exact Finset.card_le_card Finset.subset_union_left
  rw [logWrite, Prog.sat_get_bind]
  split
  next e hlog =>
    rw [panic, Prog.sat_fail]
    refine ⟨Finset.singleton_nonempty b, ?_⟩
    rcases Log.logWrite_eq_error hlog with ⟨rfl, hfull⟩ | ⟨rfl, hout⟩
    · refine .inl ⟨rfl, fun hfits ↦ ?_⟩
      obtain ⟨h1, h2⟩ := hfits
      omega
    · exact .inr ⟨rfl, hout⟩
  next log hlog =>
    obtain ⟨-, -, hout, rfl⟩ := Log.logWrite_eq_ok hlog
    exact ⟨hout, rfl⟩

variable {b : ℕ}

theorem bzero_sat (hnodup : s.log.lh.Nodup) (hb : b < FSSIZE) :
    (bzero b).Sat s (fun _ t ↦ t = s.store b Block.zero) (s.log.Fails {b}) := by
  rw [bzero, Prog.sat_bind, sat_bread hb]
  exact (logWrite_sat hnodup b Block.zero).imp fun _ t ht ↦ ht.2

theorem BBLOCK_lt_FSSIZE (sb : Superblock) (hb : b < sb.size) : sb.BBLOCK b < FSSIZE := by
  have h1 := sb.BBLOCK_lt_dataStart hb
  have h2 := sb.dataStart_lt_size
  have h3 := sb.size_le
  omega

theorem IBLOCK_lt_FSSIZE {sb : Superblock} {inum : ℕ}
    (h : inum < sb.ninodes) : sb.IBLOCK inum < FSSIZE := by
  have h1 := sb.IBLOCK_lt_bmapstart h
  have h2 := sb.bmapstart_lt_dataStart
  have h3 := sb.dataStart_lt_size
  have h4 := sb.size_le
  omega

/-- What `balloc` does: within an operation, it takes the first free block. -/
structure Allocates (sb : Superblock) (s : FsState) (b : ℕ) (t : FsState) : Prop where
  leastFree : s.LeastFree sb b
  outstanding : 1 ≤ s.log.outstanding
  eq : t = s.allocate sb b

/-- How `balloc` can fail. -/
def BallocFails (sb : Superblock) (s : FsState) (e : Stop) : Prop :=
  (∃ b, s.LeastFree sb b ∧ s.log.Fails {sb.BBLOCK b, b} e) ∨
    (e = .panic .outOfBlocks ∧ ∀ c < sb.size, s.used sb c = true)

theorem firstFree_eq_some {bp : Block} {bi : ℕ} (h : firstFree env bp b = some bi) :
    bi < BPB ∧ b + bi < env.sb.size ∧ bp.bit bi = false ∧
      ∀ i < bi, b + i < env.sb.size → bp.bit i = true := by
  unfold firstFree at h
  obtain ⟨hbit, hmem, hall⟩ := List.find?_range_eq_some.1 h
  rw [Bool.and_eq_true, decide_eq_true_eq, Bool.not_eq_true'] at hbit
  refine ⟨List.mem_range.1 hmem, hbit.1, hbit.2, fun i hi hsize ↦ ?_⟩
  have hi := hall i hi
  rwa [decide_eq_true hsize, Bool.true_and, Bool.not_not] at hi

theorem firstFree_eq_none {bp : Block} (h : firstFree env bp b = none) {i : ℕ} (hi : i < BPB)
    (hsize : b + i < env.sb.size) : bp.bit i = true := by
  unfold firstFree at h
  have hi := List.find?_eq_none.1 h i (List.mem_range.2 hi)
  rwa [decide_eq_true hsize, Bool.true_and, Bool.not_eq_true', Bool.not_eq_false] at hi

/-- Where a block behind the multiple `b` of `BPB` has its bit. -/
theorem used_add (sb : Superblock) (s : FsState) {bi : ℕ} (hb : BPB ∣ b) (hbi : bi < BPB) :
    sb.BBLOCK (b + bi) = sb.BBLOCK b ∧ (b + bi) % BPB = bi ∧
      s.used sb (b + bi) = (s.blocks (sb.BBLOCK b)).bit bi := by
  obtain ⟨k, rfl⟩ := hb
  have hpos : 0 < BPB := by decide
  have hblock : sb.BBLOCK (BPB * k + bi) = sb.BBLOCK (BPB * k) := by
    rw [Superblock.BBLOCK, Superblock.BBLOCK, Nat.mul_add_div hpos,
      Nat.mul_div_cancel_left _ hpos, Nat.div_eq_of_lt hbi, Nat.add_zero]
  have hmod : (BPB * k + bi) % BPB = bi := by rw [Nat.mul_add_mod, Nat.mod_eq_of_lt hbi]
  exact ⟨hblock, hmod, by rw [FsState.used, hblock, hmod]⟩

variable (hnodup : s.log.lh.Nodup)

include hnodup

/-- One turn of the outer loop of `balloc`. -/
theorem ballocFrom_cons_sat {bs : List ℕ} (hb : BPB ∣ b) (hsize : b < env.sb.size)
    (hbefore : ∀ c < b, s.used env.sb c = true)
    (hrest : (∀ c < b + BPB, c < env.sb.size → s.used env.sb c = true) →
      (ballocFrom env bs).Sat s (Allocates env.sb s)
        (BallocFails env.sb s)) : (ballocFrom env (b :: bs)).Sat s (Allocates env.sb s)
      (BallocFails env.sb s) := by
  rw [ballocFrom, Prog.sat_bind, sat_bread (BBLOCK_lt_FSSIZE env.sb hsize)]
  -- a block that the inner loop has passed is in use
  have hpassed : ∀ n ≤ BPB,
      (∀ i < n, b + i < env.sb.size → (s.blocks (env.sb.BBLOCK b)).bit i = true) →
        ∀ c < b + n, c < env.sb.size → s.used env.sb c = true := by
    intro n hn hall c hc hcs
    rcases Nat.lt_or_ge c b with hcb | hcb
    · exact hbefore c hcb
    · obtain ⟨i, rfl⟩ := Nat.exists_eq_add_of_le hcb
      have hi : i < n := Nat.lt_of_add_lt_add_left hc
      rw [(used_add env.sb s hb (hi.trans_le hn)).2.2, hall i hi hcs]
  split
  next bi hfind =>
    obtain ⟨hbi, hlt, hbit, hall⟩ := firstFree_eq_some hfind
    obtain ⟨hblock, hmod, hused⟩ := used_add env.sb s hb hbi
    have hleast : s.LeastFree env.sb (b + bi) :=
      ⟨hlt, hused.trans hbit, fun c hc ↦ hpassed bi hbi.le hall c hc (hc.trans hlt)⟩
    have hstate : s.allocate env.sb (b + bi) = (s.store (env.sb.BBLOCK b)
        ((s.blocks (env.sb.BBLOCK b)).setBit bi)).store (b + bi) Block.zero := by
      rw [FsState.allocate, hblock, hmod]
    have hfails : ∀ e, s.log.Fails {env.sb.BBLOCK b, b + bi} e → BallocFails env.sb s e :=
      fun e he ↦ Or.inl ⟨b + bi, hleast, by rwa [hblock]⟩
    have hlogged := Logged.store s (env.sb.BBLOCK b) ((s.blocks (env.sb.BBLOCK b)).setBit bi)
    refine Prog.Sat.bind ((logWrite_sat hnodup _ _).mono (fun _ t ht ↦ ht) fun e he ↦ ?_) ?_
    · exact hfails e (he.mono (by simp))
    · rintro - t ⟨hout, rfl⟩
      refine Prog.Sat.bind ((bzero_sat (hlogged.nodup hnodup)
        (hlt.trans_le env.sb.size_le)).mono (fun _ t ht ↦ ht) fun e he ↦ ?_) ?_
      · refine hfails e ?_
        exact hlogged.fails he
      · rintro - t rfl
        exact ⟨hleast, hout, hstate.symm⟩
  next hfind =>
    exact hrest (hpassed BPB (le_refl _) fun i hi hsize ↦ firstFree_eq_none hfind hi hsize)

/-- The outer loop of `balloc`, once the map blocks before the `k`th have been passed. -/
theorem ballocFrom_sat (n k : ℕ)
    (hend : env.sb.size ≤ (k + n) * BPB) (hstart : ∀ j < n, (k + j) * BPB < env.sb.size)
    (hbefore : ∀ c < k * BPB, c < env.sb.size → s.used env.sb c = true) :
    (ballocFrom env ((List.range' k n).map (· * BPB))).Sat s
      (Allocates env.sb s) (BallocFails env.sb s) := by
  induction n generalizing k with
  | zero => exact .inr ⟨rfl, fun c hc ↦ hbefore c (hc.trans_le hend) hc⟩
  | succ n ih =>
    have hk : k * BPB < env.sb.size := by
      have h0 := hstart 0 n.succ_pos
      rwa [Nat.add_zero] at h0
    refine ballocFrom_cons_sat hnodup (Nat.dvd_mul_left BPB k) hk
      (fun c hc ↦ hbefore c hc (hc.trans hk)) fun hpassed ↦ ih (k + 1) ?_ (fun j hj ↦ ?_) ?_
    · rwa [Nat.add_right_comm]
    · rw [Nat.add_assoc, Nat.add_comm 1 j]
      exact hstart (j + 1) (Nat.succ_lt_succ hj)
    · rwa [Nat.add_mul, Nat.one_mul]

/-- `balloc` takes the first free block. -/
theorem balloc_sat : (balloc env).Sat s (Allocates env.sb s) (BallocFails env.sb s) := by
  have hBPB : BPB = 4096 := rfl
  rw [balloc, List.range_eq_range']
  refine ballocFrom_sat hnodup _ 0 ?_ (fun j hj ↦ ?_) fun c hc ↦ ?_
  · rw [hBPB]
    omega
  · rw [hBPB] at hj ⊢
    omega
  · exact absurd hc (Nat.not_lt_zero c)

/-- `bfree` clears a set bit. -/
theorem bfree_sat (hb : b < env.sb.size) :
    (bfree env b).Sat s (fun _ t ↦ s.used env.sb b = true ∧ t = s.release env.sb b) fun e ↦
      s.log.Fails {env.sb.BBLOCK b} e ∨ e = .panic .freeingFreeBlock ∧ s.used env.sb b = false := by
  rw [bfree, Prog.sat_bind, sat_bread (BBLOCK_lt_FSSIZE env.sb hb)]
  dsimp only
  split
  next hbit => exact .inr ⟨rfl, hbit⟩
  next hbit =>
    refine (logWrite_sat hnodup _ _).mono (fun _ t ht ↦ ⟨?_, ht.2⟩) fun e he ↦ Or.inl he
    exact (Bool.not_eq_false _).mp hbit

end Fs

/-! ### An operation that has just begun -/

/-- An operation is going on and has logged nothing yet. -/
structure Log.JustBegun (log : Log) : Prop where
  size : log.size = LOGSIZE
  outstanding : 1 ≤ log.outstanding
  lh : log.lh = []

theorem Log.JustBegun.not_fails {log : Log} (h : log.JustBegun) {F : Finset ℕ} (hF : F.card ≤ 28)
    {e : Stop} : ¬log.Fails F e := by
  have hsize := h.size
  have hL : LOGSIZE = 30 := rfl
  rintro ⟨-, ⟨-, hfits⟩ | ⟨-, hout⟩⟩
  · refine hfits ?_
    rw [Log.Fits, h.lh, List.toFinset_nil, Finset.empty_union]
    constructor <;> omega
  · have := h.outstanding
    omega

/-! ### A disk without files -/

/-- An environment on the disk that `mkfs` lays out: no devices, no pipes, and zeroes behind the
data of a buffer. -/
def mkfsEnv : Env where
  sb := mkfsSuperblock
  stray := fun _ _ _ ↦ 0
  devRead := fun _ ↦ none
  devWrite := fun _ ↦ none
  piperead := fun _ _ ↦ (-1, [])
  pipewrite := fun _ _ ↦ -1

/-- The disk that `mkfs` lays out, with the first `n` blocks marked and zeroes elsewhere. -/
def markedDisk (n : ℕ) : ℕ → Block :=
  update (fun _ ↦ Block.zero) mkfsSuperblock.bmapstart (Block.firstBits n)

theorem used_markedDisk {s : FsState} {n b : ℕ}
    (hs : ∀ c, mkfsSuperblock.bmapstart ≤ c → s.blocks c = markedDisk n c) (hn : n ≤ BPB) :
    s.used mkfsSuperblock b = true ↔ b < n := by
  rw [FsState.used, Superblock.BBLOCK, hs _ (Nat.le_add_left ..), markedDisk]
  have hdiv := Nat.div_add_mod b BPB
  rcases Nat.eq_zero_or_pos (b / BPB) with h0 | hpos
  · rw [h0, Nat.mul_zero, Nat.zero_add] at hdiv
    rw [h0, Nat.zero_add, update_self, hdiv, Block.bit_firstBits, decide_eq_true_iff]
    exact hdiv ▸ FsState.mod_BPB_lt b
  · rw [update_of_ne (by omega), Block.bit_zero]
    have hge : BPB ≤ b := (Nat.div_pos_iff.1 hpos).2
    exact iff_of_false Bool.false_ne_true (Nat.not_lt.2 (hn.trans hge))

end Xv6
