import Mathlib.Order.Lattice.Nat
import Xv6.Fs.Calls

/-!
# Writes to disjoint ranges of a file

Any number of processes call `pwrite` on one inode, at ranges of bytes that do not overlap. Their
chunks interleave in any order, allocate blocks and indirect blocks out of order, and share the
blocks at the ends of the ranges.

`PwriteInv` says what holds in between: how many bytes each call has written so far, and that these
bytes and no others have changed. From it, `pwrites_disjoint`: whatever the schedule, when all calls
have returned the file has the bytes of all of them. The calls do return, since there is always one
that can go on and the number of steps is bounded; only the log can be in the way, when it is too
small for what the operations log between them.
-/

namespace Xv6

open Function Calls

/-! ### Where a call is -/

/-- A call `pwrite(f, addr, n, off)`. -/
structure Pwrite where
  /-- The open file. -/
  f : ℕ
  /-- The bytes to be written. -/
  addr : ℕ → Byte
  /-- The number of bytes. -/
  n : ℕ
  /-- Where they go. -/
  off : Word

namespace Pwrite

variable (w : Pwrite)

/-- The call, as a call of the machine. -/
def call : FileCall := .write w.f w.addr w.n (some w.off)

/-- The length of the chunk that begins when `k` bytes have been written. -/
def chunk (k : ℕ) : ℕ := min (w.n - k) 1536

/-- Where the call can be when it has written `k` bytes. -/
inductive At : ℕ → Phase → Prop where
  | start : At 0 (.start w.call)
  | top {k : ℕ} {o : Word} (hk : k ≤ w.n) (ho : o.toNat = w.off.toNat + k) :
      At k (.top w.f w.addr w.n k (some o))
  | inOp {k : ℕ} {o : Word} (hk : k < w.n) (ho : o.toNat = w.off.toNat + k) :
      At k (.inOp w.f w.addr w.n k (some o))
  | wrote {k : ℕ} {o : Word} (hk : k < w.n) (ho : o.toNat = w.off.toNat + k) :
      At (k + w.chunk k) (.wrote w.f w.addr w.n k (some o) (w.chunk k))
  | done : At w.n (.done w.n)

variable {w}

theorem min_eq_chunk {k : ℕ} (hk : k < w.n) :
    min ((w.n : ℤ) - k) Fs.maxChunk = w.chunk k ∧ 0 < w.chunk k ∧ k + w.chunk k ≤ w.n := by
  have hmax : Fs.maxChunk = 1536 := rfl
  rw [chunk]
  omega

theorem At.le {k : ℕ} {q : Phase} (h : w.At k q) : k ≤ w.n := by
  cases h with
  | start => exact Nat.zero_le _
  | top hk => exact hk
  | inOp hk => exact hk.le
  | wrote hk => exact (min_eq_chunk hk).2.2
  | done => exact le_refl _

/-- How many steps the call has still to take. -/
def remaining (w : Pwrite) : Phase → ℕ
  | .start _ => 3 * ((w.n + 1535) / 1536) + 2
  | .top _ _ _ i _ => 3 * ((w.n - i.toNat + 1535) / 1536) + 1
  | .inOp _ _ _ i _ => 3 * ((w.n - i.toNat + 1535) / 1536)
  | .wrote _ _ _ i _ _ => 3 * ((w.n - i.toNat + 1535) / 1536) - 1
  | .done _ => 0

end Pwrite

/-- The call is within an operation of the log. -/
def Phase.inOperation : Phase → Bool
  | .inOp .. | .wrote .. => true
  | _ => false

/-! ### The setting and its invariant -/

variable {ι : Type} [Fintype ι]

/-- The setting: calls of `pwrite` on one inode, while nothing else goes on. -/
structure DisjointPwrites (sb : Superblock) (R : ℕ → ℕ → ℕ) (ip : ℕ) (w : ι → Pwrite)
    (s : FsState) : Prop where
  opened : Opened sb R s
  outstanding : s.log.outstanding = 0
  committing : s.log.committing = false
  lh : s.log.lh = []
  /-- The files are open for writing on the inode `*ip`. -/
  file : ∀ p, s.OnInode (w p).f ∧ (s.ftable (w p).f).writable = true ∧ (s.ftable (w p).f).ip = ip
  type : (s.icache ip).type ≠ T_DEV
  /-- The ranges lie below the blocks that `bmap` does not find. -/
  safe : ∀ p, (w p).off.toNat + (w p).n ≤ SAFEBYTES
  /-- They do not overlap. -/
  disjoint : ∀ p q, p ≠ q → ∀ x, (w p).off.toNat ≤ x → x < (w p).off.toNat + (w p).n →
    (w q).off.toNat ≤ x → x < (w q).off.toNat + (w q).n → False
  /-- There are free blocks for all that is missing in the ranges. -/
  free : (Finset.univ.biUnion fun p ↦ s.needed ip (w p).off.toNat (w p).n).card ≤
    (s.freeBlocks sb).card

/-- The file when the calls have written `k` bytes each. -/
structure Holds (ip : ℕ) (w : ι → Pwrite) (s₀ : FsState) (k : ι → ℕ) (s : FsState) : Prop where
  data : ∀ p, ∀ j < k p, s.byteAt (s.addrs ip) ((w p).off.toNat + j) = (w p).addr j
  /-- The other bytes. -/
  rest : ∀ x < SAFEBYTES, (∀ p, x < (w p).off.toNat ∨ (w p).off.toNat + k p ≤ x) →
    s.byteAt (s.addrs ip) x = s₀.byteAt (s₀.addrs ip) x
  size_le : (s₀.icache ip).size.toNat ≤ (s.icache ip).size.toNat
  end_le : ∀ p, 0 < k p → (w p).off.toNat + k p ≤ (s.icache ip).size.toNat
  /-- It reaches no further. -/
  size_eq : (s.icache ip).size.toNat = (s₀.icache ip).size.toNat ∨
    ∃ p, 0 < k p ∧ (s.icache ip).size.toNat = (w p).off.toNat + k p

/-- What holds when the calls have written `k` bytes each. -/
structure PwriteInv (sb : Superblock) (ip : ℕ) (w : ι → Pwrite) (s₀ : FsState) (R : ℕ → ℕ → ℕ)
    (k : ι → ℕ) (c : Calls ι) : Prop extends Holds ip w s₀ k c.shared where
  opened : Opened sb R c.shared
  ftable : c.shared.ftable = s₀.ftable
  type : (c.shared.icache ip).type = (s₀.icache ip).type
  place : ∀ p, (w p).At (k p) (c.pc p)
  outstanding : c.shared.log.outstanding = (∑ p, (c.pc p).inOperation.toNat : ℕ)
  committing : c.shared.log.committing = false
  /-- The last operation to end has committed. -/
  idle : c.shared.log.outstanding = 0 → c.shared.log.lh = []
  free : (Finset.univ.biUnion fun p ↦ c.shared.needed ip (w p).off.toNat (w p).n).card ≤
    (c.shared.freeBlocks sb).card

variable {sb : Superblock} {R R₀ : ℕ → ℕ → ℕ} {ip : ℕ} {w : ι → Pwrite} {s₀ s t : FsState}
  {k : ι → ℕ} {c d : Calls ι} {p : ι}

/-! ### One step -/

/-- A chunk adds its bytes to those that have been written. -/
theorem Holds.written [DecidableEq ι] (h : Holds ip w s₀ k s) (h₀ : DisjointPwrites sb R₀ ip w s₀)
    (hle : ∀ q, k q ≤ (w q).n) {m : ℕ} (hm : 0 < m) (hkm : k p + m ≤ (w p).n) {l : List Growth}
    {R' : ℕ → ℕ → ℕ} (hw : Fs.Written sb R ip ip s ((w p).off.toNat + k p)
      (fun j ↦ (w p).addr (k p + j)) m l R' t) : Holds ip w s₀ (update k p (k p + m)) t := by
  have hsafe := h₀.safe p
  obtain ⟨a, ha⟩ := hw.icache_eq
  have hbytes (x : ℕ) (hx : x < SAFEBYTES) : t.byteAt (t.addrs ip) x =
      if (w p).off.toNat + k p ≤ x ∧ x < (w p).off.toNat + k p + m then
        (w p).addr (k p + (x - ((w p).off.toNat + k p)))
      else s.byteAt (s.addrs ip) x := by
    rw [← hw.roots.1, ← hw.roots.2, hw.bytes ip x hx]
    simp only [true_and]
  have hsize : (t.icache ip).size.toNat =
      if (s.icache ip).size.toNat < (w p).off.toNat + k p + m then (w p).off.toNat + k p + m
      else (s.icache ip).size.toNat := by
    rw [ha]
    rw [Fs.toNat_sizeAfter (by omega)]
    simp only [Fs.Enlarges, hm, true_and]
  have hk (q : ι) : update k p (k p + m) q = if q = p then k p + m else k q :=
    update_apply ..
  refine ⟨fun q j hj ↦ ?_, fun x hx hout ↦ ?_, ?_, fun q hq ↦ ?_, ?_⟩
  · rw [hk] at hj
    rcases eq_or_ne q p with rfl | hqp
    · rw [if_pos rfl] at hj
      rw [hbytes _ (by omega)]
      split
      next hin => rw [show k q + ((w q).off.toNat + j - ((w q).off.toNat + k q)) = j by omega]
      next hnot => exact h.data q j (by omega)
    · rw [if_neg hqp] at hj
      have hq := hle q
      have hsafeq := h₀.safe q
      rw [hbytes _ (by omega), if_neg fun hin ↦ ?_]
      · exact h.data q j hj
      · exact h₀.disjoint p q hqp.symm ((w q).off.toNat + j) (by omega) (by omega) (by omega)
          (by omega)
  · have hp := hout p
    rw [hk, if_pos rfl] at hp
    rw [hbytes x hx, if_neg (by omega)]
    refine h.rest x hx fun q ↦ ?_
    have hq := hout q
    rw [hk] at hq
    rcases eq_or_ne q p with rfl | hqp
    · omega
    · rwa [if_neg hqp] at hq
  · have := h.size_le
    rw [hsize]
    split <;> omega
  · rw [hk] at hq ⊢
    rw [hsize]
    rcases eq_or_ne q p with rfl | hqp
    · rw [if_pos rfl]
      split <;> omega
    · rw [if_neg hqp] at hq ⊢
      have := h.end_le q hq
      split <;> omega
  · rw [hsize]
    split
    · exact .inr ⟨p, by rw [hk, if_pos rfl]; omega, by rw [hk, if_pos rfl]; omega⟩
    next hnot =>
      obtain hzero | ⟨q, hq, hqeq⟩ := h.size_eq
      · exact .inl hzero
      -- the end of the file is not the end of what this call had written
      · have hqp : q ≠ p := by
          rintro rfl
          omega
        refine .inr ⟨q, ?_⟩
        rw [hk, if_neg hqp]
        exact ⟨hq, hqeq⟩

namespace PwriteInv

section

variable (h : PwriteInv sb ip w s₀ R k c)

include h

/-- Operations begin and end. -/
theorem setLog {log : Log}
    (hs : d.shared = { c.shared with log := log }) (hpc : ∀ q ≠ p, d.pc q = c.pc q)
    (hat : (w p).At (k p) (d.pc p)) (hnodup : log.lh.Nodup) (hcommitting : log.committing = false)
    (hout : log.outstanding = (∑ q, (d.pc q).inOperation.toNat : ℕ))
    (hidle : log.outstanding = 0 → log.lh = []) : PwriteInv sb ip w s₀ R k d where
  data := by rw [hs]; exact h.data
  rest := by rw [hs]; exact h.rest
  size_le := by rw [hs]; exact h.size_le
  end_le := by rw [hs]; exact h.end_le
  size_eq := by rw [hs]; exact h.size_eq
  opened := by rw [hs]; exact h.opened.setLog hnodup
  ftable := by rw [hs]; exact h.ftable
  type := by rw [hs]; exact h.type
  place := fun q ↦ by
    rcases eq_or_ne q p with rfl | hqp
    · exact hat
    · rw [hpc q hqp]
      exact h.place q
  outstanding := by rw [hs]; exact hout
  committing := by rw [hs]; exact hcommitting
  idle := by rw [hs]; exact hidle
  free := by rw [hs]; exact h.free

/-- A call within an operation is one of the outstanding ones. -/
theorem one_le_outstanding (hp : (c.pc p).inOperation = true) : 1 ≤ c.shared.log.outstanding := by
  have hone : (c.pc p).inOperation.toNat ≤ ∑ q, (c.pc q).inOperation.toNat :=
    Finset.single_le_sum (f := fun q ↦ (c.pc q).inOperation.toNat) (fun _ _ ↦ Nat.zero_le _)
      (Finset.mem_univ p)
  rw [hp] at hone
  change 1 ≤ _ at hone
  rw [h.outstanding]
  omega

/-- What the free blocks are for, after a chunk. -/
theorem free_written (h₀ : DisjointPwrites sb R₀ ip w s₀)
    {off m : ℕ} (hoff : (w p).off.toNat ≤ off) (hm : off + m ≤ (w p).off.toNat + (w p).n)
    {src : ℕ → Byte} {l : List Growth} {R' : ℕ → ℕ → ℕ}
    (hw : Fs.Written sb R ip ip c.shared off src m l R' t) :
    (Finset.univ.biUnion fun q ↦ t.needed ip (w q).off.toNat (w q).n).card ≤
      (t.freeBlocks sb).card := by
  have hsub : (l.map Growth.pos).toFinset ⊆
      Finset.univ.biUnion fun q ↦ c.shared.needed ip (w q).off.toNat (w q).n := by
    rw [hw.needed]
    exact (needed_mono _ ip hoff hm).trans
      (Finset.subset_biUnion_of_mem (fun q ↦ c.shared.needed ip (w q).off.toNat (w q).n)
        (Finset.mem_univ p))
  have hneeded : (Finset.univ.biUnion fun q ↦ t.needed ip (w q).off.toNat (w q).n) =
      (Finset.univ.biUnion fun q ↦ c.shared.needed ip (w q).off.toNat (w q).n) \
        (l.map Growth.pos).toFinset := by
    ext pos
    simp only [Finset.mem_biUnion, Finset.mem_sdiff, Finset.mem_univ, true_and,
      hw.toExtended.needed_eq_sdiff hw.roots.1 hw.roots.2 (h₀.safe _), exists_and_right]
  have hcard := Finset.card_le_card hsub
  rw [hneeded, Finset.card_sdiff_of_subset hsub,
    List.toFinset_card_of_nodup hw.toExtended.nodup_pos, List.length_map]
  have hfree := h.free
  have htaken := hw.toExtended.card_freeBlocks
  omega

/-- How a chunk can fail: only because of the log. -/
theorem rangeFails {off m : ℕ} (hoff : (w p).off.toNat ≤ off)
    (hm : off + m ≤ (w p).off.toNat + (w p).n) (hp : (c.pc p).inOperation = true) {e : Stop}
    (he : Fs.RangeFails sb c.shared ip off m e) : e = .panic .tooBigTransaction := by
  rcases he with ⟨F, -, -, ⟨he, -⟩ | ⟨-, hout⟩⟩ | ⟨-, hfull⟩
  · exact he
  · have hone := h.one_le_outstanding hp
    omega
  · have hle := Finset.card_le_card ((needed_mono c.shared ip hoff hm).trans
      (Finset.subset_biUnion_of_mem (fun q ↦ c.shared.needed ip (w q).off.toNat (w q).n)
        (Finset.mem_univ p)))
    have hfree := h.free
    omega

end

variable [DecidableEq ι]

/-- A chunk is written. -/
theorem written (h : PwriteInv sb ip w s₀ R k c) (h₀ : DisjointPwrites sb R₀ ip w s₀) {o : Word}
    (hk : k p < (w p).n) (ho : o.toNat = (w p).off.toNat + k p)
    (hc : c.pc p = .inOp (w p).f (w p).addr (w p).n (k p) (some o))
    (hd : d.pc p = .wrote (w p).f (w p).addr (w p).n (k p) (some o) ((w p).chunk (k p)))
    (hpc : ∀ q ≠ p, d.pc q = c.pc q)
    (hsum : ∑ q, (d.pc q).inOperation.toNat = ∑ q, (c.pc q).inOperation.toNat) {l : List Growth}
    (hw : Fs.Written sb R ip ip c.shared ((w p).off.toNat + k p)
      (fun j ↦ (w p).addr (k p + j)) ((w p).chunk (k p)) l (update R ip (d.shared.addrs ip)) d.shared) :
    PwriteInv sb ip w s₀ (update R ip (d.shared.addrs ip))
      (update k p (k p + (w p).chunk (k p))) d := by
  obtain ⟨-, hpos, hle⟩ := Pwrite.min_eq_chunk hk
  obtain ⟨a, ha⟩ := hw.icache_eq
  refine ⟨h.toHolds.written h₀ (fun q ↦ (h.place q).le) hpos hle hw, h.opened.written hw,
    hw.ftable.trans h.ftable, ?_, fun q ↦ ?_, ?_, ?_, fun hout ↦ ?_,
    h.free_written (p := p) h₀ (by omega) (by omega) hw⟩
  · rw [ha]
    exact h.type
  · rw [update_apply]
    split
    next hq =>
      rw [hq, hd]
      exact .wrote hk ho
    next hq =>
      rw [hpc q hq]
      exact h.place q
  · rw [hw.logged.outstanding, h.outstanding, hsum]
  · rw [hw.logged.committing, h.committing]
  · have hone := h.one_le_outstanding (p := p) (by rw [hc]; rfl)
    rw [hw.logged.outstanding] at hout
    omega

end PwriteInv

/-- What a call can do next. -/
inductive Moves (sb : Superblock) (ip : ℕ) (w : ι → Pwrite) (R : ℕ → ℕ → ℕ) (k : ι → ℕ)
    (c : Calls ι) (p : ι) : Phase → FsState → Prop where
  /-- It begins or ends an operation, or goes on by itself. -/
  | log {q : Phase} (log : Log) (hat : (w p).At (k p) q) (hnodup : log.lh.Nodup)
      (hcommitting : log.committing = false)
      (hout : log.outstanding + (c.pc p).inOperation.toNat =
        c.shared.log.outstanding + q.inOperation.toNat)
      (hidle : log.outstanding = 0 → log.lh = []) :
      Moves sb ip w R k c p q { c.shared with log := log }
  /-- It writes a chunk. -/
  | write {o : Word} {l : List Growth} {u : FsState} (hk : k p < (w p).n)
      (ho : o.toNat = (w p).off.toNat + k p)
      (hc : c.pc p = .inOp (w p).f (w p).addr (w p).n (k p) (some o))
      (hw : Fs.Written sb R ip ip c.shared ((w p).off.toNat + k p)
        (fun j ↦ (w p).addr (k p + j)) ((w p).chunk (k p)) l
        (update R ip (u.addrs ip)) u) :
      Moves sb ip w R k c p
        (.wrote (w p).f (w p).addr (w p).n (k p) (some o) ((w p).chunk (k p))) u

namespace PwriteInv

variable {env : Env}

/-- A chunk, between `ilock` and `iunlock`. -/
theorem lockedWrite_sat (h : PwriteInv env.sb ip w s₀ R k c)
    (h₀ : DisjointPwrites env.sb R₀ ip w s₀) {o : Word} (hk : k p < (w p).n)
    (ho : o.toNat = (w p).off.toNat + k p) :
    (Fs.lockedWrite env (w p).f (fun j ↦ (w p).addr ((k p : ℤ).toNat + j))
      (min ((w p).n - k p) Fs.maxChunk) (some o)).Sat c.shared
      (fun r t ↦ r = (w p).chunk (k p) ∧ ∃ l, Fs.Written env.sb R ip ip c.shared
        ((w p).off.toNat + k p) (fun j ↦ (w p).addr (k p + j)) ((w p).chunk (k p)) l
        (update R ip (t.addrs ip)) t)
      (Fs.RangeFails env.sb c.shared ip ((w p).off.toNat + k p) ((w p).chunk (k p))) := by
  obtain ⟨hf, -, hip⟩ := h₀.file p
  have hsafe := h₀.safe p
  obtain ⟨hmin, hpos, hle⟩ := Pwrite.min_eq_chunk hk
  rw [FsState.OnInode, ← h.ftable] at hf
  rw [← h.ftable] at hip
  have htype : (c.shared.icache ip).type ≠ T_DEV := h.type ▸ h₀.type
  subst hip
  have hoff : ((some o).getD (c.shared.ftable (w p).f).off).toNat = (w p).off.toNat + k p := ho
  rw [hmin, Int.toNat_natCast, ← hoff]
  refine (Fs.lockedWrite_sat h.opened.owned (h.opened.roots _ hf) h.opened.nodup
    (h.opened.ready _ hf) (h.opened.inum_lt _ hf) htype (by omega)).imp ?_
  rintro r t ⟨rfl, l, u, hw, rfl⟩
  rw [u.advance_some]
  exact ⟨rfl, l, hw⟩

/-- What a call that has not returned does next, and how it can fail. -/
theorem nextSat (h : PwriteInv env.sb ip w s₀ R k c) (h₀ : DisjointPwrites env.sb R₀ ip w s₀)
    (hp : ∀ r, c.pc p ≠ .done r) : Threads.NextSat (Phase.next env) (c.pc p) c.shared
      (fun q t ↦ Moves env.sb ip w R k c p q t ∧ (w p).remaining q < (w p).remaining (c.pc p))
      fun e ↦ (e = .sleep ∧ (c.pc p).inOperation = false) ∨ e = .panic .tooBigTransaction := by
  obtain ⟨hf, hwritable, hip⟩ := h₀.file p
  have hsafe := h₀.safe p
  have hS : SAFEBYTES = 16847872 := rfl
  have hplace := h.place p
  generalize hkp : k p = kp at hplace
  cases hq : c.pc p with
  | start call =>
    rw [hq] at hplace
    cases hplace
    rw [← h.ftable] at hwritable
    rw [FsState.OnInode, ← h.ftable] at hf
    refine (nextSat_start hwritable hf).mono ?_ fun e he ↦ he.elim
    rintro q t ⟨rfl, rfl⟩
    refine ⟨.log c.shared.log ?_ h.opened.nodup h.committing ?_ h.idle, ?_⟩
    · rw [hkp]
      exact .top (k := 0) (Nat.zero_le _) rfl
    · rw [hq]
      rfl
    · exact Nat.lt_succ_self _
  | top f addr n i pos =>
    rw [hq] at hplace
    cases hplace with
    | top hk ho =>
      rcases hk.lt_or_eq with hlt | rfl
      · refine (nextSat_top (by omega)).mono ?_ fun e he ↦ Or.inl ⟨he, rfl⟩
        rintro q t ⟨rfl, rfl⟩
        refine ⟨.log _ ?_ h.opened.nodup h.committing ?_ fun hzero ↦ ?_, Nat.lt_succ_self _⟩
        · rw [hkp]
          exact .inOp hlt ho
        · rw [hq]
          show c.shared.log.outstanding + 1 + 0 = c.shared.log.outstanding + 1
          omega
        · have := h.outstanding
          change c.shared.log.outstanding + 1 = 0 at hzero
          omega
      · refine nextSat_top_end.mono ?_ fun e he ↦ he.elim
        rintro q t ⟨rfl, rfl⟩
        refine ⟨.log c.shared.log ?_ h.opened.nodup h.committing ?_ h.idle, Nat.succ_pos _⟩
        · rw [hkp]
          exact .done
        · rw [hq]
          rfl
  | inOp f addr n i pos =>
    rw [hq] at hplace
    cases hplace with
    | inOp hk ho =>
      subst hkp
      refine (nextSat_inOp rfl (h.lockedWrite_sat h₀ hk ho)).mono ?_ fun e he ↦ Or.inr ?_
      · rintro q t ⟨r, rfl, rfl, l, hw⟩
        refine ⟨.write hk ho hq hw, ?_⟩
        show 3 * _ - 1 < 3 * _
        omega
      · obtain ⟨-, -, hle⟩ := Pwrite.min_eq_chunk hk
        exact h.rangeFails (p := p) (Nat.le_add_right ..) (by omega) (by rw [hq]; rfl) he
  | wrote f addr n i pos r =>
    rw [hq] at hplace
    cases hplace with
    | @wrote k' o hk ho =>
      obtain ⟨hmin, hpos, hle⟩ := Pwrite.min_eq_chunk hk
      refine (nextSat_wrote hmin.symm (by omega) h.committing).mono ?_ fun e he ↦ he.elim
      rintro q t ⟨rfl, rfl⟩
      refine ⟨.log _ ?_ ?_ h.committing ?_ fun hzero ↦ ?_, ?_⟩
      · rw [hkp, ← Int.natCast_add]
        refine .top hle ?_
        rw [BitVec.toNat_add, BitVec.toNat_ofInt]
        omega
      · exact Fs.nodup_afterEnd h.opened.nodup
      · rw [hq]
        show c.shared.log.outstanding - 1 + 1 = c.shared.log.outstanding + 0
        omega
      · change c.shared.log.outstanding - 1 = 0 at hzero
        exact if_pos (by omega)
      · show 3 * _ + 1 < 3 * _ - 1
        rw [Pwrite.chunk] at *
        omega
  | done r => exact absurd hq (hp r)

variable [DecidableEq ι]

/-- A step keeps the invariant, and brings the call closer to its end. -/
theorem step (h : PwriteInv env.sb ip w s₀ R k c) (h₀ : DisjointPwrites env.sb R₀ ip w s₀)
    (hstep : step env c p = some (.ok d)) :
    (∃ R k, PwriteInv env.sb ip w s₀ R k d) ∧ (w p).remaining (d.pc p) < (w p).remaining (c.pc p) := by
  obtain ⟨hmoves, hless⟩ := (h.nextSat h₀ (not_done_of_step hstep)).of_step hstep
  refine ⟨?_, hless⟩
  have hpc (q : ι) (hq : q ≠ p) : d.pc q = c.pc q := Threads.pc_of_step hstep hq
  have hsum := Threads.sum_of_step (fun _ q ↦ q.inOperation.toNat) hstep
  have hout := h.outstanding
  generalize hd : d.pc p = q at hmoves
  generalize hs : d.shared = t at hmoves
  cases hmoves with
  | log log hat hnodup hcommitting hout' hidle =>
    refine ⟨R, k, h.setLog hs hpc (hd ▸ hat) hnodup hcommitting ?_ hidle⟩
    rw [hd] at hsum
    omega
  | write hk ho hc hw =>
    rw [← hs] at hw
    refine ⟨_, _, h.written h₀ hk ho hc hd hpc ?_ hw⟩
    rw [hd, hc] at hsum
    exact Nat.add_right_cancel hsum

end PwriteInv

/-! ### Every schedule -/

/-- Before the calls. -/
theorem DisjointPwrites.init (h : DisjointPwrites sb R ip w s₀) :
    PwriteInv sb ip w s₀ R (fun _ ↦ 0) (Calls.init s₀ fun p ↦ (w p).call) where
  data := fun p j hj ↦ absurd hj (Nat.not_lt_zero j)
  rest := fun _ _ _ ↦ rfl
  size_le := le_refl _
  end_le := fun p hp ↦ absurd hp (Nat.lt_irrefl 0)
  size_eq := Or.inl rfl
  opened := h.opened
  ftable := rfl
  type := rfl
  place := fun _ ↦ .start
  outstanding := by
    rw [show ∑ p, ((Calls.init s₀ fun p ↦ (w p).call).pc p).inOperation.toNat = 0 from
      Finset.sum_eq_zero fun _ _ ↦ rfl]
    exact h.outstanding
  committing := h.committing
  idle := fun _ ↦ h.lh
  free := h.free

variable [DecidableEq ι] {env : Env}

/-- As long as a call has not returned, one of them can go on: one that is within an operation, or,
when there is none, one that begins an operation. -/
theorem PwriteInv.exists_step (h : PwriteInv env.sb ip w s₀ R k c)
    (h₀ : DisjointPwrites env.sb R₀ ip w s₀) (hp : ∀ r, c.pc p ≠ .done r) :
    ∃ q x, Calls.step env c q = some x := by
  by_cases hop : ∃ q, (c.pc q).inOperation = true
  · obtain ⟨q, hq⟩ := hop
    refine ⟨q, ((h.nextSat h₀ fun r hdone ↦ ?_).mono (fun _ _ ht ↦ ht) fun e he ↦ ?_).exists_step⟩
    · rw [hdone] at hq
      cases hq
    · rw [hq] at he
      rcases he with ⟨-, he⟩ | rfl
      · cases he
      · exact nofun
  · -- nobody is within an operation, so the log is empty
    have hidle : c.shared.log.outstanding = 0 := by
      rw [h.outstanding, Finset.sum_eq_zero fun q _ ↦ ?_]
      · rfl
      · rw [Bool.eq_false_iff.2 fun hq ↦ hop ⟨q, hq⟩]
        rfl
    refine ⟨p, Threads.NextSat.exists_step (Q := fun _ _ ↦ True) ?_⟩
    have hplace := h.place p
    generalize hkp : k p = kp at hplace
    cases hq : c.pc p with
    | start call =>
      rw [hq] at hplace
      cases hplace
      obtain ⟨hf, hwritable, -⟩ := h₀.file p
      rw [FsState.OnInode, ← h.ftable] at hf
      rw [← h.ftable] at hwritable
      exact (nextSat_start hwritable hf).mono (fun _ _ _ ↦ trivial) fun e he ↦ he.elim
    | top f addr n i pos =>
      rw [hq] at hplace
      cases hplace with
      | top hk ho =>
        rcases hk.lt_or_eq with hlt | rfl
        · refine (nextSat_top_of_room (by omega) h.committing ?_).mono (fun _ _ _ ↦ trivial)
            fun e he ↦ he.elim
          rw [hidle, h.idle hidle]
          decide
        · exact nextSat_top_end.mono (fun _ _ _ ↦ trivial) fun e he ↦ he.elim
    | inOp | wrote => exact absurd ⟨p, by rw [hq]; rfl⟩ hop
    | done r => exact absurd hq (hp r)

/-- **Concurrent writes to disjoint ranges.** In every state of every schedule of the calls:

* a call can stop for one reason only, a log that is too small for what is logged;
* while a call has not returned, some call can take a step;
* the number of steps is bounded;
* a call that has returned has returned its `n`;
* when all have returned, the file has the data of each call at its range and the old bytes
  elsewhere, and its size is the largest of the old size and the ends of the ranges. -/
theorem pwrites_disjoint {sched : List ι} (h₀ : DisjointPwrites env.sb R₀ ip w s₀)
    (run : Machine.Run (Calls.step env) (Calls.init s₀ fun p ↦ (w p).call) sched c) :
    (∀ p e, Calls.step env c p = some (.error e) → e = .panic .tooBigTransaction) ∧
    ((∃ p, ∀ r, c.pc p ≠ .done r) → ∃ q x, Calls.step env c q = some x) ∧
    sched.length ≤ ∑ p, (3 * (((w p).n + 1535) / 1536) + 2) ∧
    (∀ p r, c.pc p = .done r → r = (w p).n) ∧
    ((∀ p, ∃ r, c.pc p = .done r) →
      (∀ p, ∀ j < (w p).n,
        c.shared.byteAt (c.shared.addrs ip) ((w p).off.toNat + j) = (w p).addr j) ∧
      (∀ x < SAFEBYTES, (∀ p, x < (w p).off.toNat ∨ (w p).off.toNat + (w p).n ≤ x) →
        c.shared.byteAt (c.shared.addrs ip) x = s₀.byteAt (s₀.addrs ip) x) ∧
      (c.shared.icache ip).size.toNat = max (s₀.icache ip).size.toNat
        (Finset.univ.sup fun p ↦ if (w p).n = 0 then 0 else (w p).off.toNat + (w p).n)) := by
  have hinv : (∃ R k, PwriteInv env.sb ip w s₀ R k c) ∧
      sched.length + ∑ p, (w p).remaining (c.pc p) ≤ ∑ p, (3 * (((w p).n + 1535) / 1536) + 2) := by
    refine run.invariant_labels (P := fun ls c ↦ (∃ R k, PwriteInv env.sb ip w s₀ R k c) ∧
      ls.length + ∑ p, (w p).remaining (c.pc p) ≤ _) ⟨⟨_, _, h₀.init⟩, ?_⟩ ?_
    · rw [List.length_nil, Nat.zero_add]
      exact le_refl _
    · intro ls c d p ⟨⟨R, k, h⟩, hle⟩ hstep
      obtain ⟨hinv, hless⟩ := h.step h₀ hstep
      have hsum := Threads.sum_of_step (fun p ↦ (w p).remaining) hstep
      refine ⟨hinv, ?_⟩
      rw [List.length_append, List.length_singleton]
      omega
  obtain ⟨⟨R, k, h⟩, hbound⟩ := hinv
  refine ⟨fun p e hstep ↦ ?_, fun ⟨p, hp⟩ ↦ h.exists_step h₀ hp, by omega, fun p r hdone ↦ ?_,
    fun hdone ↦ ?_⟩
  · have he := (h.nextSat h₀ (Calls.not_done_of_step hstep)).of_step_error hstep
    rcases he with ⟨⟨he, -⟩ | he, hwaits⟩
    · exact absurd he hwaits
    · exact he
  · have hplace := h.place p
    rw [hdone] at hplace
    generalize k p = kp at hplace
    cases hplace
    rfl
  · have hk (p : ι) : k p = (w p).n := by
      obtain ⟨r, hr⟩ := hdone p
      have hplace := h.place p
      rw [hr] at hplace
      generalize k p = kp at hplace
      cases hplace
      rfl
    refine ⟨fun p j hj ↦ h.data p j (by rwa [hk]), fun x hx hout ↦ h.rest x hx fun p ↦ ?_, ?_⟩
    · rw [hk]
      exact hout p
    · have hsup (p : ι) : (if (w p).n = 0 then 0 else (w p).off.toNat + (w p).n) ≤
          Finset.univ.sup fun p ↦ if (w p).n = 0 then 0 else (w p).off.toNat + (w p).n :=
        Finset.le_sup (f := fun p ↦ if (w p).n = 0 then 0 else (w p).off.toNat + (w p).n)
          (Finset.mem_univ p)
      refine le_antisymm ?_ (max_le h.size_le (Finset.sup_le fun p _ ↦ ?_))
      · rcases h.size_eq with heq | ⟨p, hp, heq⟩
        · rw [heq]
          exact le_max_left _ _
        · rw [hk] at hp heq
          have hle := hsup p
          rw [if_neg (by omega)] at hle
          rw [heq]
          exact hle.trans (le_max_right _ _)
      · split
        · exact Nat.zero_le _
        next hn =>
          have hle := h.end_le p (by rw [hk]; omega)
          rwa [hk] at hle

/-- Two calls that share a block. -/
theorem disjointPwrites_oneFile : DisjointPwrites mkfsEnv.sb (fun _ _ ↦ 0) 0
    (fun b : Bool ↦ ⟨0, fun _ ↦ 1, 1, if b then 1 else 0⟩) oneFile where
  opened := opened_oneFile
  outstanding := rfl
  committing := rfl
  lh := rfl
  file := fun _ ↦ ⟨rfl, rfl, rfl⟩
  type := by decide
  safe := by decide
  disjoint := by
    rintro (_ | _) (_ | _) hne x h1 h2 h3 h4
    · exact hne rfl
    · have h2' : x < 0 + 1 := h2
      have h3' : 1 ≤ x := h3
      omega
    · have h1' : 1 ≤ x := h1
      have h4' : x < 0 + 1 := h4
      omega
    · exact hne rfl
  free := by
    refine (Finset.card_biUnion_le_card_mul _ _ 4 fun b _ ↦ card_needed_le oneFile 0 _ 1).trans ?_
    rw [show mkfsEnv.sb = mkfsSuperblock from rfl, card_freeBlocks_oneFile]
    decide

/-- Both of them have returned, in turns. -/
theorem pwrites_disjoint_oneFile : ∃ c, Machine.Run (Calls.step mkfsEnv)
    (Calls.init oneFile fun b : Bool ↦ Pwrite.call ⟨0, fun _ ↦ 1, 1, if b then 1 else 0⟩)
    [true, false, true, false, true, false, true, false, true, false] c ∧
    c.shared.byteAt (c.shared.addrs 0) 0 = 1 ∧ c.shared.byteAt (c.shared.addrs 0) 1 = 1 ∧
    c.shared.byteAt (c.shared.addrs 0) 2 = 0 ∧ (c.shared.icache 0).size.toNat = 2 := by
  refine Machine.exists_run_of (fun c ↦ ∀ b, ((c.pc b).next mkfsEnv).isNone) (by decide +kernel) fun c run hc ↦ ?_
  obtain ⟨hdata, hrest, hsize⟩ := (pwrites_disjoint disjointPwrites_oneFile run).2.2.2.2 fun b ↦
    Phase.exists_done (Option.isNone_iff_eq_none.1 (hc b))
  refine ⟨hdata false 0 Nat.one_pos, hdata true 0 Nat.one_pos, ?_, ?_⟩
  · exact (hrest 2 (by decide) (by decide)).trans rfl
  · exact hsize.trans rfl

/-- A disk of 1000 blocks. -/
def smallEnv : Env :=
  { mkfsEnv with sb := { mkfsSuperblock with size := 1000, bitmap_lt := by decide, size_le := by decide } }

/-- The disk is full, with an empty file open. -/
def fullDisk : FsState :=
  { oneFile with
    blocks := fun b ↦ if mkfsSuperblock.bmapstart ≤ b then ⟨fun _ ↦ 255⟩ else oneFile.blocks b }

/-- With a full disk a call does not return: it panics. -/
theorem pwrite_fullDisk : ∃ c, Machine.Run (Calls.step smallEnv)
    (Calls.init fullDisk fun _ : Unit ↦ Pwrite.call ⟨0, fun _ ↦ 1, 1, 0⟩) [(), ()] c ∧
    Calls.step smallEnv c () = some (.error (.panic .outOfBlocks)) :=
  Machine.exists_run_of (fun c ↦ Machine.stops (step smallEnv) c () (.panic .outOfBlocks)) (by decide +kernel)
    fun c _ hc ↦ Machine.step_of_stops hc

end Xv6
