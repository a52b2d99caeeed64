import Mathlib.Algebra.BigOperators.Group.List.Basic
import Xv6.Fs.Calls
import Xv6.Fs.Memory

/-!
# An open file that several processes share

After `fork` or `dup` several processes read and write through one `struct file`, and so through one
offset. The offset is read, used and advanced while the inode is locked, so the ranges of bytes that
successive reads and chunks of writes use follow one another (`shared_offset`), whatever the
schedule, and whatever blocks `bmap` finds.

That each chunk is then found at its range is another matter: it takes that `bmap` finds the same
blocks again, which it does below `SAFEBYTES` only. Beyond, a chunk can lose what has just been
written (`sharedWrite_lost`).
-/

namespace Xv6

open FsState Calls

variable {ι : Type}

/-- A read, or a chunk of a write, that has transferred bytes. -/
structure Transfer (ι : Type) where
  /-- Whose it was. -/
  call : ι
  /-- The offset of the first byte. -/
  start : ℕ
  /-- The number of bytes. -/
  count : ℕ
  /-- The bytes written, of a write. -/
  src : Option (ℕ → Byte)

/-- What a step has transferred. -/
def transferOf (e : Event ι FsState Phase) : Option (Transfer ι) :=
  match e.source, e.target with
  | .inOp f addr _ i pos, .wrote _ _ _ _ _ r =>
    if 0 < r then
      some ⟨e.thread, (pos.getD (e.before.ftable f).off).toNat, r.toNat,
        some fun j ↦ addr (i.toNat + j)⟩
    else
      none
  | .start (.read f _ pos), .done r =>
    if 0 < r then
      some ⟨e.thread, (pos.getD (e.before.ftable f).off).toNat, r.toNat, none⟩
    else
      none
  | _, _ => none

/-- The transfers so far, in order. -/
def Calls.transfers (c : Calls ι) : List (Transfer ι) := c.past.filterMap transferOf

/-- The ranges follow one another, from `off` on. -/
def Consecutive : ℕ → List (Transfer ι) → Prop
  | _, [] => True
  | off, a :: l => a.start = off ∧ Consecutive (off + a.count) l

/-- The number of bytes transferred. -/
def total (l : List (Transfer ι)) : ℕ := (l.map Transfer.count).sum

/-- The call reads or writes the file `f` at the shared offset. -/
def FileCall.OnShared (f : ℕ) : FileCall → Prop
  | .read g _ pos | .write g _ _ pos => g = f ∧ pos = none

/-! ### Consecutive ranges -/

theorem consecutive_append {off : ℕ} {l : List (Transfer ι)} {a : Transfer ι} :
    Consecutive off (l ++ [a]) ↔ Consecutive off l ∧ a.start = off + total l := by
  induction l generalizing off with
  | nil => simp [Consecutive, total]
  | cons b l ih =>
    rw [List.cons_append, Consecutive, Consecutive, ih, and_assoc, total, total, List.map_cons,
      List.sum_cons, Nat.add_assoc]

theorem total_append (l : List (Transfer ι)) (a : Transfer ι) :
    total (l ++ [a]) = total l + a.count := by
  simp [total]

theorem Consecutive.bounds {off : ℕ} {l : List (Transfer ι)} (h : Consecutive off l) :
    ∀ a ∈ l, off ≤ a.start ∧ a.start + a.count ≤ off + total l := by
  induction l generalizing off with
  | nil => exact nofun
  | cons b l ih =>
    obtain ⟨hstart, hrest⟩ := h
    have htotal : total (b :: l) = b.count + total l := by simp [total]
    intro a ha
    rcases List.mem_cons.1 ha with rfl | ha
    · omega
    · have := ih hrest a ha
      omega

/-- No two of the ranges overlap. -/
theorem Consecutive.pairwise {off : ℕ} {l : List (Transfer ι)} (h : Consecutive off l) :
    l.Pairwise fun a b ↦ a.start + a.count ≤ b.start := by
  induction l generalizing off with
  | nil => exact .nil
  | cons b l ih =>
    obtain ⟨hstart, hrest⟩ := h
    refine .cons (fun a ha ↦ ?_) (ih hrest)
    have := hrest.bounds a ha
    omega

/-! ### One step of a call -/

/-- Where a call on the shared file can be. -/
inductive SharedAt (f : ℕ) : FileCall → Phase → Prop where
  | start {c : FileCall} (h : c.OnShared f) : SharedAt f c (.start c)
  | top {addr : ℕ → Byte} {n i : ℤ} :
      SharedAt f (.write f addr n none) (.top f addr n i none)
  | inOp {addr : ℕ → Byte} {n i : ℤ} (h : i < n) :
      SharedAt f (.write f addr n none) (.inOp f addr n i none)
  | wrote {addr : ℕ → Byte} {n i r : ℤ} :
      SharedAt f (.write f addr n none) (.wrote f addr n i none r)
  | done {c : FileCall} {r : ℤ} : SharedAt f c (.done r)

/-- What a step has done, when it was a step of a call on the shared file: the offset has moved on
by what has been transferred. -/
structure SharedStep (f : ℕ) (p : ι) (call : FileCall) (s : FsState) (q q' : Phase) (t : FsState) :
    Prop where
  place : SharedAt f call q'
  moved : ∃ r, Fs.Advanced f (s.ftable f).ip none s r t ∧
    ((r ≤ 0 ∧ transferOf ⟨p, s, q, q'⟩ = none) ∨
      (0 < r ∧ (s.ftable f).off.toNat + r.toNat < 2 ^ 32 ∧
        ∃ src, transferOf ⟨p, s, q, q'⟩ = some ⟨p, (s.ftable f).off.toNat, r.toNat, src⟩))

variable {f : ℕ} {p : ι} {call : FileCall} {s t : FsState} {q q' : Phase}

/-- A step of which only the log shows anything. -/
theorem SharedStep.setLog (log : Log) (hplace : SharedAt f call q')
    (hno : transferOf ⟨p, s, q, q'⟩ = none) : SharedStep f p call s q q' { s with log := log } := by
  refine ⟨hplace, 0, ⟨fun _ _ ↦ rfl, ⟨_, _, rfl⟩, ?_⟩, Or.inl ⟨le_refl 0, hno⟩⟩
  rw [s.advance_of_nonpos f none (le_refl 0)]

section NextSat

variable {env : Env} (hready : Fs.Ready s (s.ftable f).ip)
  (htype : (s.icache (s.ftable f).ip).type ≠ T_DEV)
include hready htype

/-- A read. -/
theorem nextSat_sharedRead (hf : s.OnInode f) (n : ℤ) :
    Threads.NextSat (Phase.next env) (.start (.read f n none)) s
      (SharedStep f p (.read f n none) s (.start (.read f n none))) fun _ ↦ True := by
  refine ⟨_, rfl, ?_⟩
  rw [Fs.readFile]
  show Prog.Sat ((if (s.ftable f).readable = false then _ else _) >>= _) s _ _
  split
  · exact .setLog s.log .done rfl
  · rw [show (s.ftable f).type = .inode from hf]
    refine (Fs.lockedRead_mem hready htype n none).bind fun out t ⟨hadv, hlt⟩ ↦ ?_
    refine ⟨.done, out.1, hadv, ?_⟩
    rcases le_or_gt out.1 0 with hle | hpos
    · exact .inl ⟨hle, if_neg (by omega)⟩
    · exact .inr ⟨hpos, hlt hpos, none, if_pos hpos⟩

/-- A chunk of a write. -/
theorem nextSat_sharedChunk {addr : ℕ → Byte} {n i : ℤ} (hi : i < n) :
    Threads.NextSat (Phase.next env) (.inOp f addr n i none) s
      (SharedStep f p (.write f addr n none) s (.inOp f addr n i none)) fun _ ↦ True := by
  have hmax : Fs.maxChunk = 1536 := rfl
  have hbytes : MAXFILE * BSIZE < 2 ^ 32 := by decide
  obtain ⟨m, hm⟩ : ∃ m : ℕ, min (n - i) Fs.maxChunk = m :=
    ⟨_, (Int.toNat_of_nonneg (by omega)).symm⟩
  refine (nextSat_inOp hm (Fs.lockedWrite_mem hready htype _ (by omega) none)).mono ?_ fun _ he ↦ he
  rintro q t ⟨r, rfl, ⟨rfl, rfl⟩ | ⟨rfl, hle, hadv⟩⟩
  · exact .setLog t.log .wrote rfl
  · have hpos : (0 : ℤ) < m := by omega
    refine ⟨.wrote, _, hadv, Or.inr ⟨hpos, ?_, _, if_pos hpos⟩⟩
    rw [Option.getD_none] at hle
    omega

/-- Whatever the call does next, it keeps the offset in step with what is transferred. -/
theorem SharedAt.nextSat (h : SharedAt f call q) (hq : ∀ r, q ≠ .done r) (hf : s.OnInode f) :
    Threads.NextSat (Phase.next env) q s (SharedStep f p call s q) fun _ ↦ True := by
  cases h with
  | start hc =>
    cases call with
    | read g n pos =>
      obtain ⟨rfl, rfl⟩ := hc
      exact nextSat_sharedRead hready htype hf n
    | write g addr n pos =>
      obtain ⟨rfl, rfl⟩ := hc
      refine ⟨_, rfl, ?_⟩
      show Prog.Sat (if (s.ftable g).writable = false then _ else _) s _ _
      split
      · exact .setLog s.log .done rfl
      · rw [show (s.ftable g).type = .inode from hf]
        exact .setLog s.log .top rfl
  | @top addr n i =>
    rcases lt_or_ge i n with hi | hi
    · refine (nextSat_top hi).mono ?_ fun _ _ ↦ trivial
      rintro q t ⟨rfl, rfl⟩
      exact .setLog _ (.inOp hi) rfl
    · refine ⟨_, rfl, ?_⟩
      rw [if_neg (by omega)]
      exact .setLog s.log .done rfl
  | inOp hi => exact nextSat_sharedChunk hready htype hi
  | @wrote addr n i r =>
    refine ⟨_, rfl, Fs.endOp_sat.bind_true ?_⟩
    rintro - t rfl
    dsimp only
    split
    · exact .setLog _ .done rfl
    · split
      · trivial
      · exact .setLog _ .top rfl
  | done => exact absurd rfl (hq _)

end NextSat

/-! ### One step of a writer -/

section Writer

variable {sb : Superblock} {R : ℕ → ℕ → ℕ} {env : Env}

/-- What a step of a writer has done: nothing that shows in the file, or it has written a chunk in
the range where `bmap` works, or one that ends beyond. -/
inductive WriterStep (sb : Superblock) (R : ℕ → ℕ → ℕ) (f : ℕ) (p : ι) (s : FsState)
    (q q' : Phase) : FsState → Prop where
  | log (log : Log) (hnodup : log.lh.Nodup) (hno : transferOf ⟨p, s, q, q'⟩ = none) :
      WriterStep sb R f p s q q' { s with log := log }
  | chunk {m : ℕ} {src : ℕ → Byte} {l : List Growth} {u : FsState}
      (hw : Fs.Written sb R (s.ftable f).ip (s.ftable f).ip s (s.ftable f).off.toNat src m l
        (Function.update R (s.ftable f).ip (u.addrs (s.ftable f).ip)) u)
      (hsome : transferOf ⟨p, s, q, q'⟩ = some ⟨p, (s.ftable f).off.toNat, m, some src⟩) :
      WriterStep sb R f p s q q' (u.advance f none m)
  | beyond {t : FsState} {a : Transfer ι} (hsome : transferOf ⟨p, s, q, q'⟩ = some a)
      (hend : SAFEBYTES < a.start + a.count) : WriterStep sb R f p s q q' t

/-- A chunk of a write. -/
theorem nextSat_writerChunk (h : Opened env.sb R s) (hf : s.OnInode f)
    (htype : (s.icache (s.ftable f).ip).type ≠ T_DEV) {addr : ℕ → Byte} {n i : ℤ} (hi : i < n) :
    Threads.NextSat (Phase.next env) (.inOp f addr n i none) s
      (WriterStep env.sb R f p s (.inOp f addr n i none)) fun _ ↦ True := by
  have hmax : Fs.maxChunk = 1536 := rfl
  obtain ⟨m, hm⟩ : ∃ m : ℕ, min (n - i) Fs.maxChunk = m :=
    ⟨_, (Int.toNat_of_nonneg (by omega)).symm⟩
  have hpos : (0 : ℤ) < m := by omega
  rcases Nat.lt_or_ge SAFEBYTES ((s.ftable f).off.toNat + m) with hend | hsafe
  · refine (nextSat_inOp hm (Fs.lockedWrite_mem (h.ready f hf) htype _ (by omega) none)).mono ?_ fun _ he ↦ he
    rintro q t ⟨r, rfl, ⟨rfl, rfl⟩ | ⟨rfl, -, -⟩⟩
    · exact .log t.log h.nodup rfl
    · exact .beyond (if_pos hpos) hend
  · refine (nextSat_inOp hm (Fs.lockedWrite_sat (i := (s.ftable f).ip) h.owned (h.roots f hf) h.nodup (h.ready f hf)
      (h.inum_lt f hf) htype (by exact hsafe))).mono ?_ fun _ _ ↦ trivial
    rintro q t ⟨r, rfl, rfl, l, u, hw, rfl⟩
    exact .chunk hw (if_pos hpos)

/-- What a writer does next. -/
theorem SharedAt.writerSat {addr : ℕ → Byte} {n : ℤ} (hat : SharedAt f (.write f addr n none) q)
    (hq : ∀ r, q ≠ .done r) (h : Opened env.sb R s) (hf : s.OnInode f)
    (htype : (s.icache (s.ftable f).ip).type ≠ T_DEV) :
    Threads.NextSat (Phase.next env) q s (WriterStep env.sb R f p s q) fun _ ↦ True := by
  cases hat with
  | start =>
    refine ⟨_, rfl, ?_⟩
    show Prog.Sat (if (s.ftable f).writable = false then _ else _) s _ _
    split
    · exact .log s.log h.nodup rfl
    · rw [show (s.ftable f).type = .inode from hf]
      exact .log s.log h.nodup rfl
  | @top _ _ i =>
    rcases lt_or_ge i n with hi | hi
    · refine (nextSat_top hi).mono ?_ fun _ _ ↦ trivial
      rintro q t ⟨rfl, rfl⟩
      exact .log _ h.nodup rfl
    · refine ⟨_, rfl, ?_⟩
      rw [if_neg (by omega)]
      exact .log s.log h.nodup rfl
  | inOp hi => exact nextSat_writerChunk h hf htype hi
  | wrote =>
    have hnodup := Fs.nodup_afterEnd h.nodup
    refine ⟨_, rfl, Fs.endOp_sat.bind_true ?_⟩
    rintro - t rfl
    dsimp only
    split
    · exact .log _ hnodup rfl
    · split
      · trivial
      · exact .log _ hnodup rfl
  | done => exact absurd rfl (hq _)

end Writer

/-! ### The offset over a run -/

variable {ip off₀ : ℕ} {calls : ι → FileCall} {c d : Calls ι}

/-- What holds at any time: the ranges follow one another, and the offset is where the last of them
ends. -/
structure OffsetInv (f ip off₀ : ℕ) (calls : ι → FileCall) (c : Calls ι) : Prop where
  onInode : c.shared.OnInode f
  ip_eq : (c.shared.ftable f).ip = ip
  ready : Fs.Ready c.shared ip
  type : (c.shared.icache ip).type ≠ T_DEV
  place : ∀ p, SharedAt f (calls p) (c.pc p)
  consecutive : Consecutive off₀ c.transfers
  off_eq : (c.shared.ftable f).off.toNat = off₀ + total c.transfers

/-- Processes that share the open file `f`. -/
structure SharedFile (sb : Superblock) (R : ℕ → ℕ → ℕ) (f : ℕ) (calls : ι → FileCall)
    (s : FsState) : Prop where
  opened : Opened sb R s
  onInode : s.OnInode f
  type : (s.icache (s.ftable f).ip).type ≠ T_DEV
  calls : ∀ p, (calls p).OnShared f

/-- Before the calls. -/
theorem SharedFile.init {sb : Superblock} {R : ℕ → ℕ → ℕ} (h : SharedFile sb R f calls s) :
    OffsetInv f (s.ftable f).ip (s.ftable f).off.toNat calls (init s calls) where
  onInode := h.onInode
  ip_eq := rfl
  ready := h.opened.ready f h.onInode
  type := h.type
  place := fun p ↦ .start (h.calls p)
  consecutive := trivial
  off_eq := rfl

/-- The offset after bytes have been transferred. -/
theorem Fs.Advanced.off {r : ℤ} (h : Fs.Advanced f ip none s r t) (hr : 0 < r)
    (hlt : (s.ftable f).off.toNat + r.toNat < 2 ^ 32) :
    (t.ftable f).off.toNat = (s.ftable f).off.toNat + r.toNat := by
  rw [h.ftable, advance, if_pos ⟨hr, rfl⟩, ftable_setFile_self, BitVec.toNat_add,
    BitVec.toNat_ofInt]
  omega

variable [DecidableEq ι] {env : Env}

theorem transfers_of_step (hstep : step env c p = some (.ok d)) :
    d.transfers = c.transfers ++ (transferOf ⟨p, c.shared, c.pc p, d.pc p⟩).toList := by
  rw [transfers, Threads.past_of_step hstep, List.filterMap_append, ← transfers]
  cases h : transferOf (⟨p, c.shared, c.pc p, d.pc p⟩ : Event ι FsState Phase) with
  | none => rw [List.filterMap_cons_none h]; rfl
  | some a => rw [List.filterMap_cons_some h]; rfl

theorem OffsetInv.sharedStep (h : OffsetInv f ip off₀ calls c) (hstep : step env c p = some (.ok d)) :
    SharedStep f p (calls p) c.shared (c.pc p) (d.pc p) d.shared :=
  ((h.place p).nextSat (h.ip_eq ▸ h.ready) (h.ip_eq ▸ h.type) (not_done_of_step hstep)
    h.onInode).of_step hstep

/-- A step keeps the invariant. -/
theorem OffsetInv.step (h : OffsetInv f ip off₀ calls c)
    (hstep : step env c p = some (.ok d)) : OffsetInv f ip off₀ calls d := by
  obtain ⟨hplace, r, hadv, hmoved⟩ := h.sharedStep hstep
  have htransfers := transfers_of_step hstep
  rw [h.ip_eq] at hadv
  obtain ⟨hready, htype⟩ := hadv.ready h.ready
  have hplaces (q : ι) : SharedAt f (calls q) (d.pc q) := by
    rcases eq_or_ne q p with rfl | hq
    · exact hplace
    · rw [Threads.pc_of_step hstep hq]
      exact h.place q
  have hfile : d.shared.OnInode f ∧ (d.shared.ftable f).ip = ip := by
    rw [FsState.OnInode, hadv.ftable, type_advance, ip_advance]
    exact ⟨h.onInode, h.ip_eq⟩
  rcases hmoved with ⟨hr, hnone⟩ | ⟨hr, hlt, src, hsome⟩
  · rw [hnone, Option.toList_none, List.append_nil] at htransfers
    refine ⟨hfile.1, hfile.2, hready, htype ▸ h.type, hplaces, htransfers ▸ h.consecutive, ?_⟩
    rw [hadv.ftable, c.shared.advance_of_nonpos f none hr, htransfers]
    exact h.off_eq
  · rw [hsome, Option.toList_some] at htransfers
    refine ⟨hfile.1, hfile.2, hready, htype ▸ h.type, hplaces, ?_, ?_⟩
    · rw [htransfers, consecutive_append]
      exact ⟨h.consecutive, h.off_eq⟩
    · rw [hadv.off hr hlt, htransfers, total_append, h.off_eq, Nat.add_assoc]

/-! ### The bytes of the chunks -/

/-- Each chunk that has been written is found at its range. -/
def Calls.Intact (ip : ℕ) (c : Calls ι) : Prop :=
  ∀ a ∈ c.transfers, ∀ src, a.src = some src → ∀ j < a.count,
    c.shared.byteAt (c.shared.addrs ip) (a.start + j) = src j

/-- No chunk has reached the blocks that `bmap` does not find. -/
def Calls.Below (c : Calls ι) : Prop := ∀ a ∈ c.transfers, a.start + a.count ≤ SAFEBYTES

theorem OffsetInv.writerStep {R : ℕ → ℕ → ℕ} (h : OffsetInv f ip off₀ calls c)
    (hopened : Opened env.sb R c.shared) (hwriter : ∃ addr n, calls p = .write f addr n none)
    (hstep : Calls.step env c p = some (.ok d)) :
    WriterStep env.sb R f p c.shared (c.pc p) (d.pc p) d.shared := by
  obtain ⟨addr, n, hcall⟩ := hwriter
  exact ((hcall ▸ h.place p).writerSat (Calls.not_done_of_step hstep) hopened h.onInode
    (h.ip_eq ▸ h.type)).of_step hstep

/-- A step of a writer keeps the chunks intact. -/
theorem OffsetInv.intact_step {R : ℕ → ℕ → ℕ} (h : OffsetInv f ip off₀ calls c)
    (hopened : Opened env.sb R c.shared) (hintact : c.Intact ip)
    (hwriter : ∃ addr n, calls p = .write f addr n none)
    (hstep : Calls.step env c p = some (.ok d)) (hbelow : d.Below) :
    (∃ R, Opened env.sb R d.shared) ∧ d.Intact ip := by
  have htransfers := transfers_of_step hstep
  have hmoves := h.writerStep hopened hwriter hstep
  generalize hs : d.shared = t at hmoves
  cases hmoves with
  | log log hnodup hno =>
    rw [hno, Option.toList_none, List.append_nil] at htransfers
    refine ⟨⟨R, hopened.setLog hnodup⟩, ?_⟩
    rw [Calls.Intact, hs, htransfers]
    exact hintact
  | @chunk m src l u hw hsome =>
    rw [hsome, Option.toList_some] at htransfers
    rw [h.ip_eq] at hw
    refine ⟨⟨_, (hopened.written hw).advance f none m⟩, ?_⟩
    have hbytes (x : ℕ) (hx : x < SAFEBYTES) : d.shared.byteAt (d.shared.addrs ip) x =
        if (c.shared.ftable f).off.toNat ≤ x ∧ x < (c.shared.ftable f).off.toNat + m then
          src (x - (c.shared.ftable f).off.toNat)
        else c.shared.byteAt (c.shared.addrs ip) x := by
      have hbytes := hw.bytes ip x hx
      rw [hw.roots.1, hw.roots.2] at hbytes
      simp only [true_and] at hbytes
      rw [hs, addrs_advance, byteAt_advance, hbytes]
    intro a ha src' hsrc' j hj
    have hsafe := hbelow a ha
    rw [htransfers, List.mem_append, List.mem_singleton] at ha
    rw [hbytes _ (by omega)]
    rcases ha with ha | rfl
    · -- an earlier chunk ends before the offset
      have hbefore := (h.consecutive.bounds a ha).2
      rw [← h.off_eq] at hbefore
      rw [if_neg (by omega)]
      exact hintact a ha src' hsrc' j hj
    · obtain rfl := Option.some.inj hsrc'
      dsimp only at hj ⊢
      rw [if_pos (by omega), Nat.add_sub_cancel_left]
  | @beyond t a hsome hend =>
    refine absurd (hbelow a ?_) (by omega)
    rw [htransfers, hsome]
    exact List.mem_append_right _ (List.mem_singleton_self _)

/-! ### Every schedule -/

/-- **A shared offset.** In every state of every schedule of reads and writes through one open file:

* the ranges of the reads and the chunks that have been successful follow one another, and so no two
  of them overlap;
* the offset is where it was plus the number of bytes transferred;
* with writers only, and no chunk beyond the blocks that `bmap` finds, each chunk is found at its
  range. -/
theorem shared_offset {R : ℕ → ℕ → ℕ} {sched : List ι} (h : SharedFile env.sb R f calls s)
    (run : Machine.Run (Calls.step env) (Calls.init s calls) sched c) :
    Consecutive (s.ftable f).off.toNat c.transfers ∧
    c.transfers.Pairwise (fun a b ↦ a.start + a.count ≤ b.start) ∧
    (c.shared.ftable f).off.toNat = (s.ftable f).off.toNat + total c.transfers ∧
    ((∀ p, ∃ addr n, calls p = .write f addr n none) → c.Below → c.Intact (s.ftable f).ip) := by
  have hinv : OffsetInv f (s.ftable f).ip (s.ftable f).off.toNat calls c ∧
      ((∀ p, ∃ addr n, calls p = .write f addr n none) → c.Below →
        (∃ R, Opened env.sb R c.shared) ∧ c.Intact (s.ftable f).ip) := by
    refine run.invariant (P := fun c ↦ OffsetInv f (s.ftable f).ip (s.ftable f).off.toNat calls c ∧
      ((∀ p, ∃ addr n, calls p = .write f addr n none) → c.Below →
        (∃ R, Opened env.sb R c.shared) ∧ c.Intact (s.ftable f).ip))
      ⟨h.init, fun _ _ ↦ ⟨⟨R, h.opened⟩, ?_⟩⟩ ?_
    · exact nofun
    · intro c d p ⟨hinv, hintact⟩ hstep
      refine ⟨hinv.step hstep, fun hwriters hbelow ↦ ?_⟩
      have hbefore : c.Below := fun a ha ↦ hbelow a (by
        rw [transfers_of_step hstep]
        exact List.mem_append_left _ ha)
      obtain ⟨⟨R, hopened⟩, hintact⟩ := hintact hwriters hbefore
      exact hinv.intact_step hopened hintact (hwriters p) hstep hbelow
  obtain ⟨hinv, hintact⟩ := hinv
  exact ⟨hinv.consecutive, hinv.consecutive.pairwise, hinv.off_eq,
    fun hwriters hbelow ↦ (hintact hwriters hbelow).2⟩

/-! ### Examples -/

/-- A transfer, as far as it can be computed: whose it is, its range, and the first byte if it has written one. -/
def Transfer.outline {ι : Type} (a : Transfer ι) : ι × ℕ × ℕ × Option Byte :=
  (a.call, a.start, a.count, a.src.map (· 0))

/-- Processes that write through the open file of a file system with one file. -/
theorem sharedFile_oneFile (addr : Bool → ℕ → Byte) (n : ℤ) :
    SharedFile mkfsEnv.sb (fun _ _ ↦ 0) 0 (fun p ↦ .write 0 (addr p) n none) oneFile where
  opened := opened_oneFile
  onInode := rfl
  type := by decide
  calls := fun _ ↦ ⟨rfl, rfl⟩

/-- Two processes write a byte each. The one that starts second is the first to lock the inode. -/
theorem shared_offset_oneFile : ∃ c, Machine.Run (Calls.step mkfsEnv)
    (Calls.init oneFile fun p : Bool ↦ .write 0 (fun _ ↦ if p then 1 else 2) 1 none)
      [true, true, false, false, false, true] c ∧
    (c.transfers.map Transfer.outline = [(false, 0, 1, some 2), (true, 1, 1, some 1)] ∧
      (c.shared.ftable 0).off = 2) ∧
    Consecutive 0 c.transfers ∧ c.Intact 0 := by
  refine Machine.exists_run_of (fun c ↦ (c.transfers.map Transfer.outline =
    [(false, 0, 1, some 2), (true, 1, 1, some 1)] ∧ (c.shared.ftable 0).off = 2) ∧
      ∀ a ∈ c.transfers, a.start + a.count ≤ SAFEBYTES) (by decide +kernel) fun c run h ↦ ?_
  obtain ⟨hranges, -, -, hintact⟩ := shared_offset (sharedFile_oneFile _ 1) run
  exact ⟨h.1, hranges, hintact (fun _ ↦ ⟨_, _, rfl⟩) h.2⟩

/-- The file, with its offset where `bmap` begins not to find the blocks. -/
def farFile : FsState := oneFile.advance 0 none SAFEBYTES

/-- A process writes a block and a byte through it, and the block is lost. -/
theorem sharedWrite_lost :
    SharedFile mkfsEnv.sb (fun _ _ ↦ 0) 0 (fun _ : Bool ↦ .write 0 (fun _ ↦ 1) (513 : ℕ) none)
      farFile ∧
    ∃ c, Machine.Run (Calls.step mkfsEnv)
      (Calls.init farFile fun _ : Bool ↦ .write 0 (fun _ ↦ 1) (513 : ℕ) none) [true, true, true] c ∧
      c.transfers.map Transfer.outline = [(true, SAFEBYTES, 513, some 1)] ∧
      c.shared.byteAt (c.shared.addrs 0) SAFEBYTES = 0 :=
  ⟨⟨opened_oneFile.advance .., by decide +kernel, by decide +kernel, fun _ ↦ ⟨rfl, rfl⟩⟩,
    Machine.exists_run_of (fun c ↦ c.transfers.map Transfer.outline = _ ∧ _) (by decide +kernel)
      fun _ _ h ↦ h⟩

end Xv6
