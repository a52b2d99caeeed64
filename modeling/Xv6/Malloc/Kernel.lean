import Xv6.Malloc.Runs
import Xv6.Proc.Pages

/-!
# The allocator on top of the kernel

`sbrk` of the kernel takes an `int`. `malloc` counts in units of a header, and `morecore` turns the units into
bytes again, all in `uint`: for a request of fewer than `2 ^ 28` units `sbrk` gets the number that was meant, and
what `malloc` returns is memory of the process that nothing else uses (`malloc_promises`).

For a larger request the number of bytes is negative as an `int`, or is cut off. The largest ones even wrap around
when they are rounded up: `malloc(0xFFFFFFFF)` allocates a header without any bytes behind it
(`malloc_overpromises`).
-/

namespace Xv6

open Function Ptable

namespace Malloc

open Prog Vm Region

/-- The kernel, with the memory that a process has obtained. -/
structure Kernel where
  /-- The processes. -/
  table : Ptable
  /-- The memory obtained by `sbrk`. -/
  obtained : List Region

namespace Kernel

/-- Size of process memory. -/
def sz (k : Kernel) (c : Slot) : ℕ := (k.table.proc c).sz

/-- What the program gets from a system call, as a pointer. -/
def address : Option Ret → ℕ
  | some (.code addr) => uint addr
  | _ => FAILED

/-- The memory obtained, once `sbrk` has returned `p` and the size is `sz`. -/
def after (k : Kernel) (p sz : ℕ) : List Region :=
  if p = FAILED then k.obtained
  else if p ≤ sz then ⟨p, sz - p⟩ :: k.obtained
  else k.obtained.map fun b ↦ ⟨b.addr, min b.stop sz - b.addr⟩

/-- The system call `sbrk` of the process `c`, for a number of bytes in a `uint`. -/
def sbrk (c : Slot) (k : Kernel) (n : ℕ) : Except Fault (ℕ × Kernel) :=
  match (Ptable.call c (.sbrk (BitVec.ofNat 32 n))).run k.table with
  | .ok (r, t) => .ok (address r, ⟨t, k.after (address r) (t.proc c).sz⟩)
  | .error e => .error e

end Kernel

/-! ### The law of `sbrk` -/

/-- The process has a page directory and a kernel stack, its memory ends at its size, and the pages that are free
or its own are the allocator's. -/
structure Proper (s : Ptable) (c : Slot) : Prop where
  /-- There is no page at its size or above. -/
  dir : ∃ d, (s.proc c).pgdir = some d ∧ (s.mem.dir d).isSome ∧
    (∀ va, UserPage va → (s.proc c).sz ≤ va → ¬s.mem.Present d va) ∧
      ∀ v, 0 < s.mem.own d v → s.mem.Managed v
  stack : (s.proc c).kstack ≠ none
  lt : (s.proc c).sz < KERNBASE

/-- `sbrk` for more memory returns the old end of memory, or -1. -/
theorem sbrk_sat {s : Ptable} {c : Slot} (h : Proper s c) {n : BitVec 32} (hn : 0 < n.toInt) :
    (call c (.sbrk n)).Sat s (fun r t ↦ Proper t c ∧
      ((r = some (.code (-1)) ∧ (t.proc c).sz = (s.proc c).sz) ∨
        (r = some (.code (s.proc c).sz) ∧ ((t.proc c).sz : ℤ) = (s.proc c).sz + n.toInt)))
      fun _ ↦ False := by
  obtain ⟨d, hd, hdir, habsent, hmanaged⟩ := h.dir
  have hrange : -2147483648 ≤ n.toInt ∧ n.toInt < 2147483648 :=
    ⟨BitVec.le_toInt n, BitVec.toInt_lt⟩
  have hgrow := (growproc_sat hd hdir h.lt hrange).and
    (growproc_kept hd hdir h.stack h.lt hrange.2)
  rw [call, sat_get_bind]
  refine sat_bind.2 (hgrow.mono ?_ ?_)
  · intro r t ⟨hres, hkept, honly⟩
    have hmanaged' : ∀ v, 0 < t.mem.own d v → t.mem.Managed v := fun v hv ↦
      hkept.managed.2 (hmanaged v (hv.trans_eq (hkept.own v)))
    cases hres with
    | @grown m sz hpos hsz hlt pages present =>
      refine ⟨⟨⟨d, ?_, ?_, ?_, hmanaged'⟩, ?_, ?_⟩, .inr ⟨rfl, ?_⟩⟩
      · rw [setProc_proc, update_self]
        exact hd
      · exact (pages.dir d).trans hdir
      · intro va hva hle hpresent
        rw [setProc_proc, update_self] at hle
        have hle : sz ≤ va := hle
        refine habsent va hva (by omega) ((pages.present d va hva (.inr ?_)).1 hpresent)
        omega
      · rw [setProc_proc, update_self]
        exact h.stack
      · rw [setProc_proc, update_self]
        exact hlt
      · rw [setProc_proc, update_self]
        exact hsz
    | @failed m hpos pages present =>
      refine ⟨⟨⟨d, hd, (pages.dir d).trans hdir, ?_, hmanaged'⟩, h.stack, h.lt⟩, .inl ⟨rfl, rfl⟩⟩
      intro va hva hle hpresent
      exact habsent va hva hle (present va hva hpresent)
    | shrunk hneg | emptied hneg | same hor => exact absurd hn (by omega)
  · intro e ⟨hother, hkept⟩
    rcases hkept with rfl | ⟨rfl, hrefused⟩
    · rcases hother with hother | ⟨-, va, hva, hle, hpresent⟩
      · exact hother.1 rfl
      · exact habsent va hva hle hpresent
    · obtain ⟨v, hown, hv⟩ := hrefused rfl
      exact hv (hmanaged v hown)

/-- What the program has obtained is above `base` and below the size of the process. -/
structure Kernel.Ok (c : Slot) (base : ℕ) (k : Kernel) : Prop where
  proper : Proper k.table c
  /-- `base` is a variable of the program. -/
  base_le : base + 8 ≤ k.sz c
  below : ∀ s ∈ k.obtained, s.stop ≤ k.sz c

/-- The answer of `sbrk` to a request for more. -/
theorem Kernel.Ok.sbrk {c : Slot} {base n : ℕ} {k : Kernel} (h : k.Ok c base) (hpos : 0 < n)
    (hlt : n < 2 ^ 31) : ∃ p k', Kernel.sbrk c k n = .ok (p, k') ∧ k'.Ok c base ∧
      k.sz c ≤ k'.sz c ∧ ((p = FAILED ∧ k'.obtained = k.obtained) ∨
        (p ≠ FAILED ∧ k'.obtained = ⟨p, n⟩ :: k.obtained ∧ (∀ s ∈ k.obtained, s.stop ≤ p) ∧
          base + 8 ≤ p ∧ p + n < 2 ^ 32)) := by
  have hK : KERNBASE = 2 ^ 31 := rfl
  have hint : (BitVec.ofNat 32 n).toInt = n := by
    rw [BitVec.toInt_eq_toNat_of_lt]
    · rw [BitVec.toNat_ofNat, Nat.mod_eq_of_lt (by omega)]
    · rw [BitVec.toNat_ofNat, Nat.mod_eq_of_lt (by omega)]
      omega
  have hsz := h.proper.lt
  obtain ⟨r, t, hrun, hproper, hor⟩ :=
    (sbrk_sat h.proper (n := BitVec.ofNat 32 n) (by omega)).exists_ok
  have hbase := h.base_le
  rw [Kernel.sz] at hbase
  refine ⟨_, _, by rw [Kernel.sbrk, hrun], ?_⟩
  rcases hor with ⟨rfl, heq⟩ | ⟨rfl, heq⟩
  · -- `-1` is the address `FAILED`
    have hfailed : Kernel.address (some (.code (-1))) = FAILED := by decide
    rw [hfailed, Kernel.after, if_pos rfl]
    refine ⟨⟨hproper, ?_, ?_⟩, ?_, .inl ⟨rfl, rfl⟩⟩
    · rw [Kernel.sz, heq]
      exact hbase
    · intro s hs
      rw [Kernel.sz, heq]
      exact h.below s hs
    · rw [Kernel.sz, Kernel.sz, heq]
  · have hlt' := hproper.lt
    have haddress : Kernel.address (some (.code (k.table.proc c).sz)) = (k.table.proc c).sz :=
      uint_natCast (by omega)
    have hne : (k.table.proc c).sz ≠ FAILED := by
      rw [FAILED]
      omega
    have hlen : (t.proc c).sz - (k.table.proc c).sz = n := by omega
    rw [haddress, Kernel.after, if_neg hne, if_pos (by omega), hlen]
    refine ⟨⟨hproper, ?_, ?_⟩, ?_, .inr ⟨hne, rfl, h.below, hbase, by omega⟩⟩
    · rw [Kernel.sz]
      dsimp only
      omega
    · intro s hs
      rw [Kernel.sz]
      dsimp only
      rcases List.mem_cons.1 hs with rfl | hs
      · show (k.table.proc c).sz + n ≤ (t.proc c).sz
        omega
      · have hbelow := h.below s hs
        rw [Kernel.sz] at hbelow
        omega
    · rw [Kernel.sz, Kernel.sz]
      dsimp only
      omega

/-- The kernel keeps what the allocator counts on. -/
def kernelSbrk (c : Slot) (base : ℕ) : Sbrk Fault Kernel base where
  sbrk := Kernel.sbrk c
  obtained := Kernel.obtained
  Ok := Kernel.Ok c base
  law := by
    intro k k' n p hok hpos hlt h
    obtain ⟨p', k'', hsbrk, hok', -, hor⟩ := hok.sbrk hpos hlt
    rw [hsbrk] at h
    obtain ⟨rfl, rfl⟩ := Prod.mk.inj (Except.ok.inj h)
    exact ⟨hok', hor⟩

/-! ### What `malloc` promises -/

/-- There is a header of the allocator at `p`: that of a free block or of a block of the program. -/
def IsHeader (base : ℕ) (h : Heap) (live : List Live) (p : ℕ) : Prop :=
  (∃ i, p = (fun q ↦ (h.hdr q).ptr)^[i] base) ∨ ∃ w ∈ live, p = w.ap - 8

/-- The blocks of the program are memory that it has obtained and that nothing else uses. -/
structure Promised (c : Slot) (base : ℕ) (σ : Process Kernel) : Prop where
  inside : ∀ v ∈ σ.live, ∀ x, v.ap ≤ x → x < v.ap + v.nbytes → ∃ s ∈ σ.kernel.obtained, s.Has x
  below : ∀ s ∈ σ.kernel.obtained, s.stop ≤ σ.kernel.sz c
  disjoint : σ.live.Pairwise fun v w ↦ v.ap + v.nbytes ≤ w.ap ∨ w.ap + w.nbytes ≤ v.ap
  headers : ∀ v ∈ σ.live, ∀ p, IsHeader base σ.heap σ.live p → v.ap + v.nbytes ≤ p ∨ p + 8 ≤ v.ap

section Promises

variable {c : Slot} {base : ℕ} {σ : Process Kernel}

/-- From a block of the list the pointer leads to one of the list. -/
theorem Linked.ptr_mem {hdr : ℕ → Header} {stop : ℕ} {L : List Region} (hl : Linked hdr stop L)
    {b : Region} (hb : b ∈ L) : (hdr b.addr).ptr = stop ∨ ∃ d ∈ L, d.addr = (hdr b.addr).ptr := by
  obtain ⟨pre, post, rfl⟩ := List.append_of_mem hb
  obtain ⟨-, hptr, -, -⟩ := linked_append.1 hl
  rw [hptr]
  cases post with
  | nil => exact .inl rfl
  | cons d post => exact .inr ⟨d, by simp, rfl⟩

/-- The pointers from `base` on stay in the list. -/
theorem HeapInv.iterate_mem {h : Heap} {L others segs : List Region}
    (hi : HeapInv base h L others segs) (i : ℕ) :
    ∃ b ∈ L, b.addr = (fun q ↦ (h.hdr q).ptr)^[i] base := by
  induction i with
  | zero => exact ⟨_, List.mem_of_mem_head? hi.head, rfl⟩
  | succ i ih =>
    obtain ⟨b, hb, haddr⟩ := ih
    rw [Function.iterate_succ_apply', ← haddr]
    rcases hi.linked.ptr_mem hb with heq | hd
    · exact ⟨_, List.mem_of_mem_head? hi.head, heq.symm⟩
    · exact hd

/-- The invariant gives what is promised. -/
theorem ProcInv.promised (h : ProcInv (kernelSbrk c base) σ) : Promised c base σ := by
  have hbelow : ∀ s ∈ σ.kernel.obtained, s.stop ≤ σ.kernel.sz c := h.ok.below
  rcases h.heap with ⟨-, hlive, hobtained⟩ | ⟨L, hL⟩
  · refine ⟨?_, hbelow, ?_, ?_⟩
    · rw [hlive]
      exact nofun
    · rw [hlive]
      exact .nil
    · rw [hlive]
      exact nofun
  have hblock : ∀ v ∈ σ.live, blockOf σ.heap v ∈ σ.live.map (blockOf σ.heap) :=
    fun v hv ↦ List.mem_map_of_mem hv
  -- The bytes of a block are behind its header.
  have hbytes : ∀ v ∈ σ.live, (blockOf σ.heap v).addr + 8 = v.ap ∧
      v.ap + v.nbytes ≤ (blockOf σ.heap v).stop := by
    intro v hv
    obtain ⟨hap, hlen⟩ := h.live v hv
    have haddr : (blockOf σ.heap v).addr = v.ap - 8 := rfl
    rw [Region.stop]
    omega
  -- Two blocks of the program do not overlap.
  have hpair : σ.live.Pairwise fun v w ↦ (blockOf σ.heap v).stop ≤ (blockOf σ.heap w).addr ∨
      (blockOf σ.heap w).stop ≤ (blockOf σ.heap v).addr := by
    refine List.pairwise_map.1 (pairwise_of_cover (fun x ↦ ?_) fun b hb ↦ (hL.sizes b hb).2)
    have htile := hL.tile x
    have hfresh := hL.fresh x
    rw [cover_append] at htile
    omega
  refine ⟨fun v hv x hx hx' ↦ ?_, hbelow, hpair.imp_of_mem fun {v w} hv hw hvw ↦ ?_, ?_⟩
  · obtain ⟨haddr, hstop⟩ := hbytes v hv
    have hhas : (blockOf σ.heap v).Has x := ⟨by omega, by omega⟩
    refine cover_pos.1 ?_
    have htile := hL.tile x
    rw [show cover x σ.kernel.obtained = _ from htile.symm]
    exact cover_pos.2 ⟨_, List.mem_append_right _ (hblock v hv), hhas⟩
  · have hv' := hbytes v hv
    have hw' := hbytes w hw
    omega
  · intro v hv p hp
    obtain ⟨haddr, hstop⟩ := hbytes v hv
    rcases hp with ⟨i, rfl⟩ | ⟨w, hw, rfl⟩
    · obtain ⟨b, hb, hbaddr⟩ := hL.iterate_mem i
      rw [← hbaddr]
      rcases hL.base_or_pos b hb with rfl | hpos
      · have hrange := (hL.range_of_mem (List.mem_append_right _ (hblock v hv))
          (hL.sizes _ (hblock v hv)).2).1
        refine .inr ?_
        dsimp only
        omega
      · have hsize := hL.size_eq hb
        have hdisjoint := hL.disjoint hb (hblock v hv) hpos
        rw [Region.stop] at hdisjoint
        omega
    · by_cases hvw : v = w
      · subst hvw
        obtain ⟨hap, -⟩ := h.live v hv
        omega
      · obtain ⟨hap, hlen⟩ := h.live w hw
        have hw' := hbytes w hw
        have hsymm : Std.Symm fun v w ↦ (blockOf σ.heap v).stop ≤ (blockOf σ.heap w).addr ∨
          (blockOf σ.heap w).stop ≤ (blockOf σ.heap v).addr := ⟨fun _ _ ↦ Or.symm⟩
        have hdisjoint := hpair.forall hv hw hvw
        omega

/-- In every run of a process whose requests are of fewer than `2 ^ 28` units, the blocks that it has are as
promised, and `malloc` returns: with a block that is as promised too, or with 0, and without taking memory away
from the process. -/
theorem malloc_promises (hpos : 0 < base) {τ : Process Kernel} (hproper : Proper σ.kernel.table c)
    (hbase : base + 8 ≤ σ.kernel.sz c) (hfreep : σ.heap.freep = 0) (hlive : σ.live = [])
    (hobtained : σ.kernel.obtained = []) {ls : List Label}
    (hrun : Machine.Run (Machine.guarded Asks (Process.step (Kernel.sbrk c) base)) σ ls τ) :
    Promised c base τ ∧ ∀ nbytes, Small nbytes → ∃ p h k,
      Returns (fun n ↦ malloc (Kernel.sbrk c) base n nbytes τ.heap τ.kernel) (.ok (p, h, k)) ∧
      τ.kernel.sz c ≤ k.sz c ∧
      Promised c base ⟨h, k, if p = 0 then τ.live else ⟨p, nbytes⟩ :: τ.live⟩ := by
  have hK : KERNBASE = 2 ^ 31 := rfl
  have hlt : base < 2 ^ 32 := by
    have hsz := hproper.lt
    rw [Kernel.sz] at hbase
    omega
  have hok : σ.kernel.Ok c base := by
    refine ⟨hproper, hbase, ?_⟩
    rw [hobtained]
    exact nofun
  have hinv := ProcInv.run (S := kernelSbrk c base) hpos hlt ⟨hok, hfreep, hlive, hobtained⟩ hrun
  have hτ : τ.kernel.Ok c base := hinv.ok
  refine ⟨hinv.promised, fun nbytes hsmall ↦ ?_⟩
  obtain ⟨r, hret, ⟨e, rfl, n, hn, hlt, hstop⟩ | ⟨p, h, k, rfl, hor, hinv'⟩⟩ :=
    hinv.malloc hpos hlt hsmall
  · -- `sbrk` does not panic
    obtain ⟨p, k', hsbrk, -⟩ := hτ.sbrk hn hlt
    cases hsbrk.symm.trans hstop
  · refine ⟨p, h, k, hret, ?_, hinv'.promised⟩
    rcases hor with rfl | ⟨q, n, hn, hlt, hsbrk⟩
    · exact Nat.le_refl _
    · obtain ⟨q', k', hsbrk', -, hle, -⟩ := hτ.sbrk hn hlt
      obtain ⟨rfl, rfl⟩ := Prod.mk.inj (Except.ok.inj (hsbrk'.symm.trans hsbrk))
      exact hle

end Promises

/-- The first process is in order after a boot, if all pages are the allocator's. -/
theorem proper_of_boot {freelist : List ℕ} {s : Ptable} (hboot : boot freelist = .ok s)
    (hfree : ∀ v ∈ s.mem.freelist, s.mem.Managed v)
    (hdirs : ∀ d ∈ (s.proc s.initproc).pgdir, ∀ pd ∈ s.mem.dir d, pd.Among s.mem.Managed) : Proper s s.initproc := by
  obtain ⟨_, p, d, h⟩ := userinit_sat.of_exec_ok hboot
  obtain ⟨v, hself⟩ := h.self
  have hsz : (s.proc p).sz = PGSIZE := by rw [hself]; rfl
  rw [h.initproc, hself] at hdirs
  rw [h.initproc]
  refine ⟨⟨d, by rw [hself]; rfl, h.dir, ?_, fun v hv ↦ ?_⟩, by rw [hself]; exact nofun, ?_⟩
  · intro va hva hle hpresent
    rw [hsz, h.present va hva hpresent] at hle
    exact absurd hle (by decide)
  · obtain ⟨pd, hpd⟩ := Option.isSome_iff_exists.1 h.dir
    rw [Mem.own_of_dir hpd, Nat.add_pos_iff_pos_or_pos, List.count_pos_iff] at hv
    exact hv.elim (hfree v) fun hpos ↦ (hdirs d rfl pd hpd).of_pages hpos.ne'
  · rw [hsz]
    decide

/-- A program that has just been started, with zeros in its memory. -/
def started (s : Ptable) : Process Kernel := ⟨⟨fun _ ↦ ⟨0, 0⟩, 0⟩, ⟨s, []⟩, []⟩

/-- After a boot the program in slot 0 can take the steps `ls`, to a state that satisfies `P`. -/
def bootProgram (step : Process Kernel → Label → Option (Except Fault (Process Kernel)))
    (ls : List Label) (P : Process Kernel → Bool) : Bool :=
  Ptable.bootThen (List.range' 1 400) fun s ↦
    decide (s.initproc = 0 ∧ (s.proc 0).sz = 4096 ∧ (∀ v ∈ s.mem.freelist, s.mem.Managed v) ∧
        ∀ d ∈ (s.proc 0).pgdir, ∀ pd ∈ s.mem.dir d, pd.Among s.mem.Managed) &&
      Machine.reaches step (started s) ls P

theorem exists_program {step : Process Kernel → Label → Option (Except Fault (Process Kernel))}
    {ls : List Label} {P : Process Kernel → Bool} (h : bootProgram step ls P = true) :
    ∃ s τ, Proper s 0 ∧ (s.proc 0).sz = 4096 ∧ Machine.Run step (started s) ls τ ∧ P τ = true := by
  obtain ⟨s, hboot, hs⟩ := exists_boot h
  obtain ⟨hs, hreach⟩ := Bool.and_eq_true_iff.1 hs
  obtain ⟨hinit, hsz, hfree, hdirs⟩ := of_decide_eq_true hs
  obtain ⟨τ, hrun, hτ⟩ := Machine.exists_run hreach
  exact ⟨s, τ, hinit ▸ proper_of_boot hboot hfree (by rwa [hinit]), hsz, hrun, hτ⟩

/-- The first process takes two blocks, frees the first one and takes a larger one. -/
theorem malloc_promises_first : ∃ s τ, Proper s 0 ∧
    Machine.Run (Machine.guarded Asks (Process.step (Kernel.sbrk 0) 4000)) (started s)
      [.malloc 1000 10, .malloc 20 10, .free ⟨35864, 1000⟩ 10, .malloc 2000 10] τ ∧
    τ.live.length = 2 ∧ Promised 0 4000 τ := by
  have hreach : bootProgram (Machine.guarded Asks (Process.step (Kernel.sbrk 0) 4000))
      [.malloc 1000 10, .malloc 20 10, .free ⟨35864, 1000⟩ 10, .malloc 2000 10]
      (fun τ ↦ decide (τ.live.length = 2)) = true := by decide +kernel
  obtain ⟨s, τ, hproper, hsz, hrun, hτ⟩ := exists_program hreach
  have hbase : 4000 + 8 ≤ (started s).kernel.sz 0 := by
    show 4008 ≤ (s.proc 0).sz
    rw [hsz]
    decide
  exact ⟨s, τ, hproper, hrun, of_decide_eq_true hτ,
    (malloc_promises (by decide) hproper hbase rfl rfl rfl hrun).1⟩

/-- The first process asks for `0xFFFFFFFF` bytes, and gets a block at the end of its memory. -/
theorem malloc_overpromises : ∃ s τ, Proper s 0 ∧ (s.proc 0).sz = 4096 ∧
    Machine.Run (Process.step (Kernel.sbrk 0) 4000) (started s) [.malloc 0xFFFFFFFF 10] τ ∧
    τ.live = [⟨36864, 0xFFFFFFFF⟩] ∧ τ.kernel.obtained = [⟨4096, 32768⟩] ∧ τ.kernel.sz 0 = 36864 ∧
    ¬Promised 0 4000 τ := by
  have hreach : bootProgram (Process.step (Kernel.sbrk 0) 4000) [.malloc 0xFFFFFFFF 10]
      (fun τ ↦ decide (τ.live = [⟨36864, 0xFFFFFFFF⟩] ∧ τ.kernel.obtained = [⟨4096, 32768⟩] ∧
        τ.kernel.sz 0 = 36864)) = true := by decide +kernel
  obtain ⟨s, τ, hproper, hsz, hrun, hτ⟩ := exists_program hreach
  obtain ⟨hlive, hobtained, hsz'⟩ := of_decide_eq_true hτ
  refine ⟨s, τ, hproper, hsz, hrun, hlive, hobtained, hsz', fun h ↦ ?_⟩
  -- The first byte of the block is behind the memory.
  obtain ⟨b, hb, hhas⟩ := h.inside ⟨36864, 0xFFFFFFFF⟩ (by rw [hlive]; exact List.mem_singleton_self _)
    36864 (Nat.le_refl _) (by decide)
  rw [hobtained, List.mem_singleton] at hb
  rw [hb] at hhas
  exact absurd hhas (by decide)

end Malloc

end Xv6
