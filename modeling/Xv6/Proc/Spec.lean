import Xv6.Proc.Calls
import Xv6.Proc.Table

/-!
# What the calls do to table and memory

One specification for each of `allocproc`, `growproc`, `thread_create`, `thread_exit` and `fork`, in
terms of the slots and of the pages that are present. A call that allocates a slot and then fails may
leave that slot behind (`WastedSlot`): `thread_create` leaves it `EMBRYO`.
-/

namespace Xv6

open Prog Vm
open Function (update_eq_self update_idem update_of_ne update_self)

namespace Ptable

/-! ### `allocproc` -/

/-- The slot that `allocproc` takes: the first one that is free. -/
def freeSlot (s : Ptable) : Option Slot := slots.find? fun p ↦ (s.proc p).state = .UNUSED

/-- A slot when `allocproc` has returned it. -/
def allocated (s : Ptable) (np : Slot) (v : ℕ) : Proc :=
  ((s.proc np).embryo s.nextpid).setKstack (some v)

/-- What `allocproc` has done when it returns `np`, whatever has happened to memory. -/
structure Took (s t : Ptable) (np : Slot) (v : ℕ) : Prop where
  free : s.freeSlot = some np
  self : t.proc np = s.allocated np v
  other : ∀ k, k ≠ np → t.proc k = s.proc k
  nextpid : t.nextpid = s.nextpid + 1
  nexttid : t.nexttid = s.nexttid
  initproc : t.initproc = s.initproc

/-- What has become of a slot that has been allocated in vain. -/
inductive WastedSlot (s : Ptable) (np : Slot) : Proc → Prop where
  /-- There was no page for a kernel stack. -/
  | noStack : WastedSlot s np ((((s.proc np).embryo s.nextpid).setKstack none).setState .UNUSED)
  /-- `fork` could not copy the address space. -/
  | notCopied (v : ℕ) :
      WastedSlot s np ((((s.allocated np v).setPgdir none).setKstack none).setState .UNUSED)
  /-- `thread_create` found no memory for the stack, and the slot is lost. -/
  | lost (v : ℕ) : WastedSlot s np (s.allocated np v)

/-- What a call that has allocated `np` in vain has done. -/
structure Wasted (s t : Ptable) (np : Slot) : Prop where
  free : s.freeSlot = some np
  self : WastedSlot s np (t.proc np)
  other : ∀ k, k ≠ np → t.proc k = s.proc k
  nextpid : t.nextpid = s.nextpid + 1
  nexttid : t.nexttid = s.nexttid
  initproc : t.initproc = s.initproc

/-- What a call that allocates a slot has done when it has failed. -/
def Failed (s t : Ptable) : Prop :=
  s.freeSlot = none ∧ t = s ∨ ∃ np, Wasted s t np

/-- At most one page has been taken from the free list. -/
structure TookPage (m m' : Mem) : Prop where
  ndirs : m'.ndirs = m.ndirs
  dir : m'.dir = m.dir
  freelist : m.freelist.length ≤ m'.freelist.length + 1

variable {s t : Ptable} {E : Fault → Prop} {c k : Slot} {d sz : ℕ}

theorem unused_of_freeSlot {np : Slot} (h : s.freeSlot = some np) : (s.proc np).state = .UNUSED := by
  have hnp := List.find?_some h
  rwa [decide_eq_true_iff] at hnp

theorem ne_of_freeSlot {np : Slot} (hc : (s.proc c).state ≠ .UNUSED) (h : s.freeSlot = some np) :
    c ≠ np := by
  rintro rfl
  exact hc (unused_of_freeSlot h)

theorem Failed.proc (h : Failed s t) (k : Slot) : t.proc k = s.proc k ∨
    ((t.proc k).state = .UNUSED ∨ (t.proc k).state = .EMBRYO) ∧ (t.proc k).ptid = s.nextpid := by
  rcases h with ⟨-, rfl⟩ | ⟨np, h⟩
  · exact .inl rfl
  · rcases eq_or_ne k np with rfl | hk
    · have hself := h.self
      generalize t.proc k = q at hself
      cases hself
      · exact .inr ⟨.inl rfl, rfl⟩
      · exact .inr ⟨.inl rfl, rfl⟩
      · exact .inr ⟨.inr rfl, rfl⟩
    · exact .inl (h.other k hk)

theorem Failed.not_runnable (h : Failed s t) (hk : (s.proc k).state = .UNUSED) : (t.proc k).state ≠ .RUNNABLE := by
  intro hrun
  rcases h.proc k with heq | ⟨hstate, -⟩
  · rw [heq, hk] at hrun
    cases hrun
  · rcases hstate with hs | hs <;> cases hrun.symm.trans hs

theorem Failed.nextpid (h : Failed s t) : s.nextpid ≤ t.nextpid := by
  rcases h with ⟨-, rfl⟩ | ⟨np, h⟩
  · exact le_rfl
  · rw [h.nextpid]
    exact Int.le_add_one le_rfl

theorem Failed.nexttid (h : Failed s t) : t.nexttid = s.nexttid := by
  rcases h with ⟨-, rfl⟩ | ⟨np, h⟩
  · rfl
  · exact h.nexttid

theorem TookPage.wf {m m' : Mem} (h : TookPage m m') (hwf : m.Wf) : m'.Wf := by
  intro d hd
  rw [h.dir] at hd
  rw [h.ndirs]
  exact hwf d hd

theorem allocproc_sat : allocproc.Sat s (fun r t ↦ TookPage s.mem t.mem ∧
    r.elim (Failed s t) fun np ↦ ∃ v, Took s t np v) E := by
  rw [allocproc, allocSlot, sat_bind, sat_get_bind]
  split
  next hnone => exact ⟨⟨rfl, rfl, Nat.le_succ _⟩, .inl ⟨hnone, rfl⟩⟩
  next np hnp =>
    refine sat_update_bind.2 (sat_modify_bind.2 (sat_bind.2 (sat_bind.2 (sat_vm.2 (kalloc_takes.imp ?_)))))
    rintro r _ ⟨-, rfl⟩
    have hpage : TookPage s.mem { s.mem with freelist := s.mem.freelist.tail } :=
      ⟨rfl, rfl, by rw [List.length_tail]; omega⟩
    cases r with
    | none =>
      refine ⟨hpage, .inr ⟨np, hnp, ?_, fun k hk ↦ ?_, rfl, rfl, rfl⟩⟩
      · simpa using WastedSlot.noStack
      · simp [hk]
    | some v => exact ⟨hpage, v, hnp, by simp [allocated], fun k hk ↦ by simp [hk], rfl, rfl, rfl⟩

/-- How `userinit`, `fork` and `thread_create` begin. -/
theorem sat_allocproc_bind {α : Type} {f : Option Slot → Kern α} {Q : α → Ptable → Prop}
    (hnone : ∀ t, TookPage s.mem t.mem → Failed s t → (f none).Sat t Q E)
    (hsome : ∀ np v t, TookPage s.mem t.mem → Took s t np v → (f (some np)).Sat t Q E) :
    (allocproc >>= f).Sat s Q E := by
  refine allocproc_sat.bind ?_
  intro r t ⟨hpage, hr⟩
  cases r with
  | none => exact hnone t hpage hr
  | some np =>
    obtain ⟨v, htook⟩ := hr
    exact hsome np v t hpage htook

/-! ### `userinit` -/

/-- The table that `userinit` leaves: the first process is in slot `p`, with page directory `d`. -/
structure Booted (t : Ptable) (p : Slot) (d : ℕ) : Prop where
  initproc : t.initproc = p
  /-- Its slot. -/
  self : ∃ v, t.proc p =
    ((((Proc.zero.embryo 1).setKstack (some v)).setPgdir (some d)).setSz PGSIZE).setState .RUNNABLE
  other : ∀ k, k ≠ p → t.proc k = Proc.zero
  nextpid : t.nextpid = 2
  nexttid : t.nexttid = 0
  dir : (t.mem.dir d).isSome
  wf : t.mem.Wf
  present : ∀ va, UserPage va → t.mem.Present d va → va = 0

/-- There is no other process. -/
theorem Booted.eq_of_used {t : Ptable} {p k : Slot} {d : ℕ} (h : Booted t p d) (hk : (t.proc k).state ≠ .UNUSED) :
    k = p := by
  by_contra hne
  exact hk (congrArg Proc.state (h.other k hne))

section

variable {m : Mem}

theorem kalloc_length : kalloc.Sat m (fun r m' ↦
    m.freelist.length ≤ m'.freelist.length + 1 ∧ (r = none → m.freelist.length = 0)) fun _ ↦ True := by
  rw [kalloc, sat_get_bind]
  cases h : m.freelist with
  | nil =>
    refine ⟨?_, fun _ ↦ rfl⟩
    exact Nat.zero_le _
  | cons r next => exact ⟨le_rfl, by simp⟩

theorem kernelTables_length {d n : ℕ} : (kernelTables d n).Sat m (fun _ m' ↦
    m.freelist.length ≤ m'.freelist.length + n) fun _ ↦ True := by
  induction n generalizing m with
  | zero => exact le_rfl
  | succ n ih =>
    rw [kernelTables]
    refine kalloc_length.bind ?_
    intro r m₁ ⟨hle, _⟩
    cases r with
    | none =>
      refine hle.trans ?_
      omega
    | some pgtab =>
      refine sat_bind.2 (pageDir_sat_or trivial fun pd _ ↦ ?_)
      refine sat_modify_bind.2 (ih.imp fun _ m' hle' ↦ ?_)
      have hle'' : m₁.freelist.length ≤ m'.freelist.length + n := hle'
      omega

theorem setupkvm_length : setupkvm.Sat m (fun r m' ↦ r ≠ none →
    m.freelist.length ≤ m'.freelist.length + (KVMTABLES + 1)) fun _ ↦ True := by
  rw [setupkvm]
  generalize KVMTABLES = n
  refine kalloc_length.bind ?_
  intro r m₁ ⟨hle, _⟩
  cases r with
  | none => exact fun h ↦ absurd rfl h
  | some page =>
    refine sat_get_bind.2 (sat_modify_bind.2 (sat_modify_bind.2 (kernelTables_length.bind ?_)))
    intro ok m₂ hle'
    have hle'' : m₁.freelist.length ≤ m₂.freelist.length + n := hle'
    cases ok with
    | true =>
      refine sat_pure.2 fun _ ↦ ?_
      omega
    | false =>
      exact sat_bind.2 ((sat_true _ _).imp fun _ _ _ ↦ sat_pure.2 fun h ↦ absurd rfl h)

theorem mappages_true {d va page : ℕ} {w u : Bool} :
    (mappages d va page w u).Sat m (fun r _ ↦ 0 < m.freelist.length → r = true) fun _ ↦ True := by
  rw [mappages, walkpgdir]
  refine sat_bind.2 (sat_bind.2 (pageDir_sat_or trivial fun pd _ ↦ ?_))
  have hrest : ∀ m' : Mem, (do
      let pd ← pageDir d
      if (pd.pte va).isSome then
        Prog.fail (.panic .remap)
      else
        setDir d (some (pd.setPte va (some ⟨page, w, u⟩)))
        return true : VM Bool).Sat m' (fun r _ ↦ 0 < m.freelist.length → r = true) fun _ ↦ True := by
    intro m'
    refine sat_bind.2 (pageDir_sat_or trivial fun pd' _ ↦ ?_)
    split
    · trivial
    · exact sat_modify_bind.2 (sat_pure.2 fun _ ↦ rfl)
  split
  · exact hrest m
  · refine kalloc_length.bind ?_
    intro r m₁ hpost
    obtain ⟨_, hnone⟩ := hpost
    cases r with
    | none => exact fun h ↦ absurd (hnone rfl) h.ne'
    | some pgtab => exact sat_modify_bind.2 (hrest _)

end

/-- `userinit` makes the first process. With enough pages at the start its first page is there: one page for the
kernel stack, one for the directory, those of the kernel half, the page itself and a page table for it. -/
theorem userinit_boots {freelist : List ℕ} : userinit.Sat (zero freelist) (fun _ t ↦ ∃ p d, Booted t p d ∧
    (68 ≤ freelist.length → t.mem.Present d 0)) fun _ ↦ True := by
  have htables : KVMTABLES = 64 := rfl
  rw [userinit]
  refine sat_allocproc_bind (fun _ _ _ ↦ trivial) fun p v s₁ hpage htook ↦ ?_
  rw [sat_modify_bind]
  have hwf : s₁.mem.Wf := hpage.wf (by intro d hd; cases hd)
  refine sat_bind.2 (sat_vm.2 (((setupkvm_sat hwf).and setupkvm_length).mono ?_ fun _ _ ↦ trivial))
  rintro r m ⟨⟨hmade, hempty, -⟩, hle⟩
  cases r with
  | none => trivial
  | some d =>
    refine sat_bind.2 (sat_vm.2 (((kalloc_sat (E := fun _ ↦ True)).and kalloc_length).mono ?_ fun _ _ ↦ trivial))
    rintro r m₁ ⟨⟨hn₁, hdir₁⟩, hle', -⟩
    cases r with
    | none => trivial
    | some page =>
      have hd : (m₁.dir d).isSome := hdir₁ ▸ (hmade.eq d rfl).2
      have hzero : UserPage 0 := ⟨Nat.dvd_zero _, by decide⟩
      refine sat_bind.2 (sat_vm.2 (((mappages_sat hzero hd).and mappages_true).mono ?_ fun _ _ ↦ trivial))
      rintro r m₂ ⟨⟨hch, hpresent⟩, hr⟩
      refine ⟨p, d, ⟨rfl, ⟨v, ?_⟩, ?_, htook.nextpid, htook.nexttid, hch.isSome ▸ hd, ?_, ?_⟩, fun h ↦ ?_⟩
      · simp only [setProc_proc, setMem_proc, update_self, htook.self]
        rfl
      · intro k hk
        simp only [setProc_proc, setMem_proc, update_of_ne hk, htook.other k hk]
        rfl
      · intro d' hd'
        rw [setProc_mem, setMem_mem, hch.isSome_dir, hdir₁] at hd'
        rw [setProc_mem, setMem_mem, hch.ndirs, hn₁]
        exact hmade.lt d' hd'
      · intro va hva hpresent
        by_contra hne
        have hpte : m₂.pte d va = none := by
          rw [hch.pte va hva fun h ↦ hne h.2, Mem.pte, hdir₁]
          exact hempty d rfl va hva
        rw [Mem.Present, setProc_mem, setMem_mem, hpte] at hpresent
        cases hpresent
      · have hle₁ : freelist.length ≤ s₁.mem.freelist.length + 1 := hpage.freelist
        have hle₂ : s₁.mem.freelist.length ≤ m.freelist.length + (KVMTABLES + 1) := hle (Option.some_ne_none d)
        have hle₃ : m.freelist.length ≤ m₁.freelist.length + 1 := hle'
        rw [Mem.Present, setProc_mem, setMem_mem, (hpresent (hr (by omega))).2]
        rfl

theorem userinit_sat {freelist : List ℕ} :
    userinit.Sat (zero freelist) (fun _ t ↦ ∃ p d, Booted t p d) fun _ ↦ True := by
  refine userinit_boots.imp ?_
  intro _ t ⟨p, d, h, _⟩
  exact ⟨p, d, h⟩

/-! ### `growproc` -/

/-- How `switchuvm` to the process `q` stops. -/
def SwitchFault (q : Proc) (e : Fault) : Prop :=
  (e = .panic .switchuvmNoKstack ∧ q.kstack = none) ∨ (e = .panic .switchuvmNoPgdir ∧ q.pgdir = none)

/-- `switchuvm` changes nothing. -/
theorem switchuvm_sat : (switchuvm c).Sat s (fun _ t ↦ t = s) (SwitchFault (s.proc c)) := by
  rw [switchuvm, sat_get_bind]
  dsimp only
  split
  next h => exact .inl ⟨rfl, h⟩
  · split
    next h => exact .inr ⟨rfl, h⟩
    · rfl

/-- The ways in which code on the table can stop, apart from a page that is mapped twice and from a
page that `copyuvm` does not find. -/
def OtherFault (e : Fault) : Prop :=
  e ≠ .panic .remap ∧ e ≠ .panic .copyuvmPteShouldExist ∧ e ≠ .panic .copyuvmPageNotPresent

theorem SwitchFault.other {q : Proc} {e : Fault} (h : SwitchFault q e) : OtherFault e := by
  rcases h with ⟨rfl, -⟩ | ⟨rfl, -⟩ <;> exact ⟨nofun, nofun, nofun⟩

theorem otherFault_kfree : OtherFault (.panic .kfree) := ⟨nofun, nofun, nofun⟩

theorem otherFault_dangling : OtherFault .dangling := ⟨nofun, nofun, nofun⟩

/-- What `growproc` by `n` bytes can have done to `s`, for a slot `c` with page directory `d`. -/
inductive GrowResult (s : Ptable) (c : Slot) (d : ℕ) (n : ℤ) : ℤ → Ptable → Prop where
  /-- The process has grown, and the new pages are there. -/
  | grown {m : Mem} {sz : ℕ} (hn : 0 < n) (hsz : (sz : ℤ) = (s.proc c).sz + n) (hlt : sz < KERNBASE)
      (pages : Pages s.mem m d fun va ↦ (s.proc c).sz ≤ va ∧ va < sz)
      (present : ∀ va, UserPage va → (s.proc c).sz ≤ va → va < sz → m.Present d va) :
      GrowResult s c d n 0 ((s.setMem m).setProc c ((s.proc c).setSz sz))
  /-- There was not enough memory, and no page has been added. -/
  | failed {m : Mem} (hn : 0 < n) (pages : Pages s.mem m d fun va ↦ (s.proc c).sz ≤ va)
      (present : ∀ va, UserPage va → m.Present d va → s.mem.Present d va) :
      GrowResult s c d n (-1) (s.setMem m)
  /-- The process has shrunk, and the pages are gone. -/
  | shrunk {m : Mem} {sz : ℕ} (hn : n < 0) (hsz : (sz : ℤ) = (s.proc c).sz + n) (hpos : 0 < sz)
      (pages : Pages s.mem m d fun va ↦ sz ≤ va ∧ va < (s.proc c).sz)
      (absent : ∀ va, UserPage va → sz ≤ va → va < (s.proc c).sz → ¬m.Present d va) :
      GrowResult s c d n 0 ((s.setMem m).setProc c ((s.proc c).setSz sz))
  /-- `deallocuvm` has returned the new size 0, and `growproc` takes that for a failure: the pages are
  gone and the size is as it was. -/
  | emptied {m : Mem} (hn : n < 0) (hsz : (s.proc c).sz + n = 0)
      (pages : Pages s.mem m d fun va ↦ va < (s.proc c).sz)
      (absent : ∀ va, UserPage va → va < (s.proc c).sz → ¬m.Present d va) :
      GrowResult s c d n (-1) (s.setMem m)
  /-- Nothing has changed: `n` is 0, or the new size wraps around. -/
  | same {r : ℤ} (hn : n = 0 ∨ (s.proc c).sz + n < 0) : GrowResult s c d n r s

/-- How `growproc` ends once `allocuvm` or `deallocuvm` has returned `sz` and left the memory `m`. -/
structure GrowEnd (s : Ptable) (c : Slot) (Q : ℤ → Ptable → Prop) (sz : ℕ) (m : Mem) : Prop where
  zero : sz = 0 → Q (-1) (s.setMem m)
  pos : 0 < sz → Q 0 ((s.setMem m).setProc c ((s.proc c).setSz sz))

/-- `growproc` is `allocuvm` or `deallocuvm`, and then the size is set unless it is 0. -/
theorem sat_growproc {n : ℤ} {Q : ℤ → Ptable → Prop} (hnone : (s.proc c).pgdir = none → E .dangling)
    (hswitch : ∀ e, SwitchFault (s.proc c) e → E e) (hgrow : ∀ d, (s.proc c).pgdir = some d → 0 < n →
      (allocuvm d (s.proc c).sz (uint ((s.proc c).sz + n))).Sat s.mem (GrowEnd s c Q) E)
    (hshrink : ∀ d, (s.proc c).pgdir = some d → n < 0 →
      (deallocuvm d (s.proc c).sz (uint ((s.proc c).sz + n))).Sat s.mem (GrowEnd s c Q) E)
    (hsame : n = 0 → Q 0 s) : (growproc c n).Sat s Q E := by
  have hend : ∀ sz m, GrowEnd s c Q sz m → (if sz = 0 then (return -1) else do
      update c fun q ↦ q.setSz sz
      switchuvm c
      return 0 : Kern ℤ).Sat (s.setMem m) Q E := by
    intro sz m h
    split
    next hzero => exact h.zero hzero
    next hpos =>
      rw [sat_update_bind]
      refine sat_bind.2 (switchuvm_sat.mono ?_ fun e he ↦ hswitch e ?_)
      · rintro _ t rfl
        exact h.pos (Nat.pos_of_ne_zero hpos)
      · rw [setProc_proc, update_self] at he
        exact he
  rw [growproc, sat_get_bind]
  split
  next hpos =>
    refine sat_bind.2 (sat_pgdirOf hnone fun d hd ↦ ?_)
    exact sat_bind.2 (sat_vm.2 ((hgrow d hd hpos).imp hend))
  · split
    next hneg =>
      refine sat_bind.2 (sat_pgdirOf hnone fun d hd ↦ ?_)
      exact sat_bind.2 (sat_vm.2 ((hshrink d hd hneg).imp hend))
    · refine sat_bind.2 (switchuvm_sat.mono ?_ hswitch)
      rintro _ t rfl
      exact hsame (by omega)

/-- `deallocuvm` to a size that has wrapped around returns the old size. -/
theorem GrowEnd.wrapped {Q : ℤ → Ptable → Prop} (hzero : (s.proc c).sz = 0 → Q (-1) s)
    (hpos : 0 < (s.proc c).sz → Q 0 s) : GrowEnd s c Q (s.proc c).sz s.mem := by
  refine ⟨hzero, fun h ↦ ?_⟩
  have hsame : s.setProc c ((s.proc c).setSz (s.proc c).sz) = s := by
    unfold setProc
    exact congrArg (fun p ↦ { s with proc := p }) (update_eq_self c s.proc)
  exact hsame.symm ▸ hpos h

theorem growproc_sat {n : ℤ} (hd : (s.proc c).pgdir = some d) (hdir : (s.mem.dir d).isSome)
    (hsz : (s.proc c).sz < KERNBASE) (hn : -2147483648 ≤ n ∧ n < 2147483648) :
    (growproc c n).Sat s (GrowResult s c d n) fun e ↦ OtherFault e ∨
      (e = .panic .remap ∧ ∃ va, UserPage va ∧ (s.proc c).sz ≤ va ∧ s.mem.Present d va) := by
  have hK : KERNBASE = 2147483648 := rfl
  refine sat_growproc (fun h ↦ by cases hd.symm.trans h) (fun e he ↦ .inl he.other)
    (fun d' hd' hpos ↦ ?_) (fun d' hd' hneg ↦ ?_) fun h ↦ .same (.inl h)
  · obtain rfl := Option.mem_unique hd hd'
    obtain ⟨sz, hsz'⟩ : ∃ sz : ℕ, (sz : ℤ) = (s.proc c).sz + n := ⟨((s.proc c).sz + n).toNat, by omega⟩
    rw [← hsz', uint_natCast (by omega)]
    refine (allocuvm_sat (by omega) hdir).mono ?_ ?_
    · intro r m hpost
      obtain ⟨hch, _, hor⟩ := hpost
      constructor
      · rintro rfl
        rcases hor with ⟨h0, -⟩ | ⟨-, hsub⟩
        · omega
        · exact .failed hpos ((hch.mono fun va h ↦ h.1).pages) hsub
      · intro hr
        rcases hor with ⟨rfl, hlt, hall⟩ | ⟨rfl, -⟩
        · exact .grown hpos hsz' hlt hch.pages fun va hva h1 h2 ↦ (hall va hva h1 h2).present
        · omega
    · rintro e (rfl | ⟨rfl, va, hva, hle, -, hsome⟩)
      · exact .inl otherFault_kfree
      · exact .inr ⟨rfl, va, hva, hle, hsome⟩
  · obtain rfl := Option.mem_unique hd hd'
    rcases lt_or_ge ((s.proc c).sz + n : ℤ) 0 with hwrap | hge
    · -- The new size wraps around, and is larger than the old one.
      have hle : (s.proc c).sz ≤ uint ((s.proc c).sz + n) := by
        unfold uint
        omega
      exact deallocuvm_of_ge hle (.wrapped (fun _ ↦ .same (.inr hwrap)) fun _ ↦ .same (.inr hwrap))
    · obtain ⟨sz, hsz'⟩ : ∃ sz : ℕ, (sz : ℤ) = (s.proc c).sz + n :=
        ⟨((s.proc c).sz + n).toNat, by omega⟩
      rw [← hsz', uint_natCast (by omega)]
      refine (deallocuvm_sat (by omega) (by omega) hdir).mono ?_ fun e he ↦ .inl (he ▸ otherFault_kfree)
      rintro r m ⟨rfl, hclear⟩
      have habs : ∀ va, UserPage va → r ≤ va → va < (s.proc c).sz → ¬m.Present d va := by
        intro va hva h1 h2 h
        rw [Mem.Present, hclear.clear va hva h1 h2] at h
        cases h
      constructor
      · rintro rfl
        exact .emptied hneg hsz'.symm ((hclear.changed.mono fun va h ↦ h.2).pages)
          fun va hva h ↦ habs va hva (Nat.zero_le _) h
      · exact fun hr ↦ .shrunk hneg hsz' hr hclear.changed.pages habs

/-! ### `thread_create` -/

/-- The address that `thread_create` gives to `clearpteu` when the size is `sz`. -/
def guardPage (sz : ℕ) : ℕ := PGROUNDDOWN (uint (sz - 2 * PGSIZE))

/-- The pages from `sz` to `sz'` are new. Other entries are as before, apart from the one that `clearpteu`
has changed. -/
structure NewStack (m m' : Mem) (d sz sz' guard : ℕ) : Prop where
  changed : Changed m m' d fun va ↦ (sz ≤ va ∧ va < sz') ∨ va = guard
  new : ∀ va, UserPage va → sz ≤ va → va < sz' → m.pte d va = none ∧ m'.Present d va ∧
    (va ≠ guard → ∃ p, m'.pte d va = some ⟨p, true, true⟩)

/-- The pages of a new stack are there, or none has been added. -/
theorem createSpace_sat (hd : (s.proc c).pgdir = some d) (hdir : (s.mem.dir d).isSome) :
    (createSpace c sz).Sat s (fun r t ↦ ∃ m, t = s.setMem m ∧
        ((r = 0 ∧ Pages s.mem m d (fun va ↦ sz ≤ va) ∧
            ∀ va, UserPage va → m.Present d va → s.mem.Present d va) ∨
          (r = sz + 2 * PGSIZE ∧ r < KERNBASE ∧ Pages s.mem m d (fun va ↦ sz ≤ va ∧ va < r) ∧
            NewStack s.mem m d sz r (guardPage (s.proc c).sz)))) fun e ↦ OtherFault e ∨
        (e = .panic .remap ∧ ∃ va, UserPage va ∧ sz ≤ va ∧ s.mem.Present d va) := by
  unfold createSpace
  refine sat_bind.2 (sat_pgdirOf (fun h ↦ nomatch hd.symm.trans h) fun d' hd' ↦ ?_)
  obtain rfl := Option.mem_unique hd hd'
  have hpos : 0 < 2 * PGSIZE := by decide
  generalize hnew : sz + 2 * PGSIZE = newsz
  refine sat_bind.2 (sat_vm.2 ((allocuvm_sat (by omega) hdir).mono ?_ ?_))
  · intro r m ⟨hch, _, hor⟩
    split
    next h0 =>
      rcases hor with ⟨hr, -⟩ | ⟨-, hsub⟩
      · omega
      · exact ⟨m, rfl, .inl ⟨rfl, (hch.mono fun va h ↦ h.1).pages, hsub⟩⟩
    next h0 =>
      refine sat_bind.2 (sat_pgdirOf (fun h ↦ nomatch hd.symm.trans h) fun d' hd' ↦ ?_)
      refine sat_get_bind.2 (sat_bind.2 (sat_vm.2 (clearpteu_sat.mono ?_ ?_)))
      · -- Clearing `PTE_U` of a page leaves it present.
        obtain rfl := Option.mem_unique hd hd'
        intro _ m' ⟨hch', hiff⟩
        refine ⟨m', rfl, .inr ?_⟩
        rcases hor with ⟨rfl, hlt, hall⟩ | ⟨h, -⟩
        · refine ⟨rfl, hlt, hch.pages.trans (hch'.pages_of_iff hiff),
            (hch.mono fun _ ↦ .inl).trans (hch'.mono fun _ ↦ .inr), fun va hva h1 h2 ↦ ?_⟩
          refine ⟨(hall va hva h1 h2).1, (hiff va hva).2 (hall va hva h1 h2).present, fun hne ↦ ?_⟩
          obtain ⟨-, p, hp, -⟩ := hall va hva h1 h2
          exact ⟨p, (hch'.pte va hva hne).trans hp⟩
        · exact absurd h h0
      · rintro e (rfl | rfl)
        · exact .inl otherFault_dangling
        · exact .inl ⟨nofun, nofun, nofun⟩
  · rintro e (rfl | ⟨rfl, va, hva, hle, -, hsome⟩)
    · exact .inl otherFault_kfree
    · exact .inr ⟨rfl, va, hva, hle, hsome⟩

/-- The slots of the group of `c` get a new size. -/
theorem sat_setSizes_bind {α : Type} {g : Unit → Kern α} {Q : α → Ptable → Prop} :
    (setSizes c sz >>= g).Sat s Q E ↔
      (g ()).Sat (s.mapProcs (fun _ p ↦ p.ptid = (s.proc c).ptid) fun p ↦ p.setSz sz) Q E := Iff.rfl

/-- The slot of a new thread when it is filled in, before its size. -/
def newThread (s : Ptable) (c np : Slot) : Proc :=
  ((s.proc np).setStack (s.proc c).sz (uint ((s.proc c).sz - 2 * PGSIZE))).setThread
    (if (s.proc c).tFlag then (s.proc c).ptid else (s.proc c).pid) c s.nexttid (s.proc c).pgdir

/-- `thread_create` fills in the slot and sets the sizes of the group. -/
theorem createFill_sat {np : Slot} (hne : c ≠ np) :
    (createFill c np sz).Sat s (fun tid t ↦ tid = s.nexttid ∧ t.mem = s.mem ∧
        t.nextpid = s.nextpid ∧ t.nexttid = s.nexttid + 1 ∧ t.initproc = s.initproc ∧ ∀ k, t.proc k =
            if (Function.update s.proc np (s.newThread c np) k).ptid = (s.proc c).ptid then
              (Function.update s.proc np (s.newThread c np) k).setSz sz
            else Function.update s.proc np (s.newThread c np) k)
      fun e ↦ e = .dangling ∨ e = .lockHeld := by
  rw [createFill, sat_get_bind]
  refine sat_update_bind.2 (sat_bind.2 (sat_pgdirOf (fun _ ↦ .inl rfl) fun d _ ↦ ?_))
  refine sat_bind.2 (sat_vm.2 (copyout_sat.mono ?_ fun _ h ↦ .inl h))
  intro r m hm
  split
  · refine sat_update_bind.2 (sat_modify_bind.2 (sat_setSizes_bind.2 ?_))
    refine ⟨rfl, hm, rfl, rfl, rfl, fun k ↦ ?_⟩
    simp only [mapProcs_proc, setProc_proc, setMem_proc, update_idem, update_self,
      update_of_ne hne, decide_eq_true_eq]
    rfl
  · exact .inr rfl

/-- A slot when `thread_create` by `c` has made a thread of it. -/
def spawnedSlot (s : Ptable) (c np : Slot) (v a b sz : ℕ) : Proc :=
  ((((s.allocated np v).setStack a b).setThread
    (if (s.proc c).tFlag then (s.proc c).ptid else (s.proc c).pid) c s.nexttid
      (s.proc c).pgdir).setSz sz).setState .RUNNABLE

/-- What `thread_create` by `c` has done to the slots when it has made the thread `np` and the size is `r`. The
thread has that size too if it is in the group of `c`. -/
structure Spawned (s t : Ptable) (c np : Slot) (r : ℕ) : Prop where
  free : s.freeSlot = some np
  self : ∃ v sz, t.proc np = s.spawnedSlot c np v r (uint (r - 2 * PGSIZE)) sz ∧
    ((if (s.proc c).tFlag then (s.proc c).ptid else (s.proc c).pid) = (s.proc c).ptid → sz = r)
  other : ∀ k, k ≠ np → t.proc k =
    if (s.proc k).ptid = (s.proc c).ptid then (s.proc k).setSz r else s.proc k
  nextpid : t.nextpid = s.nextpid + 1
  nexttid : t.nexttid = s.nexttid + 1
  initproc : t.initproc = s.initproc

theorem Spawned.resized {np : Slot} {r : ℕ} (h : Spawned s t c np r) (hk : k ≠ np) :
    ∃ sz, t.proc k = (s.proc k).setSz sz := by
  rw [h.other k hk]
  split
  · exact ⟨r, rfl⟩
  · exact ⟨_, rfl⟩

/-- `thread_create`, up to what it does to the memory. -/
theorem sat_threadCreate {Q : Option ℤ → Ptable → Prop} (hc : (s.proc c).state ≠ .UNUSED) (hdangling : E .dangling)
    (hlock : E .lockHeld) (hfail : ∀ t, TookPage s.mem t.mem → Failed s t → Q none t)
    (hspace : ∀ s₁, s₁.proc c = s.proc c → TookPage s.mem s₁.mem → (createSpace c (s.proc c).sz).Sat s₁ (fun r t ↦
      ∃ m, t = s₁.setMem m ∧ (r = 0 → ∀ t, t.mem = m → Failed s t → Q none t) ∧
        (r ≠ 0 → ∀ t np, t.mem = m → Spawned s t c np r → Q (some s.nexttid) t)) E) :
    (threadCreate c).Sat s Q E := by
  rw [threadCreate, sat_get_bind]
  refine sat_allocproc_bind hfail fun np v s₁ hpage htook ↦ ?_
  have hne := ne_of_freeSlot hc htook.free
  have hself := htook.self
  have hother := htook.other
  refine (hspace s₁ (hother c hne) hpage).bind ?_
  rintro r _ ⟨m, rfl, hzero, hpos⟩
  split
  next h0 =>
    refine hzero h0 _ rfl (.inr ⟨np, htook.free, ?_, hother, htook.nextpid, htook.nexttid, htook.initproc⟩)
    rw [setMem_proc, hself]
    exact .lost v
  next h0 =>
    rw [sat_setSizes_bind]
    -- The table when the thread is filled in: the group has the new size.
    obtain ⟨s₂, hs₂⟩ : ∃ s₂, s₂ = (s₁.setMem m).mapProcs
      (fun _ p ↦ p.ptid = ((s₁.setMem m).proc c).ptid) (fun p ↦ p.setSz r) := ⟨_, rfl⟩
    rw [← hs₂]
    have hproc₂ : ∀ k, s₂.proc k =
        if (s₁.proc k).ptid = (s.proc c).ptid then (s₁.proc k).setSz r else s₁.proc k := by
      intro k
      rw [hs₂, mapProcs_proc, setMem_proc, hother c hne]
      simp only [decide_eq_true_eq]
    have hc₂ : s₂.proc c = (s.proc c).setSz r := by rw [hproc₂ c, hother c hne, if_pos rfl]
    have htid₂ : s₂.nexttid = s.nexttid := by rw [hs₂]; exact htook.nexttid
    obtain ⟨sz₀, hnp₂⟩ : ∃ sz₀, s₂.proc np = (s.allocated np v).setSz sz₀ := by
      rw [hproc₂, hself]
      split
      · exact ⟨r, rfl⟩
      · exact ⟨_, rfl⟩
    refine sat_bind.2 ((createFill_sat hne).mono ?_ ?_)
    · rintro _ s₃ ⟨rfl, hmem₃, hpid₃, htid₃, hinit₃, hproc₃⟩
      rw [publish, sat_update_bind, htid₂]
      refine hpos h0 _ np (by rw [setProc_mem, hmem₃, hs₂]; rfl) ⟨htook.free, ?_, fun k hk ↦ ?_, ?_, ?_, ?_⟩
      · rw [setProc_proc, update_self, hproc₃, update_self, newThread, hc₂, hnp₂, htid₂]
        by_cases hg : (if (s.proc c).tFlag then (s.proc c).ptid else (s.proc c).pid) = (s.proc c).ptid
        · exact ⟨v, r, congrArg (Proc.setState · .RUNNABLE) (if_pos hg), fun _ ↦ rfl⟩
        · exact ⟨v, sz₀, congrArg (Proc.setState · .RUNNABLE) (if_neg hg), fun h ↦ absurd h hg⟩
      · rw [setProc_proc, update_of_ne hk, hproc₃, update_of_ne hk, hproc₂ k, hother k hk, hc₂]
        split
        next h => exact if_pos h
        next h => exact if_neg h
      · rw [setProc_nextpid, hpid₃, hs₂]
        exact htook.nextpid
      · rw [setProc_nexttid, htid₃, htid₂]
      · rw [setProc_initproc, hinit₃, hs₂]
        exact htook.initproc
    · rintro e (rfl | rfl)
      · exact hdangling
      · exact hlock

/-- What `thread_create` by `c` has done when it has made the thread `np`. -/
structure Created (s t : Ptable) (c np : Slot) (d : ℕ) : Prop where
  unused : (s.proc np).state = .UNUSED
  lt : (s.proc c).sz + 2 * PGSIZE < KERNBASE
  state : (t.proc np).state = .RUNNABLE
  tFlag : (t.proc np).tFlag = true
  mainThread : (t.proc np).mainThread = some c
  tid : (t.proc np).tid = s.nexttid
  ptid : (t.proc np).ptid = (s.proc c).ptid
  pgdir : (t.proc np).pgdir = some d
  sz : (t.proc np).sz = (s.proc c).sz + 2 * PGSIZE
  start : (t.proc np).start = (s.proc c).sz + 2 * PGSIZE
  stop : (t.proc np).stop = (s.proc c).sz
  /-- The others of the group have the new size. -/
  other : ∀ k, k ≠ np → t.proc k =
    if (s.proc k).ptid = (s.proc c).ptid then (s.proc k).setSz ((s.proc c).sz + 2 * PGSIZE)
    else s.proc k
  /-- Only pages of the new stack have come. -/
  pages : Pages s.mem t.mem d fun va ↦
    (s.proc c).sz ≤ va ∧ va < (s.proc c).sz + 2 * PGSIZE
  /-- They are there. -/
  present : ∀ va, UserPage va → (s.proc c).sz ≤ va → va < (s.proc c).sz + 2 * PGSIZE →
    t.mem.Present d va
  nextpid : t.nextpid = s.nextpid + 1
  nexttid : t.nexttid = s.nexttid + 1
  initproc : t.initproc = s.initproc

/-- What `thread_create` by `c` can have done. -/
inductive CreateResult (s : Ptable) (c : Slot) (d : ℕ) : Option ℤ → Ptable → Prop where
  /-- A thread has been made. -/
  | created {t : Ptable} {np : Slot} (h : Created s t c np d) :
      CreateResult s c d (some s.nexttid) t
  /-- It has failed. -/
  | failed {t : Ptable} (h : Failed s t) (pages : Pages s.mem t.mem d fun va ↦ (s.proc c).sz ≤ va)
      (present : ∀ va, UserPage va → t.mem.Present d va → s.mem.Present d va) :
      CreateResult s c d none t

theorem threadCreate_sat (hd : (s.proc c).pgdir = some d) (hdir : (s.mem.dir d).isSome)
    (hrun : (s.proc c).state ≠ .UNUSED) (hgroup : (s.proc c).tFlag = false → (s.proc c).pid = (s.proc c).ptid) :
    (threadCreate c).Sat s (CreateResult s c d) fun e ↦ OtherFault e ∨
      (e = .panic .remap ∧ ∃ va, UserPage va ∧ (s.proc c).sz ≤ va ∧ s.mem.Present d va) := by
  have hptid : (if (s.proc c).tFlag then (s.proc c).ptid else (s.proc c).pid) = (s.proc c).ptid := by
    split
    · rfl
    next h => exact hgroup (Bool.eq_false_iff.2 h)
  have hpresent : ∀ {m : Mem}, TookPage s.mem m → ∀ va, m.Present d va ↔ s.mem.Present d va := by
    intro m hpage va
    rw [Mem.Present, Mem.Present, Mem.pte, Mem.pte, hpage.dir]
  refine sat_threadCreate hrun (.inl otherFault_dangling) (.inl ⟨by simp, by simp, by simp⟩) (fun t hpage hf ↦ ?_)
    fun s₁ hc₁ hpage ↦ ?_
  · exact .failed hf (.of_dir hpage.ndirs hpage.dir) fun va _ ↦ (hpresent hpage va).1
  · have hpages₁ : ∀ S, Pages s.mem s₁.mem d S := fun S ↦ .of_dir hpage.ndirs hpage.dir
    refine (createSpace_sat (hc₁ ▸ hd) (hpage.dir ▸ hdir)).mono ?_ ?_
    · rintro r _ ⟨m, rfl, hor⟩
      refine ⟨m, rfl, fun h0 t ht hf ↦ ?_, fun h0 t np ht hsp ↦ ?_⟩
      · subst ht
        rcases hor with ⟨-, hpages, hsub⟩ | ⟨hr, -⟩
        · exact .failed hf ((hpages₁ _).trans hpages) fun va hva h ↦ (hpresent hpage va).1 (hsub va hva h)
        · have hpos : 0 < 2 * PGSIZE := by decide
          omega
      · subst ht
        obtain ⟨hr, hlt, hpages, hnew⟩ := hor.resolve_left fun h ↦ h0 h.1
        obtain ⟨v, sz, hself, hsz⟩ := hsp.self
        have hlow : uint ((r : ℤ) - 2 * PGSIZE) = (s.proc c).sz := by
          have hsub : (r : ℤ) - 2 * PGSIZE = ((s.proc c).sz : ℤ) := by omega
          have hK : KERNBASE = 2147483648 := rfl
          rw [hsub, uint_natCast (by omega)]
        rw [hlow, hsz hptid] at hself
        subst hr
        refine .created ⟨unused_of_freeSlot hsp.free, hlt, ?_, ?_, ?_, ?_, ?_, ?_, ?_, ?_, ?_, hsp.other,
          (hpages₁ _).trans hpages, fun va hva h1 h2 ↦ (hnew.new va hva h1 h2).2.1, hsp.nextpid, hsp.nexttid,
          hsp.initproc⟩ <;> rw [hself]
        case refine_5 => exact hptid
        case refine_6 => exact hd
        all_goals rfl
    · rintro e (h | ⟨rfl, va, hva, hle, hp⟩)
      · exact .inl h
      · exact .inr ⟨rfl, va, hva, hle, (hpresent hpage va).1 hp⟩

/-! ### `thread_exit` -/

/-- A process that was asleep has been woken up if `p`, and the rest is as it was. -/
def Woken (p : Prop) (q q' : Proc) : Prop :=
  ¬(q.state = .SLEEPING ∧ p) ∧ q' = q ∨ (q.state = .SLEEPING ∧ p) ∧ q' = q.setState .RUNNABLE

theorem wakeup1_sat {chan : Option Chan} : (wakeup1 chan).Sat s (fun _ t ↦ OnlyProcs s t ∧
    ∀ k, Woken ((s.proc k).chan = chan) (s.proc k) (t.proc k)) E := by
  refine ⟨⟨rfl, rfl, rfl, rfl⟩, fun k ↦ ?_⟩
  rw [mapProcs_proc]
  split
  next h => exact .inr ⟨by simpa using h, rfl⟩
  next h => exact .inl ⟨by simpa using h, rfl⟩

theorem wakeInit_sat {orphans : Bool} : (wakeInit orphans).Sat s (fun _ t ↦ OnlyProcs s t ∧
    ∀ k, Woken ((s.proc k).chan = some (.proc s.initproc) ∧ orphans = true) (s.proc k) (t.proc k)) E := by
  rw [wakeInit]
  cases orphans with
  | true =>
    simp only [and_true]
    exact sat_get_bind.2 wakeup1_sat
  | false => exact ⟨.refl s, fun k ↦ .inl ⟨by simp, rfl⟩⟩

theorem Woken.chan {p : Prop} {q q' : Proc} (h : Woken p q q') : q'.chan = q.chan := by
  rcases h with ⟨-, rfl⟩ | ⟨-, rfl⟩ <;> rfl

theorem Woken.trans {p b : Prop} {q q' r : Proc} (h : Woken p q q') (h' : Woken b q' r) :
    Woken (p ∨ b) q r := by
  rcases h with ⟨hn, rfl⟩ | ⟨hs, rfl⟩
  · rcases h' with ⟨hn', rfl⟩ | ⟨hs', rfl⟩
    · exact .inl ⟨fun h ↦ h.2.elim (fun hp ↦ hn ⟨h.1, hp⟩) fun hp ↦ hn' ⟨h.1, hp⟩, rfl⟩
    · exact .inr ⟨⟨hs'.1, .inr hs'.2⟩, rfl⟩
  · rcases h' with ⟨-, rfl⟩ | ⟨hs', rfl⟩
    · exact .inr ⟨⟨hs.1, .inl hs.2⟩, rfl⟩
    · cases hs'.1

/-- What `thread_exit` by `c` has done. -/
structure ThreadExited (s t : Ptable) (c : Slot) (retval : ℕ) : Prop where
  only : OnlyProcs s t
  /-- In a slot, only the state, the creator and the value can have changed. -/
  frame : ∀ k, t.proc k = (((s.proc k).setState (t.proc k).state).setMainThread
    (t.proc k).mainThread).setRetval (t.proc k).retval
  zombie : (t.proc c).state = .ZOMBIE
  retval : (t.proc c).retval = retval
  /-- Others may have been woken up. -/
  state : ∀ k, k ≠ c → (t.proc k).state = (s.proc k).state ∨
    ((s.proc k).state = .SLEEPING ∧ (t.proc k).state = .RUNNABLE)
  /-- The threads of the caller have been passed to the first process. -/
  mainThread : ∀ k, (t.proc k).mainThread =
    if (s.proc k).mainThread = some c then some s.initproc else (s.proc k).mainThread
  retval_other : ∀ k, k ≠ c → (t.proc k).retval = (s.proc k).retval

/-- `exit` and `thread_exit` wake somebody up, pass slots on to the first process and wake that up if there are
orphans: a slot is woken up or not, and then it is passed on if it meets the condition. -/
theorem sat_passOn_bind {chan : Option Chan} {cond : Proc → Bool} {f : Proc → Proc} {orphans : Bool}
    {g : Unit → Kern Unit} {Q : Unit → Ptable → Prop} (hcond : ∀ q st, cond (q.setState st) = cond q)
    (hf : ∀ q st, f (q.setState st) = (f q).setState st) (hstate : ∀ q, (f q).state = q.state)
    (hchan : ∀ q, (f q).chan = q.chan)
    (h : ∀ t, OnlyProcs s t → (∀ k, ∃ q, Woken ((s.proc k).chan = chan ∨ (s.proc k).chan = some (.proc s.initproc) ∧
      orphans = true) (s.proc k) q ∧ t.proc k = if cond (s.proc k) then f q else q) → (g ()).Sat t Q E) :
    (wakeup1 chan >>= fun _ ↦ updateAll (fun _ ↦ cond) f >>= fun _ ↦ wakeInit orphans >>= g).Sat s Q E := by
  refine wakeup1_sat.bind ?_
  intro _ s₁ ⟨honly₁, hwake₁⟩
  refine sat_updateAll_bind.2 (wakeInit_sat.bind ?_)
  intro _ s₂ ⟨honly₂, hwake₂⟩
  refine h s₂ (honly₁.trans { honly₂ with }) fun k ↦ ?_
  have hsame : cond (s₁.proc k) = cond (s.proc k) := by
    rcases hwake₁ k with ⟨-, h⟩ | ⟨-, h⟩
    · rw [h]
    · rw [h, hcond]
  have h₂ := hwake₂ k
  rw [mapProcs_proc, hsame, mapProcs_initproc, honly₁.initproc] at h₂
  have hwoken := fun {q} ↦ (hwake₁ k).trans (r := q) (b := (s.proc k).chan = some (.proc s.initproc) ∧ orphans = true)
  split at h₂
  next h =>
    rw [hchan, (hwake₁ k).chan, Woken, hstate] at h₂
    simp only [if_pos h]
    rcases h₂ with ⟨hn, h₂⟩ | ⟨hs, h₂⟩
    · exact ⟨_, hwoken (.inl ⟨hn, rfl⟩), h₂⟩
    · exact ⟨_, hwoken (.inr ⟨hs, rfl⟩), by rw [h₂, hf]⟩
  next h =>
    rw [(hwake₁ k).chan] at h₂
    simp only [if_neg h]
    exact ⟨s₂.proc k, hwoken h₂, rfl⟩

theorem threadExit_sat {retval : ℕ} :
    (threadExit c retval).Sat s (fun _ t ↦ ThreadExited s t c retval) E := by
  rw [threadExit, sat_get_bind]
  refine sat_passOn_bind (fun _ _ ↦ rfl) (fun _ _ ↦ rfl) (fun _ ↦ rfl) (fun _ ↦ rfl) fun s₂ honly hslot ↦ ?_
  simp only [decide_eq_true_eq] at hslot
  have hk : ∀ k, k ≠ c →
      (s₂.setProc c (((s₂.proc c).setRetval retval).setState .ZOMBIE)).proc k = s₂.proc k :=
    fun k hne ↦ update_of_ne hne ..
  have hc : (s₂.setProc c (((s₂.proc c).setRetval retval).setState .ZOMBIE)).proc c =
      ((s₂.proc c).setRetval retval).setState .ZOMBIE := update_self ..
  refine ⟨{ honly with }, fun k ↦ ?_, by rw [hc]; rfl,
    by rw [hc]; rfl, fun k hne ↦ ?_, fun k ↦ ?_, fun k hne ↦ ?_⟩
  · obtain ⟨q, hwoken, hq⟩ := hslot k
    rcases eq_or_ne k c with rfl | hne
    · rw [hc, hq]
      rcases hwoken with ⟨-, rfl⟩ | ⟨-, rfl⟩ <;> split <;> rfl
    · rw [hk k hne, hq]
      rcases hwoken with ⟨-, rfl⟩ | ⟨-, rfl⟩ <;> split <;> rfl
  · obtain ⟨q, hwoken, hq⟩ := hslot k
    rw [hk k hne, hq, apply_ite Proc.state, Proc.setMainThread_state, ite_self]
    exact hwoken.imp (fun h ↦ by rw [h.2]) fun h ↦ ⟨h.1.1, by rw [h.2]; rfl⟩
  · obtain ⟨q, hwoken, hq⟩ := hslot k
    have hmain : q.mainThread = (s.proc k).mainThread := by
      rcases hwoken with ⟨-, rfl⟩ | ⟨-, rfl⟩ <;> rfl
    have hmain₂ : (s₂.proc k).mainThread =
        if (s.proc k).mainThread = some c then some s.initproc else (s.proc k).mainThread := by
      rw [hq, apply_ite Proc.mainThread, hmain]
      rfl
    rcases eq_or_ne k c with rfl | hne
    · rw [hc]
      exact hmain₂
    · rw [hk k hne, hmain₂]
  · obtain ⟨q, hwoken, hq⟩ := hslot k
    rw [hk k hne, hq]
    rcases hwoken with ⟨-, rfl⟩ | ⟨-, rfl⟩ <;> split <;> rfl

/-! ### `exit` -/

/-- The slots that `exit` by `c` makes `ZOMBIE`: its own, and those of the threads of the process `c`. -/
def EndedBy (s : Ptable) (c k : Slot) : Prop :=
  k = c ∨ ((s.proc k).ptid = (s.proc c).pid ∧ (s.proc k).state ≠ .UNUSED)

/-- The slots that `exit` by a thread `c` marks as killed: its group and its creator. -/
def KilledBy (s : Ptable) (c k : Slot) : Prop :=
  (s.proc c).tFlag = true ∧ ((s.proc c).ptid = (s.proc k).ptid ∨ (s.proc c).mainThread = some k)

instance (s : Ptable) (c k : Slot) : Decidable (s.EndedBy c k) := inferInstanceAs (Decidable (_ ∨ _))

instance (s : Ptable) (c k : Slot) : Decidable (s.KilledBy c k) := inferInstanceAs (Decidable (_ ∧ _))

/-- `exit` by `c` wakes up `k`, if it sleeps: on the parent of `c`, or on the first process if this gets a child that
has exited. -/
def WokenBy (s : Ptable) (c k : Slot) : Prop :=
  (s.proc k).chan = (s.proc c).parent.map .proc ∨
    (s.proc k).chan = some (.proc s.initproc) ∧ ∃ p, (s.proc p).parent = some c ∧ (s.proc p).state = .ZOMBIE

instance (s : Ptable) (c k : Slot) : Decidable (s.WokenBy c k) := inferInstanceAs (Decidable (_ ∨ _))

/-- What `exit` by `c` has done. -/
structure Exited (s t : Ptable) (c : Slot) : Prop where
  only : OnlyProcs s t
  /-- In a slot, only the state, the parent and `killed` can have changed. -/
  frame : ∀ k, ∃ q, q = ((s.proc k).setState (t.proc k).state).setParent (t.proc k).parent ∧
    t.proc k = if s.KilledBy c k then q.setKilled else q
  zombie : ∀ k, s.EndedBy c k → (t.proc k).state = .ZOMBIE
  /-- Others may have been woken up. -/
  state : ∀ k, ¬s.EndedBy c k → (t.proc k).state =
    if (s.proc k).state = .SLEEPING ∧ s.WokenBy c k then .RUNNABLE else (s.proc k).state
  /-- The children of the caller have been passed to the first process. -/
  parent : ∀ k, (t.proc k).parent =
    if (s.proc k).parent = some c then some s.initproc else (s.proc k).parent

theorem Exited.state_or (h : Exited s t c) (hk : ¬s.EndedBy c k) : (t.proc k).state = (s.proc k).state ∨
    ((s.proc k).state = .SLEEPING ∧ (t.proc k).state = .RUNNABLE) := by
  rw [h.state k hk]
  split
  next hs => exact .inr ⟨hs.1, rfl⟩
  · exact .inl rfl

theorem exitFinal_sat : (exitFinal c).Sat s (fun _ t ↦ Exited s t c) E := by
  rw [exitFinal, sat_get_bind]
  refine sat_passOn_bind (fun _ _ ↦ rfl) (fun _ _ ↦ rfl) (fun _ ↦ rfl) (fun _ ↦ rfl) fun s₂ honly hslot ↦ ?_
  rw [sat_updateAll_bind, sat_updateAll_bind, sat_update]
  obtain ⟨t, ht⟩ : ∃ t, t = ((s₂.mapProcs (fun _ p ↦ p.ptid = (s.proc c).pid && p.state ≠ .UNUSED)
      fun p ↦ p.setState .ZOMBIE).mapProcs (fun j p ↦ (s.proc c).tFlag &&
        ((s.proc c).ptid = p.ptid || (s.proc c).mainThread = some j)) fun p ↦ p.setKilled) := ⟨_, rfl⟩
  rw [← ht]
  -- Each slot at the end, which may have been woken up before: its state, its parent and `killed`.
  have hall : ∀ k, ∃ q : Proc, Woken (s.WokenBy c k) (s.proc k) q ∧
      (t.setProc c ((t.proc c).setState .ZOMBIE)).proc k = (if s.KilledBy c k then Proc.setKilled else id)
        ((q.setState (if s.EndedBy c k then .ZOMBIE else q.state)).setParent
          (if (s.proc k).parent = some c then some s.initproc else (s.proc k).parent)) := by
    intro k
    obtain ⟨q, hwoken, hq⟩ := hslot k
    have horphans : (slots.any fun p ↦ (s.proc p).parent = some c && (s.proc p).state = .ZOMBIE) = true ↔
        ∃ p, (s.proc p).parent = some c ∧ (s.proc p).state = .ZOMBIE := by simp [slots]
    rw [horphans] at hwoken
    have hparent : q.parent = (s.proc k).parent := by rcases hwoken with ⟨-, rfl⟩ | ⟨-, rfl⟩ <;> rfl
    have hptid : q.ptid = (s.proc k).ptid := by rcases hwoken with ⟨-, rfl⟩ | ⟨-, rfl⟩ <;> rfl
    have hunused : q.state = .UNUSED ↔ (s.proc k).state = .UNUSED := by
      rcases hwoken with ⟨-, rfl⟩ | ⟨hs, rfl⟩
      · rfl
      · rw [hs.1]
        exact ⟨nofun, nofun⟩
    have hq' : s₂.proc k =
        q.setParent (if (s.proc k).parent = some c then some s.initproc else (s.proc k).parent) := by
      rw [hq, ← hparent]
      simp only [decide_eq_true_eq]
      split <;> rfl
    have hkilled : t.proc k = (if s.KilledBy c k then Proc.setKilled else id) ((q.setState
        (if (s.proc k).ptid = (s.proc c).pid ∧ (s.proc k).state ≠ .UNUSED then .ZOMBIE else q.state)).setParent
          (if (s.proc k).parent = some c then some s.initproc else (s.proc k).parent)) := by
      rw [ht, mapProcs_proc, mapProcs_proc, hq']
      simp only [Proc.setParent_ptid, Proc.setParent_state, Bool.and_eq_true, decide_eq_true_eq, hptid, ne_eq,
        hunused, apply_ite Proc.ptid, Proc.setState_ptid, ite_self, Bool.or_eq_true]
      by_cases hkilled : s.KilledBy c k
      · rw [if_pos hkilled, KilledBy] at *
        rw [if_pos hkilled]
        split <;> rfl
      · rw [if_neg hkilled, KilledBy] at *
        rw [if_neg hkilled]
        split <;> rfl
    refine ⟨q, hwoken, ?_⟩
    rw [setProc_proc]
    rcases eq_or_ne k c with rfl | hne
    · have hself : s.EndedBy k k := .inl rfl
      rw [update_self, hkilled, if_pos hself]
      split <;> rfl
    · have hother : s.EndedBy c k ↔
          (s.proc k).ptid = (s.proc c).pid ∧ (s.proc k).state ≠ .UNUSED := or_iff_right hne
      rw [update_of_ne hne, hkilled, if_congr hother rfl rfl]
  refine ⟨⟨?_, ?_, ?_, ?_⟩, fun k ↦ ⟨_, rfl, ?_⟩, fun k hk ↦ ?_, fun k hk ↦ ?_, fun k ↦ ?_⟩
  · subst ht
    exact honly.mem
  · subst ht
    exact honly.nextpid
  · subst ht
    exact honly.nexttid
  · subst ht
    exact honly.initproc
  all_goals
    obtain ⟨q, hwoken, hq⟩ := hall k
    rw [hq]
  · rcases hwoken with ⟨-, rfl⟩ | ⟨-, rfl⟩ <;> split <;> rfl
  · split <;> rfl
  · have hstate : ∀ q' : Proc, ((if s.KilledBy c k then Proc.setKilled else id) q').state = q'.state := by
      intro q'
      split <;> rfl
    rw [hstate, Proc.setParent_state, Proc.setState_state, if_neg hk]
    rcases hwoken with ⟨hn, rfl⟩ | ⟨hs, rfl⟩
    · rw [if_neg hn]
    · rw [if_pos hs]
      rfl
  · split <;> rfl

theorem exit_sat :
    (exit c).Sat s (fun _ t ↦ c ≠ s.initproc ∧ Exited s t c) fun e ↦ e = .panic .initExiting := by
  rw [exit, sat_get_bind]
  split
  · rfl
  next h => exact exitFinal_sat.mono (fun _ _ h' ↦ ⟨h, h'⟩) fun _ h' ↦ h'

end Ptable

end Xv6
