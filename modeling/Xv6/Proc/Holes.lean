import Xv6.Proc.Dirs
import Xv6.Syscall.Args

/-!
# Holes below the size of a process

The kernel takes every page below `sz` to be there: `copyuvm` copies them all, and the functions that fetch
arguments compare addresses with `sz` only. `exec`, `sbrk`, `fork` and `thread_create` fill what they add.
`thread_join` frees the stack of a thread wherever it lies, and lowers `sz` only when it was the topmost
one; after that there is a hole, and the next `fork` panics (`join_leaves_hole`). The size also stays too
large when `sbrk` takes memory away from a process with threads, whose sizes it does not lower, or takes
all of it away, which `growproc` takes for a failure.

If the stack that is joined is always the topmost one of the group, `sbrk` is used without threads and leaves
something, page directories are freed by the last of their group, and there are enough pages to boot, then
there are no holes (`no_holes`).
-/

namespace Xv6

open Prog Vm Ptable
open Function (update_of_ne update_self)

namespace Ptable

/-- The slot is `SLEEPING`, `RUNNABLE` or `RUNNING`. -/
structure Runs (s : Ptable) (k : Slot) : Prop where
  used : (s.proc k).state ≠ .UNUSED
  started : (s.proc k).state ≠ .EMBRYO
  alive : (s.proc k).state ≠ .ZOMBIE

instance (s : Ptable) (k : Slot) : Decidable (s.Runs k) :=
  decidable_of_iff ((s.proc k).state ≠ .UNUSED ∧ (s.proc k).state ≠ .EMBRYO ∧
    (s.proc k).state ≠ .ZOMBIE) ⟨fun h ↦ ⟨h.1, h.2.1, h.2.2⟩, fun h ↦ ⟨h.used, h.started, h.alive⟩⟩

instance (s : Ptable) (c p : Slot) (thread : ℤ) : Decidable (s.IsJoined c p thread) :=
  decidable_of_iff ((s.proc p).mainThread = some c ∧ (s.proc p).tid = thread ∧
      (s.proc p).state = .ZOMBIE)
    ⟨fun h ↦ ⟨h.1, h.2.1, h.2.2⟩, fun h ↦ ⟨h.mainThread, h.tid, h.zombie⟩⟩

/-- `sbrk` is called when nobody else of the group runs, and leaves something; `thread_join` reaps a slot
with the directory of the caller, and with the topmost stack. -/
def KeepsPages (s : Ptable) : Slot × Call → Prop
  | (c, .sbrk n) => n = 0 ∨ ((∀ k, k ≠ c → s.Runs k → (s.proc k).ptid ≠ (s.proc c).ptid) ∧
      ((s.proc c).sz : ℤ) + n.toInt ≠ 0)
  | (c, .threadJoin thread) => ∀ p, s.IsJoined c p thread →
      (s.proc p).pgdir = (s.proc c).pgdir ∧ s.AtEdge c p
  | _ => True

instance (s : Ptable) : ∀ l, Decidable (s.KeepsPages l)
  | (_, .sbrk _) => inferInstanceAs (Decidable (_ ∨ _))
  | (_, .threadJoin _) => inferInstanceAs (Decidable (∀ _, _))
  | (_, .fork) | (_, .exit) | (_, .wait) | (_, .kill _) | (_, .exec _) | (_, .threadCreate)
  | (_, .threadExit _) => .isTrue trivial

/-- The call takes no page away that somebody counts on. -/
def Careful (s : Ptable) (l : Slot × Call) : Prop := s.FreesLast l ∧ s.KeepsPages l

instance (s : Ptable) (l : Slot × Call) : Decidable (s.Careful l) :=
  inferInstanceAs (Decidable (_ ∧ _))

/-- A byte that belongs to an argument which has been accepted. -/
inductive Accepted (u : Caller) (x : Word) : Prop where
  /-- By `fetchint`. -/
  | int {addr w : Word} (h : u.fetchint addr = some w) (hx : Caller.Range addr 4 x)
  /-- By `fetchstr`, with the nul. -/
  | str {addr : Word} {n : ℕ} (h : u.fetchstr addr = some n) (hx : Caller.Range addr (n + 1) x)
  /-- By `argptr`. -/
  | ptr {n : ℕ} {size p : Word} (h : u.argptr n size = some p)
      (hx : x = p ∨ Caller.Range p size.toNat x)

theorem Accepted.lt {u : Caller} {x : Word} (hsz : u.sz.toNat < KERNBASE) (h : Accepted u x) :
    x < u.sz := by
  cases h with
  | int h hx => exact (Caller.inside_of_fetchint hsz h).lt hx
  | str h hx => exact (Caller.inside_of_fetchstr h).lt hx
  | ptr h hx =>
    obtain ⟨-, -, hinside⟩ := (Caller.argptr_eq_some hsz).1 h
    rcases hx with rfl | hx
    · exact BitVec.lt_def.2 hinside.1
    · exact hinside.lt hx

/-- No process or thread has a hole below its size. -/
structure NoHoles (s : Ptable) : Prop where
  /-- Every page of `[0, PGROUNDUP(sz))` is present in the page directory. -/
  pages : ∀ k, s.Runs k → ∃ d, (s.proc k).pgdir = some d ∧
    ∀ va, PGSIZE ∣ va → va < PGROUNDUP (s.proc k).sz → s.mem.Present d va
  /-- `fork` does not panic in `copyuvm`. -/
  fork : ∀ c, s.step (c, .fork) ≠ some (.error (.panic .copyuvmPteShouldExist)) ∧
    s.step (c, .fork) ≠ some (.error (.panic .copyuvmPageNotPresent))
  /-- No unmapped address is accepted as an argument. -/
  fetch : ∀ k d u x, s.Runs k → (s.proc k).pgdir = some d → u.sz.toNat = (s.proc k).sz →
    Accepted u x → s.mem.Present d (PGROUNDDOWN x.toNat)

end Ptable

namespace Ptable

section Calls

variable {s : Ptable} {c : Slot}

/-- The child of `fork` has all pages below the size, and `copyuvm` panics only at a page that the parent does
not have. -/
theorem fork_pages {d : ℕ} (hwf : s.mem.Wf) (hc : (s.proc c).state ≠ .UNUSED)
    (hd : (s.proc c).pgdir = some d) (hdir : (s.mem.dir d).isSome) (hsz : (s.proc c).sz ≤ KERNBASE) :
    (fork c).Sat s (fun _ t ↦ ∀ np d', (s.proc np).state = .UNUSED →
        (t.proc np).state = .RUNNABLE → (t.proc np).pgdir = some d' → Filled t.mem d' (s.proc c).sz)
      fun e ↦ e = .panic .copyuvmPteShouldExist ∨ e = .panic .copyuvmPageNotPresent →
        ¬Filled s.mem d (s.proc c).sz := by
  refine sat_fork hc (by simp) (fun h ↦ ?_) (fun t _ hf np d' hnp hrun ↦ absurd hrun (hf.not_runnable hnp))
    fun np d₀ m₁ hnp hd₀ hpage ↦ ?_
  · rw [hd] at h
    cases h
  · obtain rfl := Option.mem_unique hd hd₀
    refine (copyuvm_sat (hpage.wf hwf) (hpage.dir ▸ hdir) hsz).mono ?_ ?_
    · intro r m ⟨_, hcopy⟩
      refine ⟨fun _ t _ _ hf np d' hnp hrun ↦ absurd hrun (hf.not_runnable hnp), ?_⟩
      intro d₁ hr t ht hpgdir hf np' d' hunused hrun hd'
      subst ht
      rcases eq_or_ne np' np with rfl | hne
      · obtain rfl := Option.mem_unique hpgdir hd'
        exact fun va hva hlt ↦ (hcopy d₁ hr va hva).1.2 hlt
      · rw [hf.other np' hne, hunused] at hrun
        cases hrun
    · intro e he hpanic hfilled
      rcases he with rfl | ⟨-, va, hva, hlt, hnone⟩
      · exact hpanic.elim (by simp) (by simp)
      · have hpresent := hfilled va hva hlt
        rw [Mem.Present, Mem.pte, ← hpage.dir] at hpresent
        rw [Mem.pte] at hnone
        rw [hnone] at hpresent
        cases hpresent

/-- A process that has called `exec` has all pages below its size. -/
theorem exec_pages {prog : Program} (hwf : s.mem.Wf)
    (hc : ∀ d, (s.proc c).pgdir = some d → d < s.mem.ndirs) :
    (exec c prog).Sat s (fun r t ↦ r = 0 → (t.proc c).sz < KERNBASE ∧
      ∀ d, (t.proc c).pgdir = some d → Filled t.mem d (t.proc c).sz) fun _ ↦ True := by
  refine sat_exec (fun _ _ ↦ by simp) fun d sz m d₀ hrun hpgdir ↦ freevm_frame.imp fun _ m' hm' t ht _ hproc _ ↦ ?_
  obtain ⟨hmade, hfilled⟩ := (loadProgram_sat hwf).of_ok hrun
  have hd : d = s.mem.ndirs := (hmade.eq d rfl).1
  obtain ⟨hlt, hfilled⟩ := hfilled d sz rfl
  have hne : d ≠ d₀ := fun heq ↦ (hc d₀ hpgdir).ne (heq.symm.trans hd)
  rw [hproc, update_self, ht]
  refine ⟨hlt, fun d' hd' va hva hva' ↦ ?_⟩
  obtain rfl := Option.some.inj hd'
  show (m'.pte d va).isSome
  rw [Mem.pte, hm'.2, update_of_ne hne]
  exact hfilled va hva hva'

end Calls

end Ptable

/-- The addresses that `start` and `end` of a slot name: none, or those of a stack of at least two pages. -/
def StackOk (q : Proc) : Prop :=
  (q.start = 0 ∧ q.stop = 0) ∨ (q.stop + 2 * PGSIZE ≤ q.start ∧ q.start ≤ KERNBASE)

/-- What holds of the sizes and pages throughout a careful run. -/
structure PagesInv (s : Ptable) : Prop where
  ptid : ∀ k, s.Runs k → (s.proc k).ptid < s.nextpid
  /-- A group has one page directory and one size. -/
  group : ∀ k k', s.Runs k → s.Runs k' → (s.proc k).ptid = (s.proc k').ptid →
    (s.proc k).pgdir = (s.proc k').pgdir ∧ (s.proc k).sz = (s.proc k').sz
  stack : ∀ k, StackOk (s.proc k)
  /-- The pages below the size are there. -/
  filled : ∀ k d, s.Runs k → (s.proc k).pgdir = some d →
    (s.proc k).sz < KERNBASE ∧ Filled s.mem d (s.proc k).sz

/-- A slot has the same group, page directory and size. -/
structure SamePlace (q q' : Proc) : Prop where
  ptid : q'.ptid = q.ptid
  pgdir : q'.pgdir = q.pgdir
  sz : q'.sz = q.sz

namespace PagesInv

section Steps

variable {s t : Ptable} {c : Slot}

/-- One group has a new size or a new directory, and nothing has been taken away from the others. -/
theorem regroup (h : PagesInv s) (g : ℤ) (d Z : ℕ) (hpid : s.nextpid ≤ t.nextpid)
    (hstack : ∀ k, StackOk (t.proc k))
    (hruns : ∀ k, t.Runs k → ((t.proc k).ptid = g ∧ (t.proc k).pgdir = some d ∧ (t.proc k).sz = Z ∧
        g < t.nextpid ∧ Z < KERNBASE ∧ Filled t.mem d Z) ∨
      ((t.proc k).ptid ≠ g ∧ s.Runs k ∧ SamePlace (s.proc k) (t.proc k) ∧
        ∀ d', (s.proc k).pgdir = some d' → Filled s.mem d' (s.proc k).sz →
          Filled t.mem d' (s.proc k).sz)) : PagesInv t := by
  refine ⟨fun k hk ↦ ?_, fun k k' hk hk' heq ↦ ?_, hstack, fun k d' hk hd' ↦ ?_⟩
  · rcases hruns k hk with ⟨hg, -, -, hlt, -⟩ | ⟨-, hs, hsame, -⟩
    · rw [hg]
      exact hlt
    · rw [hsame.ptid]
      exact (h.ptid k hs).trans_le hpid
  · rcases hruns k hk with ⟨hg, hd, hZ, -⟩ | ⟨hg, hs, hsame, -⟩
    · rcases hruns k' hk' with ⟨-, hd', hZ', -⟩ | ⟨hg', -⟩
      · exact ⟨hd.trans hd'.symm, hZ.trans hZ'.symm⟩
      · exact absurd (heq.symm.trans hg) hg'
    · rcases hruns k' hk' with ⟨hg', -⟩ | ⟨-, hs', hsame', -⟩
      · exact absurd (heq.trans hg') hg
      · rw [hsame.pgdir, hsame'.pgdir, hsame.sz, hsame'.sz]
        refine h.group k k' hs hs' ?_
        rw [← hsame.ptid, ← hsame'.ptid, heq]
  · rcases hruns k hk with ⟨-, hd, hZ, -, hlt, hfilled⟩ | ⟨-, hs, hsame, hfilled⟩
    · obtain rfl := Option.mem_unique hd hd'
      rw [hZ]
      exact ⟨hlt, hfilled⟩
    · rw [hsame.pgdir] at hd'
      rw [hsame.sz]
      exact ⟨(h.filled k d' hs hd').1, hfilled d' hd' (h.filled k d' hs hd').2⟩

/-- Nothing has been taken away from anybody. -/
theorem frame (h : PagesInv s) (hpid : s.nextpid ≤ t.nextpid) (hstack : ∀ k, StackOk (t.proc k))
    (hruns : ∀ k, t.Runs k → s.Runs k ∧ SamePlace (s.proc k) (t.proc k) ∧
      ∀ d', (s.proc k).pgdir = some d' → Filled s.mem d' (s.proc k).sz →
        Filled t.mem d' (s.proc k).sz) : PagesInv t := by
  -- No slot is in the group that the next process will have.
  refine h.regroup s.nextpid 0 0 hpid hstack fun k hk ↦ ?_
  obtain ⟨hs, hsame, hfilled⟩ := hruns k hk
  refine .inr ⟨?_, hs, hsame, hfilled⟩
  rw [hsame.ptid]
  exact (h.ptid k hs).ne

variable {a : Call} {k p : Slot} {d sz : ℕ}

/-! ### Each call -/

theorem runs_of_mayCall (h : s.MayCall c) : s.Runs c :=
  ⟨h.uses.used, h.uses.started, h.alive.2⟩

theorem uses_of_runs (h : s.Runs k) : s.Uses k :=
  ⟨h.used, h.started, fun hz ↦ absurd hz h.alive⟩

theorem runs_of_state (h : (t.proc k).state = (s.proc k).state) (hk : t.Runs k) : s.Runs k :=
  ⟨h ▸ hk.used, h ▸ hk.started, h ▸ hk.alive⟩

theorem filled_of_pages {m m' : Mem} {d' : ℕ} {S : ℕ → Prop} (h : Pages m m' d S)
    (hS : ∀ va, va < sz → d' = d → ¬S va) (hfilled : Filled m d' sz) : Filled m' d' sz := by
  intro va hva hlt
  refine (h.present d' va hva ?_).2 (hfilled va hva hlt)
  rcases eq_or_ne d' d with heq | hne
  · exact .inr (hS va hlt heq)
  · exact .inl hne

theorem filled_of_dir {m m' : Mem} (h : m'.dir d = m.dir d) (hfilled : Filled m d sz) : Filled m' d sz := by
  intro va hva hlt
  rw [Mem.Present, Mem.pte, h]
  exact hfilled va hva hlt

/-- Who runs on the same directory is of the same group, and has the same size. -/
theorem sz_of_pgdir (h : PagesInv s) (hi : DirsInv s) (hk : s.Runs k) (hc : s.Runs c)
    (heq : (s.proc k).pgdir = (s.proc c).pgdir) : (s.proc k).sz = (s.proc c).sz :=
  (h.group k c hk hc (hi.share k c (uses_of_runs hk) (uses_of_runs hc) heq)).2

theorem sbrk {n : BitVec 32} {x : ℤ} (h : PagesInv s) (hi : DirsInv s) (hc : s.Runs c)
    (hcare : s.KeepsPages (c, .sbrk n)) (hd : (s.proc c).pgdir = some d)
    (hg : Ptable.GrowResult s c d n.toInt x t) : PagesInv t := by
  -- With a new size, the caller is alone in its group.
  have hresized : ∀ (m : Mem) (sz : ℕ) (S : ℕ → Prop),
      (∀ k, k ≠ c → s.Runs k → (s.proc k).ptid ≠ (s.proc c).ptid) → sz < KERNBASE →
      Pages s.mem m d S → Filled m d sz →
      PagesInv ((s.setMem m).setProc c ((s.proc c).setSz sz)) := by
    intro m sz S halone hlt hpages hfilled
    refine h.regroup (s.proc c).ptid d sz le_rfl (fun k ↦ ?_) fun k hk ↦ ?_
    · rw [setProc_proc]
      rcases eq_or_ne k c with rfl | hkc
      · rw [update_self]
        exact h.stack k
      · rw [update_of_ne hkc]
        exact h.stack k
    · rcases eq_or_ne k c with rfl | hkc
      · rw [setProc_proc, update_self]
        exact .inl ⟨rfl, hd, rfl, h.ptid k hc, hlt, hfilled⟩
      · have hk' : ((s.setMem m).setProc c ((s.proc c).setSz sz)).proc k = s.proc k :=
          update_of_ne hkc ..
        have hs : s.Runs k := runs_of_state (congrArg Proc.state hk') hk
        rw [hk']
        refine .inr ⟨halone k hkc hs, hs, ⟨rfl, rfl, rfl⟩, fun d' hd' ↦ filled_of_pages hpages ?_⟩
        intro va _ heq
        exact absurd (hi.share k c (uses_of_runs hs) (uses_of_runs hc)
          (hd'.trans (heq ▸ hd.symm))) (halone k hkc hs)
  cases hg with
  | @grown m sz hn hsz hlt pages present =>
    have halone := (hcare.resolve_left (by rintro rfl; exact absurd hn (by decide))).1
    refine hresized m sz _ halone hlt pages fun va hva hva' ↦ ?_
    rcases Nat.lt_or_ge va (s.proc c).sz with hold | hnew
    · exact (pages.present d va hva (.inr fun hS ↦ absurd hS.1 (Nat.not_le.2 hold))).2
        ((h.filled c d hc hd).2 va hva hold)
    · exact present va hva hnew hva'
  | @failed m hn pages present =>
    refine h.frame le_rfl h.stack fun k hk ↦ ?_
    have hs : s.Runs k := runs_of_state (t := s.setMem m) rfl hk
    refine ⟨hs, ⟨rfl, rfl, rfl⟩, fun d' hd' ↦ filled_of_pages pages ?_⟩
    intro va hva heq
    rw [h.sz_of_pgdir hi hs hc (hd'.trans (heq ▸ hd.symm))] at hva
    exact Nat.not_le.2 hva
  | @shrunk m sz hn hsz hpos pages absent =>
    have halone := (hcare.resolve_left (by rintro rfl; exact absurd hn (by decide))).1
    obtain ⟨hlt, hfilled⟩ := h.filled c d hc hd
    have hle : sz ≤ (s.proc c).sz := by omega
    refine hresized m sz _ halone (hle.trans_lt hlt) pages ?_
    refine filled_of_pages pages (fun va hva _ hS ↦ absurd hS.1 (Nat.not_le.2 hva)) ?_
    exact fun va hva hva' ↦ hfilled va hva (hva'.trans_le hle)
  | emptied hn hsz pages absent =>
    rcases hcare with rfl | ⟨-, hne⟩
    · exact absurd hn (by decide)
    · exact absurd hsz hne
  | same hn => exact h

theorem threadCreate {x : Option ℤ} (h : PagesInv s) (hi : DirsInv s) (hc : s.Runs c)
    (hd : (s.proc c).pgdir = some d) (hcreate : Ptable.CreateResult s c d x t) : PagesInv t := by
  cases hcreate with
  | @created _ np hnp =>
    refine h.regroup (s.proc c).ptid d ((s.proc c).sz + 2 * PGSIZE) (by rw [hnp.nextpid]; omega)
      (fun k ↦ ?_) fun k hk ↦ ?_
    · rcases eq_or_ne k np with rfl | hk
      · refine .inr ⟨?_, ?_⟩
        · rw [hnp.start, hnp.stop]
        · rw [hnp.start]
          exact hnp.lt.le
      · rw [hnp.other k hk]
        split
        · exact h.stack k
        · exact h.stack k
    · have hlt : (s.proc c).ptid < t.nextpid := by
        rw [hnp.nextpid]
        exact (h.ptid c hc).trans (lt_add_one _)
      have hfilled : Filled t.mem d ((s.proc c).sz + 2 * PGSIZE) := by
        intro va hva hva'
        rcases Nat.lt_or_ge va (s.proc c).sz with hold | hnew
        · exact (hnp.pages.present d va hva (.inr fun hS ↦ absurd hS.1 (Nat.not_le.2 hold))).2
            ((h.filled c d hc hd).2 va hva hold)
        · exact hnp.present va hva hnew hva'
      rcases eq_or_ne k np with rfl | hkn
      · exact .inl ⟨hnp.ptid, hnp.pgdir, hnp.sz, hlt, hnp.lt, hfilled⟩
      · have hk' := hnp.other k hkn
        split at hk'
        next hptid =>
          have hs : s.Runs k := runs_of_state (by rw [hk']; rfl) hk
          rw [hk']
          exact .inl ⟨hptid, (h.group k c hs hc hptid).1.trans hd, rfl, hlt, hnp.lt, hfilled⟩
        next hptid =>
          have hs : s.Runs k := runs_of_state (congrArg Proc.state hk') hk
          rw [hk']
          refine .inr ⟨hptid, hs, ⟨rfl, rfl, rfl⟩, fun d' hd' ↦ filled_of_pages hnp.pages ?_⟩
          intro va _ heq
          exact absurd (hi.share k c (uses_of_runs hs) (uses_of_runs hc)
            (hd'.trans (heq ▸ hd.symm))) hptid
  | failed hf pages present =>
    have hsame : ∀ k, t.Runs k → t.proc k = s.proc k := by
      intro k hk
      refine (hf.proc k).resolve_right fun hwasted ↦ ?_
      rcases hwasted.1 with hs | hs
      · exact hk.used hs
      · exact hk.started hs
    refine h.frame hf.nextpid (fun k ↦ ?_) fun k hk ↦ ?_
    · rcases hf with ⟨-, rfl⟩ | ⟨np, hw⟩
      · exact h.stack k
      · rcases eq_or_ne k np with rfl | hk
        · have hslot := hw.self
          generalize t.proc k = q at hslot
          cases hslot <;> exact h.stack k
        · rw [hw.other k hk]
          exact h.stack k
    · have hk' := hsame k hk
      have hs : s.Runs k := runs_of_state (congrArg Proc.state hk') hk
      rw [hk']
      refine ⟨hs, ⟨rfl, rfl, rfl⟩, fun d' hd' ↦ filled_of_pages pages ?_⟩
      intro va hva heq
      rw [h.sz_of_pgdir hi hs hc (hd'.trans (heq ▸ hd.symm))] at hva
      exact Nat.not_le.2 hva

theorem stackOk_merged {q q' : Proc} (hq : StackOk q) (hq' : StackOk q') (h : q.stop = q'.start) :
    StackOk (q.setStop q'.stop) := by
  have hpos : 0 < 2 * PGSIZE := by decide
  rcases hq with ⟨hstart, hstop⟩ | ⟨hle, hK⟩
  · refine .inl ⟨hstart, ?_⟩
    rcases hq' with ⟨-, hstop'⟩ | ⟨hle', -⟩
    · exact hstop'
    · omega
  · refine .inr ⟨?_, hK⟩
    show q'.stop + 2 * PGSIZE ≤ q.start
    rcases hq' with ⟨hstart', hstop'⟩ | ⟨hle', -⟩
    · rw [hstop', ← hstart', ← h]
      exact hle
    · omega

section

variable (h : PagesInv s)

include h

theorem threadJoin {thread : ℤ} (hi : DirsInv s) (hc : s.Runs c)
    (hcare : s.KeepsPages (c, .threadJoin thread)) (hp : s.IsJoined c p thread) (hj : Ptable.Joined s t c p) :
    PagesInv t := by
  obtain ⟨hpgdir, hedge⟩ := hcare p hp
  obtain ⟨d, hd, hdir⟩ := hi.dir c (uses_of_runs hc)
  have hcp : c ≠ p := by
    rintro rfl
    exact hc.alive hp.zombie
  have hstart : (s.proc p).start = (s.proc c).sz := by rw [hedge, if_neg hcp]
  obtain ⟨hlt, hfilled⟩ := h.filled c d hc hd
  have honly : OnlyDir d s.mem t.mem := by
    obtain ⟨d', m, r, hd', hn, hm, hrun⟩ := hj.mem
    obtain rfl := Option.mem_unique hd (hpgdir.symm.trans hd')
    exact (Changed.of_dir hn hm).trans ((keeps_deallocuvm _ _ m).of_ok hrun)
  -- The pages that are freed lie above the new size.
  have hstop : (s.proc p).stop ≤ (s.proc p).start ∧ Filled t.mem d (s.proc p).stop := by
    rcases h.stack p with ⟨hzero, hzero'⟩ | ⟨hle, hK⟩
    · rw [hzero, hzero']
      exact ⟨le_rfl, fun _ _ hva ↦ absurd hva (Nat.not_lt_zero _)⟩
    · have hpages := (hj.pages (hpgdir.trans hd) hdir (by omega) hK).1
      refine ⟨by omega, filled_of_pages hpages ?_ fun va hva hva' ↦ hfilled va hva (by omega)⟩
      intro va hva _ hS
      omega
  refine h.regroup (s.proc c).ptid d (s.proc p).stop hj.nextpid.ge (fun k ↦ ?_) fun k hk ↦ ?_
  · rcases eq_or_ne k p with rfl | hkp
    · rw [hj.self]
      exact .inl ⟨rfl, rfl⟩
    · rw [hj.other k hkp, stopAfterJoin]
      split
      next hmerged =>
        have hstack := stackOk_merged (h.stack k) (h.stack p) (stop_of_merged hmerged)
        exact hstack
      · exact h.stack k
  · have hkp : k ≠ p := by
      rintro rfl
      refine hk.used ?_
      rw [hj.self]
      rfl
    have hk' := hj.other k hkp
    have hs : s.Runs k := runs_of_state (by rw [hk']; rfl) hk
    by_cases hptid : (s.proc k).ptid = (s.proc c).ptid
    · left
      rw [hk', szAfterJoin, if_pos ⟨hedge, hs.used, hptid⟩]
      refine ⟨hptid, (h.group k c hs hc hptid).1.trans hd, rfl, ?_, ?_, hstop.2⟩
      · rw [hj.nextpid]
        exact h.ptid c hc
      · exact hstop.1.trans_lt (hstart ▸ hlt)
    · right
      rw [hk', szAfterJoin, if_neg fun hm ↦ hptid hm.2.2]
      refine ⟨hptid, hs, ⟨rfl, rfl, rfl⟩, fun d' hd' ↦ filled_of_dir (honly.other d' ?_)⟩
      rintro rfl
      exact hptid (hi.share k c (uses_of_runs hs) (uses_of_runs hc) (hd'.trans hd.symm))

theorem fork {np : Slot} (hf : Ptable.Forked s t c np)
    (hframe : ∀ k d, s.Runs k → (s.proc k).pgdir = some d → t.mem.dir d = s.mem.dir d)
    (hnew : ∀ d, (t.proc np).pgdir = some d → Filled t.mem d (s.proc c).sz)
    (hlt : (s.proc c).sz < KERNBASE) : PagesInv t := by
  obtain ⟨v, d, hself⟩ := hf.self
  refine h.regroup s.nextpid d (s.proc c).sz (by rw [hf.nextpid]; omega) (fun k ↦ ?_) fun k hk ↦ ?_
  · rcases eq_or_ne k np with rfl | hk
    · rw [hself]
      exact h.stack k
    · rw [hf.other k hk]
      exact h.stack k
  · rcases eq_or_ne k np with rfl | hkn
    · have hpgdir : (t.proc k).pgdir = some d := by
        rw [hself]
        rfl
      refine .inl ⟨by rw [hself]; rfl, hpgdir, by rw [hself]; rfl, ?_, hlt, hnew d hpgdir⟩
      rw [hf.nextpid]
      exact lt_add_one _
    · have hk' := hf.other k hkn
      have hs : s.Runs k := runs_of_state (congrArg Proc.state hk') hk
      rw [hk']
      exact .inr ⟨(h.ptid k hs).ne, hs, ⟨rfl, rfl, rfl⟩, fun d' hd' ↦ filled_of_dir (hframe k d' hs hd')⟩

theorem exec (hc : s.Runs c)
    (hproc : t.proc = Function.update s.proc c (((s.proc c).setPgdir (some d)).setSz sz))
    (hpid : t.nextpid = s.nextpid) (hlast : s.LastOfGroup c)
    (hframe : ∀ k d, k ≠ c → s.Runs k → (s.proc k).pgdir = some d → t.mem.dir d = s.mem.dir d)
    (hlt : sz < KERNBASE) (hfilled : Filled t.mem d sz) : PagesInv t := by
  have hself : t.proc c = ((s.proc c).setPgdir (some d)).setSz sz := by
    rw [hproc, update_self]
  have hother : ∀ k, k ≠ c → t.proc k = s.proc k := by
    intro k hk
    rw [hproc, update_of_ne hk]
  refine h.regroup (s.proc c).ptid d sz hpid.ge (fun k ↦ ?_) fun k hk ↦ ?_
  · rcases eq_or_ne k c with rfl | hk
    · rw [hself]
      exact h.stack k
    · rw [hother k hk]
      exact h.stack k
  · rcases eq_or_ne k c with rfl | hkc
    · rw [hself]
      exact .inl ⟨rfl, rfl, rfl, hpid ▸ h.ptid k hc, hlt, hfilled⟩
    · have hk' := hother k hkc
      have hs : s.Runs k := runs_of_state (congrArg Proc.state hk') hk
      rw [hk']
      refine .inr ⟨fun hptid ↦ ?_, hs, ⟨rfl, rfl, rfl⟩, fun d' hd' ↦
        filled_of_dir (hframe k d' hkc hs hd')⟩
      rcases (hlast k hkc).1 hptid with hunused | ⟨hzombie, -⟩
      · exact hs.used hunused
      · exact hs.alive hzombie

/-- The call has left memory, groups, sizes and stacks as they were. -/
theorem quiet (hpid : t.nextpid = s.nextpid) (hmem : t.mem = s.mem)
    (hstack : ∀ k, (t.proc k).start = (s.proc k).start ∧ (t.proc k).stop = (s.proc k).stop)
    (hplace : ∀ k, SamePlace (s.proc k) (t.proc k)) (hruns : ∀ k, t.Runs k → s.Runs k) :
    PagesInv t := by
  refine h.frame hpid.ge (fun k ↦ ?_) fun k hk ↦ ⟨hruns k hk, hplace k, fun d' _ hfilled ↦ ?_⟩
  · rw [StackOk, (hstack k).1, (hstack k).2]
    exact h.stack k
  · rw [hmem]
    exact hfilled

theorem exited (he : Ptable.Exited s t c) : PagesInv t := by
  have hframe : ∀ k, (t.proc k).start = (s.proc k).start ∧ (t.proc k).stop = (s.proc k).stop ∧
      SamePlace (s.proc k) (t.proc k) := by
    intro k
    obtain ⟨q, hq, hk⟩ := he.frame k
    rw [hk]
    split
    · rw [hq]
      exact ⟨rfl, rfl, rfl, rfl, rfl⟩
    · rw [hq]
      exact ⟨rfl, rfl, rfl, rfl, rfl⟩
  refine h.quiet he.only.nextpid he.only.mem (fun k ↦ ⟨(hframe k).1, (hframe k).2.1⟩)
    (fun k ↦ (hframe k).2.2) fun k hk ↦ ?_
  have hended : ¬s.EndedBy c k := fun hended ↦ hk.alive (he.zombie k hended)
  rcases he.state_or hended with heq | ⟨hs, -⟩
  · exact runs_of_state heq hk
  · exact ⟨by rw [hs]; nofun, by rw [hs]; nofun, by rw [hs]; nofun⟩

theorem threadExited {v : ℕ} (he : Ptable.ThreadExited s t c v) : PagesInv t := by
  refine h.quiet he.only.nextpid he.only.mem (fun k ↦ ?_) (fun k ↦ ?_) fun k hk ↦ ?_
  · rw [he.frame k]
    exact ⟨rfl, rfl⟩
  · rw [he.frame k]
    exact ⟨rfl, rfl, rfl⟩
  · have hkc : k ≠ c := by
      rintro rfl
      exact hk.alive he.zombie
    rcases he.state k hkc with heq | ⟨hs, -⟩
    · exact runs_of_state heq hk
    · exact ⟨by rw [hs]; nofun, by rw [hs]; nofun, by rw [hs]; nofun⟩

theorem killed : PagesInv (s.setProc p ((s.proc p).setKilled.setState
    (if (s.proc p).state = .SLEEPING then .RUNNABLE else (s.proc p).state))) := by
  refine h.quiet rfl rfl (fun k ↦ ?_) (fun k ↦ ?_) fun k hk ↦ ?_
  · rw [setProc_proc]
    rcases eq_or_ne k p with rfl | hkp
    · rw [update_self]
      exact ⟨rfl, rfl⟩
    · rw [update_of_ne hkp]
      exact ⟨rfl, rfl⟩
  · rw [setProc_proc]
    rcases eq_or_ne k p with rfl | hkp
    · rw [update_self]
      exact ⟨rfl, rfl, rfl⟩
    · rw [update_of_ne hkp]
      exact ⟨rfl, rfl, rfl⟩
  · rcases eq_or_ne k p with rfl | hkp
    · by_cases hs : (s.proc k).state = .SLEEPING
      · exact ⟨by rw [hs]; nofun, by rw [hs]; nofun, by rw [hs]; nofun⟩
      · refine runs_of_state ?_ hk
        rw [setProc_proc, update_self, if_neg hs]
        rfl
    · refine runs_of_state ?_ hk
      rw [setProc_proc, update_of_ne hkp]

/-- `wait` frees slots, and no page of a slot that it leaves. -/
theorem reaped (hr : Ptable.Reaped s t p)
    (hframe : ∀ k d, t.Runs k → s.Runs k → (s.proc k).pgdir = some d →
      t.mem.dir d = s.mem.dir d) : PagesInv t := by
  have hsame : ∀ k, t.Runs k → t.proc k = s.proc k := by
    intro k hk
    rcases eq_or_ne k p with rfl | hkp
    · refine absurd ?_ hk.used
      rw [hr.self]
      rfl
    · rw [hr.other k hkp, afterThreads]
      split
      next hmain =>
        refine absurd ?_ hk.used
        rw [hr.other k hkp, afterThreads, if_pos hmain]
        rfl
      · rfl
  have hafter : ∀ k, StackOk (s.afterThreads p k) := by
    intro k
    rw [afterThreads]
    split
    · exact h.stack k
    · exact h.stack k
  refine h.frame hr.ids.nextpid.ge (fun k ↦ ?_) fun k hk ↦ ?_
  · rcases eq_or_ne k p with rfl | hkp
    · rw [hr.self]
      exact hafter k
    · rw [hr.other k hkp]
      exact hafter k
  · have hs : s.Runs k := runs_of_state (congrArg Proc.state (hsame k hk)) hk
    rw [hsame k hk]
    exact ⟨hs, ⟨rfl, rfl, rfl⟩, fun d' hd' ↦ filled_of_dir (hframe k d' hk hs hd')⟩

theorem wasted {np : Slot} (hw : Ptable.Wasted s t np)
    (hframe : ∀ k d, s.Runs k → (s.proc k).pgdir = some d → t.mem.dir d = s.mem.dir d) :
    PagesInv t := by
  have hslot := hw.self
  refine h.frame (by rw [hw.nextpid]; omega) (fun k ↦ ?_) fun k hk ↦ ?_
  · rcases eq_or_ne k np with rfl | hkn
    · generalize t.proc k = q at hslot
      cases hslot <;> exact h.stack k
    · rw [hw.other k hkn]
      exact h.stack k
  · have hkn : k ≠ np := by
      rintro rfl
      generalize hq : t.proc k = q at hslot
      cases hslot with
      | noStack | notCopied v => exact hk.used (by rw [hq]; rfl)
      | lost v => exact hk.started (by rw [hq]; rfl)
    have hk' := hw.other k hkn
    have hs : s.Runs k := runs_of_state (congrArg Proc.state hk') hk
    rw [hk']
    exact ⟨hs, ⟨rfl, rfl, rfl⟩, fun d' hd' ↦ filled_of_dir (hframe k d' hs hd')⟩

/-- A careful call keeps the invariant. -/
theorem call {r : Ret} (hi : DirsInv s) (hmay : s.MayCall c) (hcare : s.Careful (c, a))
    (hrun : (call c a).run s = .ok (some r, t)) : PagesInv t := by
  have he := (call_effect hmay.used).of_ok hrun r rfl
  have hdirs := (call_dirs hi.wf hmay.used fun _ ↦ hi.lt_ndirs hmay).of_ok hrun r rfl
  have hc := runs_of_mayCall hmay
  obtain ⟨d, hd, hdir⟩ := hi.dir c hmay.uses
  obtain ⟨hlt, hfilled⟩ := h.filled c d hc hd
  have hndirs : ∀ k d', s.Runs k → (s.proc k).pgdir = some d' → d' < s.mem.ndirs := by
    intro k d' hk hd'
    obtain ⟨d'', hd'', hsome⟩ := hi.dir k (uses_of_runs hk)
    obtain rfl := Option.mem_unique hd' hd''
    exact hi.wf d' hsome
  cases a with
  | fork =>
    have hframe : ∀ k d', s.Runs k → (s.proc k).pgdir = some d' → t.mem.dir d' = s.mem.dir d' :=
      fun k d' hk hd' ↦ hdirs.frame (.inl rfl) d' (hndirs k d' hk hd') fun h ↦ by cases h
    have hpages : (call c .fork).Sat s (fun _ t ↦ ∀ np d', (s.proc np).state = .UNUSED →
        (t.proc np).state = .RUNNABLE → (t.proc np).pgdir = some d' →
        Filled t.mem d' (s.proc c).sz) fun _ ↦ True :=
      sat_bind.2 ((fork_pages hi.wf hc.used hd hdir hlt.le).imp_error
        fun _ _ ↦ trivial)
    cases he with
    | full ha hfree => exact h
    | wasted ha hw => exact h.wasted hw hframe
    | @forked _ np hf =>
      refine h.fork hf hframe (fun d' hd' ↦ ?_) hlt
      refine hpages.of_ok hrun np d' (unused_of_freeSlot hf.free) ?_ hd'
      obtain ⟨v, d₁, hself⟩ := hf.self
      rw [hself]
      rfl
  | exit =>
    cases he with
    | full ha | wasted ha => cases ha
    | exited hinit he => exact h.exited he
  | wait =>
    have he' := he
    cases he with
    | full ha | wasted ha => cases ha
    | noChild => exact h
    | reaped hp hr =>
      refine h.reaped hr fun k d' hk hs hd' ↦ ?_
      refine hdirs.frame (.inr (.inl rfl)) d' (hndirs k d' hs hd') ?_
      exact hi.released_ne hmay he' hdirs hcare.1 (uses_of_runs hk) (uses_of_runs hs)
        (.inr ⟨rfl, fun _ _ ↦ by simp⟩) hd'
  | kill pid =>
    cases he with
    | full ha | wasted ha => cases ha
    | killed hp => exact h.killed
    | notKilled => exact h
  | sbrk n =>
    have hgrow : (call c (.sbrk n)).Sat s
        (fun _ t ↦ ∃ x, Ptable.GrowResult s c d n.toInt x t) fun _ ↦ True := by
      rw [call, sat_get_bind]
      have hn : -2147483648 ≤ n.toInt ∧ n.toInt < 2147483648 := ⟨BitVec.le_toInt n, BitVec.toInt_lt⟩
      refine sat_bind.2 ((growproc_sat hd hdir hlt hn).mono ?_ fun _ _ ↦ trivial)
      intro x t hx
      split
      · exact ⟨x, hx⟩
      · exact ⟨x, hx⟩
    obtain ⟨x, hx⟩ := hgrow.of_ok hrun
    exact h.sbrk hi hc hcare.2 hd hx
  | exec prog =>
    cases he with
    | full ha | wasted ha => cases ha
    | @replaced _ _ d₁ sz hproc ids =>
      have howner := hdirs.loaded prog rfl rfl
      have hlast := hcare.1.of_owner howner
      have hpages : (call c (.exec prog)).Sat s (fun r t ↦ r = some (.code 0) →
          (t.proc c).sz < KERNBASE ∧
            ∀ d, (t.proc c).pgdir = some d → Filled t.mem d (t.proc c).sz) fun _ ↦ True := by
        refine sat_bind.2 ((exec_pages hi.wf fun _ ↦ hi.lt_ndirs hmay).mono ?_ fun _ _ ↦ trivial)
        intro r t hr hcode
        exact hr (by simpa using hcode)
      obtain ⟨hlt', hfilled'⟩ := hpages.of_ok hrun rfl
      rw [hproc, update_self] at hlt' hfilled'
      refine h.exec hc hproc ids.nextpid hlast (fun k d' hkc hk hd' ↦ ?_) hlt' (hfilled' d₁ rfl)
      refine hdirs.frame (.inr (.inr ⟨prog, rfl⟩)) d' (hndirs k d' hk hd') fun hreleased ↦ ?_
      rw [released, howner] at hreleased
      have hptid := hi.share k c (uses_of_runs hk) (uses_of_runs hc) (hd'.trans hreleased.symm)
      rcases (hlast k hkc).1 hptid with hunused | ⟨hzombie, -⟩
      · exact hk.used hunused
      · exact hk.alive hzombie
    | @notReplaced _ m =>
      have howner := hdirs.failed prog rfl fun h ↦ by cases h
      refine h.frame le_rfl h.stack fun k hk ↦ ?_
      have hs : s.Runs k := runs_of_state (t := s.setMem m) rfl hk
      refine ⟨hs, ⟨rfl, rfl, rfl⟩, fun d' hd' ↦ filled_of_dir ?_⟩
      refine hdirs.frame (.inr (.inr ⟨prog, rfl⟩)) d' (hndirs k d' hs hd') ?_
      rw [released, howner]
      simp
  | threadCreate =>
    have hcreate : (call c .threadCreate).Sat s
        (fun _ t ↦ ∃ x, Ptable.CreateResult s c d x t) fun _ ↦ True := by
      have hgroup : (s.proc c).tFlag = false → (s.proc c).pid = (s.proc c).ptid :=
        hi.grouped c hc.used
      refine sat_bind.2 ((threadCreate_sat hd hdir hc.used hgroup).mono ?_ fun _ _ ↦ trivial)
      intro x t hx
      cases x with
      | none => exact ⟨none, hx⟩
      | some tid => exact ⟨some tid, hx⟩
    obtain ⟨x, hx⟩ := hcreate.of_ok hrun
    exact h.threadCreate hi hc hd hx
  | threadExit v =>
    cases he with
    | full ha | wasted ha => cases ha
    | threadExited he => exact h.threadExited he
  | threadJoin thread =>
    cases he with
    | full ha | wasted ha => cases ha
    | joined hp hj => exact h.threadJoin hi hc hcare.2 hp hj
    | noThread => exact h

end

theorem of_boot {freelist : List ℕ} (hfree : 68 ≤ freelist.length)
    (hboot : boot freelist = .ok s) : PagesInv s := by
  obtain ⟨_, p, d, hbooted, hfirst⟩ := userinit_boots.of_exec_ok hboot
  obtain ⟨v, hself⟩ := hbooted.self
  have hpgdir : (s.proc p).pgdir = some d := by
    rw [hself]
    rfl
  refine ⟨fun k hk ↦ ?_, fun k k' hk hk' _ ↦ ?_, fun k ↦ .inl ?_, fun k d' hk hd' ↦ ?_⟩
  · rw [hbooted.eq_of_used hk.used, hself, hbooted.nextpid]
    show (1 : ℤ) < 2
    decide
  · rw [hbooted.eq_of_used hk.used, hbooted.eq_of_used hk'.used]
    exact ⟨rfl, rfl⟩
  · rcases eq_or_ne k p with rfl | hk
    · rw [hself]
      exact ⟨rfl, rfl⟩
    · rw [hbooted.other k hk]
      exact ⟨rfl, rfl⟩
  · rw [hbooted.eq_of_used hk.used] at hd' ⊢
    obtain rfl := Option.mem_unique hpgdir hd'
    have hsz : (s.proc p).sz = PGSIZE := by
      rw [hself]
      rfl
    rw [hsz]
    refine ⟨by decide, fun va hva hva' ↦ ?_⟩
    have hzero : va = 0 := Nat.eq_zero_of_dvd_of_lt hva.aligned hva'
    rw [hzero]
    exact hfirst hfree

/-- What one careful step keeps. -/
theorem step (h : PagesInv s) (hi : DirsInv s) (hcare : s.Careful (c, a))
    (hstep : s.step (c, a) = some (.ok t)) : PagesInv t ∧ DirsInv t := by
  obtain ⟨hmay, r, he, hdirs⟩ := hi.of_step hstep
  obtain ⟨-, _, hrun⟩ := step_ok hstep
  exact ⟨h.call hi hmay hcare hrun, hi.effect hmay he hdirs hcare.1⟩

/-! ### What follows -/

theorem pages (h : PagesInv s) (hi : DirsInv s) (hk : s.Runs k) : ∃ d, (s.proc k).pgdir = some d ∧
      ∀ va, PGSIZE ∣ va → va < PGROUNDUP (s.proc k).sz → s.mem.Present d va := by
  obtain ⟨d, hd, -⟩ := hi.dir k (uses_of_runs hk)
  obtain ⟨hlt, hfilled⟩ := h.filled k d hk hd
  refine ⟨d, hd, fun va hva hva' ↦ ?_⟩
  have hva'' := (lt_PGROUNDUP_iff hva).1 hva'
  exact hfilled va ⟨hva, hva''.trans hlt⟩ hva''

/-- `fork` does not panic in `copyuvm`. -/
theorem fork_ne (h : PagesInv s) (hi : DirsInv s) {e : Fault}
    (hstep : s.step (c, .fork) = some (.error e)) :
    e ≠ .panic .copyuvmPteShouldExist ∧ e ≠ .panic .copyuvmPageNotPresent := by
  rw [Ptable.step] at hstep
  split at hstep
  next hmay =>
    have hc := runs_of_mayCall hmay
    obtain ⟨d, hd, hdir⟩ := hi.dir c (uses_of_runs hc)
    obtain ⟨hlt, hfilled⟩ := h.filled c d hc hd
    have hpages : (Ptable.call c .fork).Sat s (fun _ _ ↦ True) fun e ↦
        e = .panic .copyuvmPteShouldExist ∨ e = .panic .copyuvmPageNotPresent →
          ¬Filled s.mem d (s.proc c).sz :=
      sat_bind.2 ((Ptable.fork_pages hi.wf hc.used hd hdir hlt.le).imp fun _ _ _ ↦ trivial)
    split at hstep
    · cases Option.some.inj hstep
    · cases hstep
    next e' hrun =>
      obtain rfl := Except.error.inj (Option.some.inj hstep)
      have hne := hpages.of_error hrun
      exact ⟨fun he ↦ hne (.inl he) hfilled, fun he ↦ hne (.inr he) hfilled⟩
  · cases hstep

theorem noHoles (h : PagesInv s) (hi : DirsInv s) : Ptable.NoHoles s := by
  refine ⟨fun k hk ↦ h.pages hi hk, fun c ↦ ⟨?_, ?_⟩, fun k d u x hk hd husz hx ↦ ?_⟩
  · exact fun hstep ↦ (h.fork_ne hi hstep).1 rfl
  · exact fun hstep ↦ (h.fork_ne hi hstep).2 rfl
  · obtain ⟨hlt, hfilled⟩ := h.filled k d hk hd
    have hx' := BitVec.lt_def.1 (hx.lt (husz ▸ hlt))
    have hle : PGROUNDDOWN x.toNat ≤ x.toNat := Nat.div_mul_le_self ..
    rw [husz] at hx'
    exact hfilled _ ⟨Dvd.intro_left _ rfl, (hle.trans_lt hx').trans hlt⟩ (hle.trans_lt hx')

end Steps

end PagesInv

namespace Ptable

theorem PagesInv.of_run {freelist : List ℕ} {s₀ s : Ptable} {ls : List (Slot × Call)}
    (hfree : 68 ≤ freelist.length) (hboot : boot freelist = .ok s₀)
    (hrun : Machine.Run (Machine.guarded Careful step) s₀ ls s) : PagesInv s ∧ DirsInv s := by
  refine hrun.invariant (P := fun s ↦ PagesInv s ∧ DirsInv s) ⟨.of_boot hfree hboot, .of_boot hboot⟩ ?_
  intro τ τ' l ⟨hp, hi⟩ hstep
  obtain ⟨hcare, hstep⟩ := Machine.guarded_eq_some.1 hstep
  exact hp.step hi hcare hstep

/-- **No holes below `sz`.** In every careful run from a boot with enough pages, every page below the size of a
process or thread that runs is present in its page directory, `fork` does not panic in `copyuvm`, and no
unmapped address is accepted as an argument. -/
theorem no_holes {freelist : List ℕ} {s₀ s : Ptable} {ls : List (Slot × Call)}
    (hfree : 68 ≤ freelist.length) (hboot : boot freelist = .ok s₀)
    (hrun : Machine.Run (Machine.guarded Careful step) s₀ ls s) : NoHoles s := by
  have hinv := PagesInv.of_run hfree hboot hrun
  exact hinv.1.noHoles hinv.2

/-- A process makes two threads and joins the last one first, then grows, forks and replaces its address
space. -/
theorem no_holes_two_threads : ∃ freelist s₀ ls s, boot freelist = .ok s₀ ∧
    Machine.Run (Machine.guarded Careful step) s₀ ls s ∧
      ls = [(0, .threadCreate), (0, .threadCreate), (1, .threadExit 0), (2, .threadExit 0),
        (0, .threadJoin 1), (0, .threadJoin 0), (0, .sbrk 5000), (0, .fork),
        (1, .exec ⟨true, true, [], []⟩)] ∧ NoHoles s :=
  exists_boot_run_of (List.range' 1 400) _ (fun _ ↦ True) (by decide +kernel)
    fun _ _ hboot hrun _ ↦ ⟨rfl, no_holes (by simp) hboot hrun⟩

/-- **Address spaces are thread groups.** In every careful run, two slots that run have the same page directory exactly
when they are in the same group. -/
theorem pgdir_eq_iff {freelist : List ℕ} {s₀ s : Ptable} {ls : List (Slot × Call)}
    (hfree : 68 ≤ freelist.length) (hboot : boot freelist = .ok s₀)
    (hrun : Machine.Run (Machine.guarded Careful step) s₀ ls s) {k k' : Slot} (hk : s.Runs k) (hk' : s.Runs k') :
    (s.proc k).pgdir = (s.proc k').pgdir ↔ (s.proc k).ptid = (s.proc k').ptid := by
  have hinv := PagesInv.of_run hfree hboot hrun
  exact ⟨hinv.2.share k k' (PagesInv.uses_of_runs hk) (PagesInv.uses_of_runs hk'), fun h ↦ (hinv.1.group k k' hk hk' h).1⟩

/-- A process with a thread and a child: the thread has the directory of the process, and the child has its own. -/
theorem pgdir_eq_iff_fork : ∃ freelist s₀ ls s, boot freelist = .ok s₀ ∧ Machine.Run (Machine.guarded Careful step) s₀ ls s ∧
    ls = [(0, .threadCreate), (0, .fork)] ∧ (s.Runs 0 ∧ s.Runs 1 ∧ s.Runs 2) ∧ (s.proc 0).ptid = (s.proc 1).ptid ∧
    (s.proc 0).pgdir = (s.proc 1).pgdir ∧ (s.proc 0).ptid ≠ (s.proc 2).ptid ∧ (s.proc 0).pgdir ≠ (s.proc 2).pgdir := by
  refine exists_boot_run_of (List.range' 1 400) _ (fun s ↦ (s.Runs 0 ∧ s.Runs 1 ∧ s.Runs 2) ∧
    (s.proc 0).ptid = (s.proc 1).ptid ∧ (s.proc 0).ptid ≠ (s.proc 2).ptid) (by decide +kernel)
    fun s₀ s hs₀ hrun hs ↦ ⟨rfl, ?_⟩
  obtain ⟨⟨h0, h1, h2⟩, hsame, hother⟩ := hs
  have hiff {k : Slot} (hk : s.Runs k) : (s.proc 0).pgdir = (s.proc k).pgdir ↔ (s.proc 0).ptid = (s.proc k).ptid :=
    pgdir_eq_iff (by simp) hs₀ hrun h0 hk
  exact ⟨⟨h0, h1, h2⟩, hsame, (hiff h1).2 hsame, hother, mt (hiff h2).1 hother⟩

/-- A process makes two threads and joins the first one. The page above its own is then not there, `fetchint`
accepts its address, and `fork` panics. -/
theorem join_leaves_hole : ∃ freelist s₀ ls s, boot freelist = .ok s₀ ∧ Machine.Run step s₀ ls s ∧
    ls = [(0, .threadCreate), (0, .threadCreate), (1, .threadExit 0), (0, .threadJoin 0)] ∧
    (s.proc 0).state = .RUNNABLE ∧ (s.proc 0).pgdir = some 0 ∧ PGSIZE < (s.proc 0).sz ∧
    ¬s.mem.Present 0 PGSIZE ∧
    (∀ u : Caller, u.sz.toNat = (s.proc 0).sz → ∃ w, u.fetchint 4096 = some w) ∧
    s.step (0, .fork) = some (.error (.panic .copyuvmPageNotPresent)) := by
  refine exists_boot_run_of (List.range' 1 400) _ (fun s ↦ (s.proc 0).state = .RUNNABLE ∧ (s.proc 0).pgdir = some 0 ∧
    ¬(s.mem.pte 0 PGSIZE).isSome ∧ (s.proc 0).sz = 20480 ∧
    Machine.stops step s (0, .fork) (.panic .copyuvmPageNotPresent))
    (by decide +kernel) fun s₀ s _ _ hs ↦ ⟨rfl, hs.1, hs.2.1, ?_, hs.2.2.1, fun u hu ↦ ⟨u.word 4096, ?_⟩,
      Machine.step_of_stops hs.2.2.2.2⟩
  · rw [hs.2.2.2.1]
    decide
  · have husz : u.sz = 20480 := BitVec.eq_of_toNat_eq (hu.trans hs.2.2.2.1)
    rw [Caller.fetchint, husz, if_neg (by decide)]

end Ptable

end Xv6
