import Xv6.Proc.Spec
import Xv6.Vm.Copy

/-!
# The pages of processes

The account of pages, for `growproc`. A process whose pages are exactly those below its size, in a memory
where no page is used twice, gets a new size with the pages for it, or nothing changes. There are two
exceptions: `deallocuvm` returns the old size where the new one would be negative, and a new size of 0 is
taken for a failure after the pages have gone.
-/

namespace Xv6

open Prog Vm

namespace Ptable

section Grow

variable {s : Ptable} {c : Slot} {d : ℕ}

variable {n : ℤ}

/-- `growproc` stops only at a page that is in use already, or at one that is not the allocator's. -/
theorem growproc_kept (hd : (s.proc c).pgdir = some d) (hdir : (s.mem.dir d).isSome)
    (hstack : (s.proc c).kstack ≠ none) (hsz : (s.proc c).sz < KERNBASE) (hn : n < 2147483648) :
    (growproc c n).Sat s (fun _ t ↦ Kept d s.mem t.mem ∧ OnlyDir d s.mem t.mem)
      fun e ↦ e = .panic .remap ∨ (e = .panic .kfree ∧ Refused d s.mem e) := by
  have hK : KERNBASE = 2147483648 := rfl
  refine sat_growproc (fun h ↦ nomatch hd.symm.trans h) (fun e he ↦ ?_) (fun d' hd' hpos ↦ ?_)
    (fun d' hd' hneg ↦ ?_) fun _ ↦ ⟨.refl d s.mem, Changed.refl ..⟩
  · rcases he with ⟨-, h⟩ | ⟨-, h⟩
    · exact absurd h hstack
    · cases hd.symm.trans h
  · obtain rfl := Option.mem_unique hd hd'
    have hle : (s.proc c).sz ≤ uint ((s.proc c).sz + n) := by
      rw [uint]
      omega
    refine ((allocuvm_kept hdir).and (allocuvm_sat hle hdir)).mono ?_ ?_
    · exact fun r m h ↦ ⟨fun _ ↦ ⟨h.1, h.2.1.only⟩, fun _ ↦ ⟨h.1, h.2.1.only⟩⟩
    · intro e h
      rcases h.2 with he | he
      · exact .inr ⟨he, h.1⟩
      · exact .inl he.1
  · obtain rfl := Option.mem_unique hd hd'
    rcases Nat.lt_or_ge (uint ((s.proc c).sz + n)) (s.proc c).sz with hlt | hge
    · refine ((deallocuvm_kept hsz.le hdir).and (deallocuvm_sat hlt hsz.le hdir)).mono ?_ ?_
      · exact fun r m h ↦ ⟨fun _ ↦ ⟨h.1, h.2.2.changed.only⟩, fun _ ↦ ⟨h.1, h.2.2.changed.only⟩⟩
      · exact fun e h ↦ .inr ⟨h.2, h.1⟩
    · exact deallocuvm_of_ge hge (.wrapped (fun _ ↦ ⟨.refl d s.mem, Changed.refl ..⟩)
        fun _ ↦ ⟨.refl d s.mem, Changed.refl ..⟩)

/-! ### The contract of `sbrk` -/

/-- The pages of `c` are exactly those below its size, and no page is used twice. -/
structure Exact (s : Ptable) (c : Slot) (d : ℕ) : Prop where
  sound : s.mem.Sound
  pgdir : (s.proc c).pgdir = some d
  dir : (s.mem.dir d).isSome
  kstack : (s.proc c).kstack ≠ none
  le : (s.proc c).sz ≤ KERNBASE
  pages : ∀ va, UserPage va → (s.mem.Present d va ↔ va < PGROUNDUP (s.proc c).sz)

/-- From `s` to `t` the process has got `n` more bytes, or fewer. -/
structure Resized (s t : Ptable) (c : Slot) (d : ℕ) (n : ℤ) : Prop where
  sz : ((t.proc c).sz : ℤ) = (s.proc c).sz + n
  pages : ∀ va, UserPage va → (t.mem.Present d va ↔ va < PGROUNDUP (t.proc c).sz)
  /-- The pages that stay are as they were. -/
  kept : ∀ va e, UserPage va → va < (t.proc c).sz → s.mem.pte d va = some e →
    t.mem.pte d va = some e ∧ t.mem.data e.page = s.mem.data e.page
  zeroed : ∀ va, UserPage va → (s.proc c).sz ≤ va → va < (t.proc c).sz →
    ∃ p, t.mem.pte d va = some ⟨p, true, true⟩ ∧ t.mem.data p = fun _ ↦ 0

/-- From `s` to `t` neither the size nor a page of the process has changed. -/
structure Unchanged (s t : Ptable) (c : Slot) (d : ℕ) : Prop where
  sz : (t.proc c).sz = (s.proc c).sz
  entry : ∀ va, UserPage va → t.mem.pte d va = s.mem.pte d va
  data : ∀ va e, UserPage va → s.mem.pte d va = some e → t.mem.data e.page = s.mem.data e.page

namespace Exact

variable {m : Mem} {sz : ℕ} {n : ℤ}

variable (h : s.Exact c d)

include h

theorem present_iff {va : ℕ} (hva : UserPage va) : s.mem.Present d va ↔ va < (s.proc c).sz := by
  rw [h.pages va hva, lt_PGROUNDUP_iff hva.aligned]

theorem lt_of_pte {va : ℕ} {e : Pte} (hva : UserPage va)
    (he : s.mem.pte d va = some e) : va < (s.proc c).sz :=
  (h.present_iff hva).1 (by rw [Mem.Present, he]; rfl)

theorem nodup : s.mem.freelist.Nodup :=
  List.nodup_iff_count_le_one.2 fun x ↦ (Nat.le_add_right _ _).trans (h.sound.once x)

/-- Only entries between the two sizes have changed, and the pages below the new size are there. -/
theorem resized (hsz : (sz : ℤ) = (s.proc c).sz + n) {R : ℕ → Prop}
    (hch : Changed s.mem m d R) (hin : Within s.mem m d R)
    (hR : ∀ va, UserPage va → R va → (m.Present d va ↔ va < sz))
    (hiff : ∀ va, ¬R va → (va < (s.proc c).sz ↔ va < sz))
    (hkeep : ∀ va, va < sz → va < (s.proc c).sz → ¬R va)
    (hnew : ∀ va, UserPage va → (s.proc c).sz ≤ va → va < sz → NewAt s.mem m d va true true fun _ ↦ 0) :
    Resized s ((s.setMem m).setProc c ((s.proc c).setSz sz)) c d n := by
  have hself : (((s.setMem m).setProc c ((s.proc c).setSz sz)).proc c).sz = sz := by
    rw [setProc_proc, Function.update_self]
    rfl
  refine ⟨by rw [hself]; exact hsz, fun va hva ↦ ?_, fun va e hva hlt he ↦ ?_, fun va hva hle hlt ↦ ?_⟩
  · rw [hself, lt_PGROUNDUP_iff hva.aligned]
    show m.Present d va ↔ va < sz
    by_cases hrange : R va
    · exact hR va hva hrange
    · rw [Mem.Present, hch.pte va hva hrange]
      exact (h.present_iff hva).trans (hiff va hrange)
  · rw [hself] at hlt
    have hrange := hkeep va hlt (h.lt_of_pte hva he)
    exact ⟨(hch.pte va hva hrange).trans he, hin.data _ (h.sound.not_loose hva he hrange)⟩
  · rw [hself] at hlt
    obtain ⟨-, p, hp, hdata⟩ := hnew va hva hle hlt
    exact ⟨p, hp, hdata h.nodup⟩

/-- `allocuvm` has failed. -/
theorem failed (hch : Changed s.mem m d fun va ↦ (s.proc c).sz ≤ va ∧ va < sz)
    (hin : Within s.mem m d fun va ↦ (s.proc c).sz ≤ va ∧ va < sz)
    (hsub : ∀ va, UserPage va → (m.pte d va).isSome → (s.mem.pte d va).isSome) :
    Unchanged s (s.setMem m) c d := by
  refine ⟨rfl, fun va hva ↦ ?_, fun va e hva he ↦ ?_⟩
  · by_cases hrange : (s.proc c).sz ≤ va ∧ va < sz
    · have hnone : ¬s.mem.Present d va := fun hp ↦ Nat.not_lt.2 hrange.1 ((h.present_iff hva).1 hp)
      have hnone' : ¬(m.pte d va).isSome := fun hp ↦ hnone (hsub va hva hp)
      rw [Mem.Present, Option.not_isSome_iff_eq_none] at hnone
      rw [Option.not_isSome_iff_eq_none] at hnone'
      exact hnone'.trans hnone.symm
    · exact hch.pte va hva hrange
  · have hlt := h.lt_of_pte hva he
    exact hin.data _ (h.sound.not_loose hva he fun hS ↦ Nat.not_lt.2 hS.1 hlt)

end Exact

/-- `growproc` has returned `r` and left `t`: the process has the new size, or nothing has changed. -/
def Contract (s : Ptable) (c : Slot) (d : ℕ) (n r : ℤ) (t : Ptable) : Prop :=
  (r = 0 ∧ Resized s t c d n) ∨ (r = -1 ∧ Unchanged s t c d)

theorem growproc_meets (h : s.Exact c d) (hn : -2147483648 ≤ n ∧ n < 2147483648)
    (hcond : 0 ≤ n ∨ 0 < (s.proc c).sz + n ∨ (s.proc c).sz = 0) :
    ∃ r t, (growproc c n).run s = .ok (r, t) ∧ Contract s c d n r t := by
  have hK : KERNBASE = 2147483648 := rfl
  have hle := h.le
  refine Sat.exists_ok (sat_growproc (fun h' ↦ by cases h.pgdir.symm.trans h') (fun e he ↦ ?_)
    (fun d' hd' hpos ↦ ?_) (fun d' hd' hneg ↦ ?_) fun h0 ↦ ?_)
  · rcases he with ⟨-, he⟩ | ⟨-, he⟩
    · exact h.kstack he
    · cases h.pgdir.symm.trans he
  · obtain rfl := Option.mem_unique h.pgdir hd'
    obtain ⟨sz, hsz⟩ : ∃ sz : ℕ, (sz : ℤ) = (s.proc c).sz + n := ⟨((s.proc c).sz + n).toNat, by omega⟩
    rw [← hsz, uint_natCast (by omega)]
    refine ((allocuvm_kept h.dir).and (allocuvm_sat (by omega) h.dir)).mono ?_ ?_
    · intro r m hpost
      obtain ⟨_, hch, hin, hor⟩ := hpost
      rcases hor with ⟨rfl, -, hall⟩ | ⟨rfl, hsub⟩
      · refine ⟨fun h0 ↦ by omega, fun _ ↦ .inl ⟨rfl, h.resized hsz hch hin ?_ ?_ ?_ hall⟩⟩
        · exact fun va hva hR ↦ iff_of_true (hall va hva hR.1 hR.2).present hR.2
        · exact fun va hR ↦ by omega
        · exact fun va _ hlt hR ↦ Nat.not_lt.2 hR.1 hlt
      · exact ⟨fun _ ↦ .inr ⟨rfl, h.failed hch hin hsub⟩, fun h0 ↦ absurd h0 (Nat.lt_irrefl 0)⟩
    · rintro e ⟨hrefused, rfl | ⟨-, va, hva, hva', -, hpresent⟩⟩
      · exact h.sound.managed.not_refused h.sound.wf hrefused
      · exact Nat.not_lt.2 hva' ((h.present_iff hva).1 hpresent)
  · obtain rfl := Option.mem_unique h.pgdir hd'
    have hsame : Unchanged s s c d := ⟨rfl, fun _ _ ↦ rfl, fun _ _ _ _ ↦ rfl⟩
    rcases lt_or_ge ((s.proc c).sz + n : ℤ) 0 with hwrap | hge
    · have hge : (s.proc c).sz ≤ uint ((s.proc c).sz + n) := by
        rw [uint]
        omega
      exact deallocuvm_of_ge hge (.wrapped (fun _ ↦ .inr ⟨rfl, hsame⟩) fun hpos ↦ by omega)
    · obtain ⟨sz, hsz⟩ : ∃ sz : ℕ, (sz : ℤ) = (s.proc c).sz + n := ⟨((s.proc c).sz + n).toNat, by omega⟩
      rw [← hsz, uint_natCast (by omega)]
      refine ((deallocuvm_kept h.le h.dir).and (deallocuvm_sat (by omega) h.le h.dir)).mono ?_ ?_
      · rintro r m ⟨-, rfl, hclear⟩
        refine ⟨fun h0 ↦ by omega, fun _ ↦ .inl ⟨rfl, h.resized hsz hclear.changed
          (hclear.within _ fun _ h1 h2 ↦ ⟨h1, h2⟩) ?_ ?_ ?_ ?_⟩⟩
        · intro va hva hR
          rw [Mem.Present, hclear.clear va hva hR.1 hR.2]
          exact iff_of_false (by simp) (Nat.not_lt.2 hR.1)
        · exact fun va hR ↦ by omega
        · exact fun va hlt _ hR ↦ Nat.not_lt.2 hR.1 hlt
        · exact fun va _ h1 h2 ↦ by omega
      · rintro e ⟨hrefused, rfl⟩
        exact h.sound.managed.not_refused h.sound.wf hrefused
  · refine .inl ⟨rfl, by omega, h.pages, fun va e _ _ he ↦ ⟨he, rfl⟩, fun va _ h1 h2 ↦ ?_⟩
    omega

/-- A process that gives back all its memory, or more, is not told so. -/
theorem growproc_misses (h : s.Exact c d) (hn : -2147483648 ≤ n) (hneg : n < 0) (hle : (s.proc c).sz + n ≤ 0)
    (hpos : 0 < (s.proc c).sz) : (growproc c n).Sat s (fun r t ↦ ¬Contract s c d n r t) fun _ ↦ True := by
  have hK : KERNBASE = 2147483648 := rfl
  have hsz := h.le
  refine sat_growproc (fun _ ↦ trivial) (fun _ _ ↦ trivial) (fun _ _ h0 ↦ by omega)
    (fun d' hd' _ ↦ ?_) fun h0 ↦ by omega
  obtain rfl := Option.mem_unique h.pgdir hd'
  rcases hle.lt_or_eq with hwrap | hzero
  · -- The new size has wrapped around.
    have hge : (s.proc c).sz ≤ uint ((s.proc c).sz + n) := by
      rw [uint]
      omega
    refine deallocuvm_of_ge hge (.wrapped (fun h0 ↦ by omega) fun _ hc ↦ ?_)
    rcases hc with ⟨-, hr⟩ | ⟨h0, -⟩
    · have hsz := hr.sz
      omega
    · omega
  · -- The new size is 0, which is taken for a failure, and page 0 is gone.
    rw [hzero]
    refine (deallocuvm_sat hpos h.le h.dir).mono ?_ fun _ _ ↦ trivial
    rintro r m ⟨rfl, hclear⟩
    refine ⟨fun _ hc ↦ ?_, fun h0 ↦ absurd h0 (Nat.lt_irrefl 0)⟩
    rcases hc with ⟨h0, -⟩ | ⟨-, hsame⟩
    · omega
    · have hva : UserPage 0 := ⟨Nat.dvd_zero _, by decide⟩
      have hnone := (hsame.entry 0 hva).symm.trans (hclear.clear 0 hva le_rfl hpos)
      have hpresent := (h.present_iff hva).2 hpos
      rw [Mem.Present, hnone] at hpresent
      cases hpresent

/-- **The contract of `growproc`** is met unless a process of positive size gives back all its memory, or more
than it has. -/
theorem growproc_contract {n : ℤ} (h : s.Exact c d) (hn : -2147483648 ≤ n ∧ n < 2147483648) :
    (∃ r t, (growproc c n).run s = .ok (r, t) ∧ Contract s c d n r t) ↔
      0 ≤ n ∨ 0 < (s.proc c).sz + n ∨ (s.proc c).sz = 0 := by
  refine ⟨?_, growproc_meets h hn⟩
  intro ⟨r, t, hrun, hmet⟩
  by_contra hcond
  exact (growproc_misses h hn.1 (by omega) (by omega) (by omega)).of_ok hrun hmet

end Grow

/-- A process with one page. -/
def onePageProc : Ptable where
  proc := Function.update (fun _ ↦ Proc.zero) 0
    { Proc.zero with sz := PGSIZE, pgdir := some 0, kstack := some 200, state := .RUNNING }
  nextpid := 2
  nexttid := 0
  initproc := 0
  mem := onePage

theorem onePageProc_exact : onePageProc.Exact 0 0 := by
  refine ⟨onePage_sound, rfl, rfl, nofun, by decide, fun va hva ↦ ?_⟩
  exact onePage_present hva

theorem growproc_contract_more : onePageProc.Exact 0 0 ∧
    ∃ r t, (growproc 0 100).run onePageProc = .ok (r, t) ∧ Contract onePageProc 0 0 100 r t :=
  ⟨onePageProc_exact, (growproc_contract onePageProc_exact ⟨by decide, by decide⟩).2 (.inl (by decide))⟩

/-- Giving back all memory is answered with -1, and the pages are gone. Giving back more than that is answered
with 0, and nothing changes. -/
theorem growproc_breaks_contract : onePageProc.Exact 0 0 ∧
    (∃ t, (growproc 0 (-4096)).run onePageProc = .ok (-1, t) ∧ ¬Contract onePageProc 0 0 (-4096) (-1) t) ∧
    ∃ t, (growproc 0 (-4097)).run onePageProc = .ok (0, t) ∧ ¬Contract onePageProc 0 0 (-4097) 0 t := by
  refine ⟨onePageProc_exact, ⟨_, rfl, ?_⟩, _, rfl, ?_⟩
  · exact growproc_misses (n := -4096) onePageProc_exact (by decide) (by decide) (by decide) (by decide)
  · exact growproc_misses (n := -4097) onePageProc_exact (by decide) (by decide) (by decide) (by decide)

/-! ### The stack of a new thread -/

/-- `thread_create` gets the memory of a new stack, and does nothing else to the memory. -/
theorem threadCreate_newStack {s : Ptable} {c : Slot} {d : ℕ} (hd : (s.proc c).pgdir = some d)
    (hdir : (s.mem.dir d).isSome) (hrun : (s.proc c).state ≠ .UNUSED) :
    (threadCreate c).Sat s (fun r t ↦ r ≠ none → (s.proc c).sz + 2 * PGSIZE < KERNBASE ∧
      NewStack s.mem t.mem d (s.proc c).sz ((s.proc c).sz + 2 * PGSIZE) (guardPage (s.proc c).sz))
      fun _ ↦ True := by
  refine sat_threadCreate hrun trivial trivial (fun _ _ _ h ↦ absurd rfl h) fun s₁ hc hpage ↦ ?_
  refine (createSpace_sat (hc ▸ hd) (hpage.dir ▸ hdir)).mono ?_ fun _ _ ↦ trivial
  rintro r _ ⟨m, rfl, hor⟩
  refine ⟨m, rfl, fun _ _ _ _ h ↦ absurd rfl h, fun h0 t _ ht _ _ ↦ ?_⟩
  obtain ⟨rfl, hlt, -, hnew⟩ := hor.resolve_left fun h ↦ h0 h.1
  rw [hc] at hnew
  refine ⟨hlt, ?_⟩
  rw [ht]
  refine ⟨(Changed.of_dir hpage.ndirs hpage.dir).trans hnew.changed, ?_⟩
  simp only [Mem.pte, ← hpage.dir]
  exact hnew.new

/-- `clearpteu` does not reach the new stack. -/
theorem guardPage_ne {sz va : ℕ} (hva : UserPage va) (hle : sz ≤ va) : va ≠ guardPage sz := by
  have hK : KERNBASE = 2147483648 := rfl
  have hP : PGSIZE = 4096 := rfl
  have hlt := hva.lt
  rw [guardPage, PGROUNDDOWN, uint, hP]
  omega

/-- The stack of a new thread with its guard page: the lower page is not for the user, and the flags of the
pages that were there are as they were. -/
structure Guarded (s t : Ptable) (c : Slot) (d : ℕ) : Prop where
  lower : ∃ p w, t.mem.pte d (PGROUNDUP (s.proc c).sz) = some ⟨p, w, false⟩
  upper : ∃ p w, t.mem.pte d (PGROUNDUP (s.proc c).sz + PGSIZE) = some ⟨p, w, true⟩
  kept : ∀ d' va e, UserPage va → s.mem.pte d' va = some e →
    ∃ p, t.mem.pte d' va = some ⟨p, e.writable, e.user⟩

/-- **No new thread has a guard page.** Both pages of its stack are for the user. Of the pages that were there,
only the one two pages below the old size has changed. -/
theorem threadCreate_unguarded {s t : Ptable} {c : Slot} {d : ℕ} {tid : ℤ}
    (hd : (s.proc c).pgdir = some d) (hdir : (s.mem.dir d).isSome) (hrun : (s.proc c).state ≠ .UNUSED)
    (h : (threadCreate c).run s = .ok (some tid, t)) : ¬Guarded s t c d ∧
      (∃ p, t.mem.pte d (PGROUNDUP (s.proc c).sz) = some ⟨p, true, true⟩) ∧
      (∃ p, t.mem.pte d (PGROUNDUP (s.proc c).sz + PGSIZE) = some ⟨p, true, true⟩) ∧
      ∀ d' va, UserPage va → s.mem.Present d' va → (d' = d → va ≠ guardPage (s.proc c).sz) →
        t.mem.pte d' va = s.mem.pte d' va := by
  obtain ⟨hlt, hnew⟩ := (threadCreate_newStack hd hdir hrun).of_ok h (by simp)
  have hstack : ∀ va, PGSIZE ∣ va → (s.proc c).sz ≤ va → va < (s.proc c).sz + 2 * PGSIZE →
      ∃ p, t.mem.pte d va = some ⟨p, true, true⟩ := by
    intro va hdvd hle hva
    exact (hnew.new va ⟨hdvd, hva.trans hlt⟩ hle hva).2.2 (guardPage_ne ⟨hdvd, hva.trans hlt⟩ hle)
  have hle := le_PGROUNDUP (s.proc c).sz
  have hup : PGROUNDUP (s.proc c).sz ≤ (s.proc c).sz + PGSIZE - 1 := Nat.div_mul_le_self ..
  have hpos := PGSIZE_pos
  obtain ⟨p, hlower⟩ := hstack _ (dvd_PGROUNDUP _) hle (by omega)
  refine ⟨fun hg ↦ ?_, ⟨p, hlower⟩, hstack _ (Nat.dvd_add (dvd_PGROUNDUP _) (dvd_refl _)) (by omega) (by omega),
    fun d' va hva hpresent hne ↦ ?_⟩
  · obtain ⟨p', w, hp'⟩ := hg.lower
    cases hp'.symm.trans hlower
  · rcases eq_or_ne d' d with rfl | hd'
    · refine hnew.changed.pte va hva fun hor ↦ ?_
      rcases hor with ⟨h1, h2⟩ | h1
      · rw [Mem.Present, (hnew.new va hva h1 h2).1] at hpresent
        cases hpresent
      · exact hne rfl h1
    · rw [Mem.pte, Mem.pte, hnew.changed.other d' hd']

/-- The first process makes a thread. -/
theorem threadCreate_unguarded_boot : ∃ s t c d tid, Reachable s ∧ (threadCreate c).run s = .ok (some tid, t) ∧
    ¬Guarded s t c d ∧ (∃ p, t.mem.pte d (PGROUNDUP (s.proc c).sz) = some ⟨p, true, true⟩) := by
  obtain ⟨s, r, t, hreach, h, hsome, hd, hdir, hstate⟩ := exists_return (List.range' 1 200) [] (threadCreate 0)
    (fun s r _ ↦ r.isSome ∧ (s.proc 0).pgdir = some 0 ∧ (s.mem.dir 0).isSome ∧ (s.proc 0).state ≠ .UNUSED)
    (by decide +kernel)
  obtain ⟨tid, rfl⟩ := Option.isSome_iff_exists.1 hsome
  have hmade := threadCreate_unguarded hd hdir hstate h
  exact ⟨s, t, 0, 0, tid, hreach, h, hmade.1, hmade.2.1⟩

/-- The first process has three pages and makes a thread. The lower page of the stack is for the user, and
page 1 of the process no longer is. -/
theorem threadCreate_guards_heap : ∃ s, Reachable s ∧ (s.proc 0).sz = 3 * PGSIZE ∧
    (∀ i : Fin 3, s.mem.Present 0 (i * PGSIZE)) ∧ ∃ tid t, (threadCreate 0).run s = .ok (some tid, t) ∧
      (t.mem.pte 0 (3 * PGSIZE)).map Pte.user = some true ∧
      (s.mem.pte 0 PGSIZE).map Pte.user = some true ∧ (t.mem.pte 0 PGSIZE).map Pte.user = some false := by
  obtain ⟨s, r, t, hreach, h, hsome, hsz, hpresent, hflags⟩ := exists_return (List.range' 1 200) [(0, .sbrk 8192)]
    (threadCreate 0) (fun s r t ↦
      r.isSome ∧ (s.proc 0).sz = 3 * PGSIZE ∧ (∀ i : Fin 3, (s.mem.pte 0 (i * PGSIZE)).isSome) ∧
        (t.mem.pte 0 (3 * PGSIZE)).map Pte.user = some true ∧
        (s.mem.pte 0 PGSIZE).map Pte.user = some true ∧ (t.mem.pte 0 PGSIZE).map Pte.user = some false)
    (by decide +kernel)
  obtain ⟨tid, rfl⟩ := Option.isSome_iff_exists.1 hsome
  exact ⟨s, hreach, hsz, hpresent, tid, t, h, hflags⟩

end Ptable

end Xv6
