import Xv6.Proc.Effect

/-!
# Parents and children

A process that has been forked points to its parent, and the parent reaps it with `wait`. Next to the
process table it is recorded who has forked each process: the pid of the caller of `fork`, which is not
given out again.

`exit` passes the children of the caller to the first process. `thread_exit` does not, and neither does
`exit` for the threads of the process that it ends, or `wait` for the ones that it takes away; their slots
are freed and given to others, who are then the parents of children that they have not forked
(`parent_freed`). If nobody with children leaves in one of these ways, every child has a parent
(`children_have_parents`).
-/

namespace Xv6

open Vm Function Ptable

/-- The process table and who has forked whom. -/
structure Family where
  /-- The process table. -/
  table : Ptable
  /-- The pid of the creator of a process that has been made by `fork`. -/
  forkedBy : Slot → Option ℤ

namespace Family

/-- Who has forked whom after the call `a` by `c`, which leads to the table `t`. -/
def forkedAfter (σ : Family) (c : Slot) (a : Call) (t : Ptable) : Slot → Option ℤ :=
  if a.allocates then
    match σ.table.freeSlot with
    | none => σ.forkedBy
    | some np =>
      update σ.forkedBy np
        (if a = .fork ∧ (t.proc np).state = .RUNNABLE then some (σ.table.proc c).pid else none)
  else
    σ.forkedBy

/-- A system call by a process that can make it. -/
def step (σ : Family) (l : Slot × Call) : Option (Except Fault Family) :=
  if σ.table.MayCall l.1 then
    match (Ptable.call l.1 l.2).run σ.table with
    | .ok (some _, t) => some (.ok ⟨t, σ.forkedAfter l.1 l.2 t⟩)
    | .ok (none, _) => none
    | .error e => some (.error e)
  else
    none

/-- Nobody has been forked. -/
def start (s : Ptable) : Family := ⟨s, fun _ ↦ none⟩

/-- No slot in use has the parent `k`. -/
def Childless (σ : Family) (k : Slot) : Prop :=
  ∀ j, (σ.table.proc j).state ≠ .UNUSED → (σ.table.proc j).parent ≠ some k

instance (σ : Family) (k : Slot) : Decidable (σ.Childless k) :=
  inferInstanceAs (Decidable (∀ _, _))

/-- Who is ended by the call has no children, or ends itself by `exit`. -/
def Tidy (σ : Family) (l : Slot × Call) : Prop :=
  ∀ k, σ.table.Alive k → σ.table.Ends l.1 l.2 k → (k = l.1 ∧ l.2 = .exit) ∨ σ.Childless k

instance (σ : Family) (l : Slot × Call) : Decidable (σ.Tidy l) :=
  inferInstanceAs (Decidable (∀ _, _))

/-- What holds of the parents throughout a tidy run. -/
structure Inv (σ : Family) : Prop where
  unused : ∀ k, (σ.table.proc k).state = .UNUSED → (σ.table.proc k).parent = none
  /-- A slot that has not been forked has no parent. -/
  other : ∀ k, (σ.table.proc k).state ≠ .UNUSED → σ.forkedBy k = none →
    (σ.table.proc k).parent = none
  /-- The parent of a process that has been forked is the creator, who is alive, or the first process. -/
  forked : ∀ k g, (σ.table.proc k).state ≠ .UNUSED → σ.forkedBy k = some g →
    ∃ p, (σ.table.proc k).parent = some p ∧
      ((σ.table.Alive p ∧ (σ.table.proc p).pid = g) ∨ p = σ.table.initproc)
  initUsed : (σ.table.proc σ.table.initproc).state ≠ .UNUSED
  initParent : (σ.table.proc σ.table.initproc).parent = none
  initMain : (σ.table.proc σ.table.initproc).mainThread = none

section Steps

variable {σ σ' : Family} {c : Slot} {a : Call}

/-- The first process is not freed. -/
theorem Inv.not_frees_init (h : Inv σ) (hf : σ.table.Frees c a σ.table.initproc) : False := by
  generalize hk : σ.table.initproc = k at hf
  have hparent := hk ▸ h.initParent
  have hmain := hk ▸ h.initMain
  cases hf with
  | child hp => cases hparent.symm.trans hp.parent
  | thread hp main => cases hmain.symm.trans main
  | joined hp => cases hmain.symm.trans hp.mainThread

variable {t : Ptable} {k : Slot} {r : Ret}

theorem forkedAfter_of_used (hused : (σ.table.proc k).state ≠ .UNUSED) :
    σ.forkedAfter c a t k = σ.forkedBy k := by
  rw [forkedAfter]
  split
  · cases hnp : σ.table.freeSlot with
    | none => rfl
    | some np =>
      refine update_of_ne ?_ ..
      rintro rfl
      exact hused (unused_of_freeSlot hnp)
  · rfl

theorem forkedAfter_self {np : Slot} (ha : a.allocates = true) (hfree : σ.table.freeSlot = some np) :
    σ.forkedAfter c a t np =
      if a = .fork ∧ (t.proc np).state = .RUNNABLE then some (σ.table.proc c).pid else none := by
  rw [forkedAfter, if_pos ha, hfree]
  exact update_self ..

/-- The parent of a slot that stays is passed to the first process, or stays. -/
theorem Inv.parent_after (h : Inv σ) (hmay : σ.table.MayCall c) (he : Ptable.Effect σ.table c a r t)
    (htidy : σ.Tidy (c, a)) {g : ℤ} (hused : (σ.table.proc k).state ≠ .UNUSED)
    (hid : Ptable.Stays σ.table t c a k) (hg : σ.forkedBy k = some g) :
    ∃ p, (t.proc k).parent = some p ∧ ((t.Alive p ∧ (t.proc p).pid = g) ∨ p = t.initproc) := by
  obtain ⟨p, hparent, hp⟩ := h.forked k g hused hg
  rw [hid.parent, he.initproc_eq]
  by_cases hexit : a = .exit ∧ (σ.table.proc k).parent = some c
  · rw [if_pos hexit]
    exact ⟨_, rfl, .inr rfl⟩
  · rw [if_neg hexit]
    refine ⟨p, hparent, ?_⟩
    rcases hp with ⟨halive, hpid⟩ | rfl
    · -- The parent is not ended: it has a child, and it is not the one who calls `exit`.
      have hnot : ¬σ.table.Ends c a p := by
        intro hends
        rcases htidy p halive hends with ⟨rfl, ha⟩ | hless
        · exact hexit ⟨ha, hparent⟩
        · exact hless k hused hparent
      obtain ⟨halive', hid'⟩ := (he.fate hmay.used p).alive_after halive hnot
      exact .inl ⟨halive', hid'.pid.trans hpid⟩
    · exact .inr rfl

/-- A slot that is free after a call has no parent. -/
theorem Inv.unused_after (h : Inv σ) (hmay : σ.table.MayCall c) (he : Ptable.Effect σ.table c a r t)
    (hk : (t.proc k).state = .UNUSED) : (t.proc k).parent = none :=
  (he.fate hmay.used k).parent_eq_none (S := (· = .UNUSED)) (fun _ ↦ .inl) rfl (h.unused k) hk

/-- A tidy call keeps the parents. -/
theorem Inv.effect (h : Inv σ) (hmay : σ.table.MayCall c) (he : Ptable.Effect σ.table c a r t)
    (htidy : σ.Tidy (c, a)) : Inv ⟨t, σ.forkedAfter c a t⟩ := by
  have hinit := he.fate hmay.used σ.table.initproc
  have hinitUsed : (t.proc σ.table.initproc).state ≠ .UNUSED ∧
      Ptable.Stays σ.table t c a σ.table.initproc := by
    cases hinit with
    | kept id state =>
      refine ⟨?_, id⟩
      rcases state with heq | ⟨-, hs⟩
      · rw [heq]
        exact h.initUsed
      · rw [hs]
        nofun
    | ended ends used id state =>
      refine ⟨?_, id⟩
      rw [state]
      nofun
    | freed ends state parent => exact (h.not_frees_init ends).elim
    | taken alloc free new => exact absurd (unused_of_freeSlot free) h.initUsed
  refine ⟨fun k hk ↦ h.unused_after hmay he hk, fun k hk hg ↦ ?_, fun k g hk hg ↦ ?_, ?_, ?_, ?_⟩
  · rcases (he.fate hmay.used k).used_before hk with ⟨hused, hid⟩ | ⟨ha, hfree, hslot⟩
    · have hnone := h.other k hused ((forkedAfter_of_used hused).symm.trans hg)
      rw [hid.parent, hnone, if_neg fun h ↦ nomatch h.2]
    · have hparent := h.unused k (unused_of_freeSlot hfree)
      replace hg : σ.forkedAfter c a t k = none := hg
      rw [forkedAfter_self ha hfree] at hg
      generalize t.proc k = q at hslot hg
      cases hslot with
      | wasted hw => cases hw <;> exact hparent
      | forked v d => cases hg
      | spawned v x b sz => exact hparent
  · rcases (he.fate hmay.used k).used_before hk with ⟨hused, hid⟩ | ⟨ha, hfree, hslot⟩
    · exact h.parent_after hmay he htidy hused hid ((forkedAfter_of_used hused).symm.trans hg)
    · replace hg : σ.forkedAfter c a t k = some g := hg
      rw [forkedAfter_self ha hfree] at hg
      generalize t.proc k = q at hslot hg
      cases hslot with
      | wasted hw => cases hw <;> exact nomatch (if_neg fun h ↦ nomatch h.2).symm.trans hg
      | forked v d =>
        obtain ⟨halive, hid⟩ := (he.fate hmay.used c).alive_after hmay.alive fun h ↦ h
        exact ⟨c, rfl, .inl ⟨halive, hid.pid.trans (Option.some.inj hg)⟩⟩
      | spawned v x b sz => exact nomatch (if_neg fun h ↦ nomatch h.1).symm.trans hg
  · rw [he.initproc_eq]
    exact hinitUsed.1
  · show (t.proc t.initproc).parent = none
    rw [he.initproc_eq, hinitUsed.2.parent, h.initParent, if_neg fun h ↦ nomatch h.2]
  · show (t.proc t.initproc).mainThread = none
    rw [he.initproc_eq, hinitUsed.2.mainThread, h.initMain, if_neg fun h ↦ nomatch h.2]

theorem Inv.step {l : Slot × Call} (h : Inv σ) (htidy : σ.Tidy l)
    (hstep : σ.step l = some (.ok σ')) : Inv σ' := by
  rw [Family.step] at hstep
  split at hstep
  next hmay =>
    split at hstep
    next r t hrun =>
      obtain rfl := Except.ok.inj (Option.some.inj hstep)
      exact h.effect hmay ((call_effect hmay.used).of_ok hrun r rfl) htidy
    · cases hstep
    · cases Option.some.inj hstep
  · cases hstep

theorem start_inv {freelist : List ℕ} {s : Ptable} (h : boot freelist = .ok s) : Inv (start s) := by
  obtain ⟨_, p, d, hbooted⟩ := userinit_sat.of_exec_ok h
  obtain ⟨v, hself⟩ := hbooted.self
  have hparent : ∀ k, (s.proc k).parent = none := by
    intro k
    rcases eq_or_ne k p with rfl | hk
    · rw [hself]
      rfl
    · rw [hbooted.other k hk]
      rfl
  refine ⟨fun k _ ↦ hparent k, fun k _ _ ↦ hparent k, fun k g _ hg ↦ (nomatch hg), ?_, hparent _, ?_⟩
  · show (s.proc s.initproc).state ≠ .UNUSED
    rw [hbooted.initproc, hself]
    nofun
  · show (s.proc s.initproc).mainThread = none
    rw [hbooted.initproc, hself]
    rfl

end Steps

end Family

end Xv6
