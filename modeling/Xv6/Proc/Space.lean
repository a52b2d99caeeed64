import Xv6.Proc.Reap
import Xv6.Proc.Spec

/-!
# The address space of a thread group

The threads of a group share one page directory, but each slot has a size of its own. `thread_create`
and `thread_join` write the size of the whole group, `growproc` only that of its caller. Here the
machine of `Xv6.Proc.Calls` is restricted to the calls of one group that change its address space, and
it keeps a record of the addresses that have been handed out: to a thread as its stack, until it is
joined, and by `sbrk`, until the size has been lowered below them.

The members agree, and no address is handed out twice, as long as `sbrk` is only called by the last
live member and takes no stack away from a thread that has not been joined, and `thread_join` finds a
thread of the group. Otherwise they need not (`sbrk_splits_group`): the sizes of the members part, and
the next call that allocates memory panics.
-/

namespace Xv6

open Prog Vm Function Ptable

/-- A range of addresses that has been handed out: as the stack of a thread, or by `sbrk`. -/
structure Handed where
  /-- The thread that has the range as its stack. -/
  thread : Option ℤ
  /-- The first address. -/
  lo : ℕ
  /-- The address after the last one. -/
  hi : ℕ
  deriving DecidableEq

namespace Handed

/-- Two ranges have no address in common. -/
def Apart (a b : Handed) : Prop := a.hi ≤ b.lo ∨ b.hi ≤ a.lo

/-- What is left of a range below `sz`. -/
def below (sz : ℕ) (a : Handed) : Option Handed :=
  if a.lo < min a.hi sz then some ⟨a.thread, a.lo, min a.hi sz⟩ else none

theorem below_eq_some {sz : ℕ} {a b : Handed} :
    a.below sz = some b ↔ a.lo < min a.hi sz ∧ b = ⟨a.thread, a.lo, min a.hi sz⟩ := by
  unfold below
  split
  next h => simp [h, eq_comm]
  next h => simp [h]

end Handed

namespace Ptable

/-- `k` is in use and belongs to the group `g`. -/
def InGroup (s : Ptable) (g : ℤ) (k : Slot) : Prop :=
  (s.proc k).state ≠ .UNUSED ∧ (s.proc k).ptid = g

/-- `k` is a live member of the group `g`. -/
def Live (s : Ptable) (g : ℤ) (k : Slot) : Prop :=
  (s.proc k).ptid = g ∧ ((s.proc k).state = .SLEEPING ∨ (s.proc k).state = .RUNNABLE ∨
    (s.proc k).state = .RUNNING)

/-- `k` is a thread of the group `g` that has not been joined. -/
def Thread (s : Ptable) (g : ℤ) (k : Slot) : Prop := s.InGroup g k ∧ (s.proc k).tFlag = true

instance (s : Ptable) (g : ℤ) (k : Slot) : Decidable (s.InGroup g k) :=
  inferInstanceAs (Decidable (_ ∧ _))

instance (s : Ptable) (g : ℤ) (k : Slot) : Decidable (s.Live g k) :=
  inferInstanceAs (Decidable (_ ∧ _))

instance (s : Ptable) (g : ℤ) (k : Slot) : Decidable (s.Thread g k) :=
  inferInstanceAs (Decidable (_ ∧ _))

theorem Live.inGroup {s : Ptable} {g : ℤ} {k : Slot} (h : s.Live g k) : s.InGroup g k := by
  refine ⟨fun hu ↦ ?_, h.1⟩
  rcases h.2 with h | h | h <;> rw [hu] at h <;> cases h

end Ptable

/-- A call that changes the address space of a group. -/
def Call.onSpace : Call → Bool
  | .threadCreate | .threadJoin _ | .threadExit _ | .sbrk _ => true
  | _ => false

/-- A process table, and the addresses that a group has been handed out and has not given back. -/
structure Group where
  /-- The table. -/
  table : Ptable
  /-- The addresses. -/
  handed : List Handed

namespace Group

/-- The addresses handed out after a call by `c` has returned `r` and left the table `t`. -/
def handedAfter (σ : Group) (c : Slot) (t : Ptable) : Call → Ret → List Handed
  | .sbrk n, .code addr =>
    if addr < 0 then
      σ.handed
    else if 0 < n.toInt then
      ⟨none, addr.toNat, addr.toNat + n.toInt.toNat⟩ :: σ.handed
    else
      σ.handed.filterMap (Handed.below (t.proc c).sz)
  | .threadCreate, .code r =>
    if r < 0 then
      σ.handed
    else
      ⟨some σ.table.nexttid, (σ.table.proc c).sz, (σ.table.proc c).sz + 2 * PGSIZE⟩ :: σ.handed
  | .threadJoin thread, .join _ => σ.handed.filter fun a ↦ a.thread ≠ some thread
  | _, _ => σ.handed

/-- A call by a member of the group `g`. -/
def step (g : ℤ) (σ : Group) (l : Slot × Call) : Option (Except Fault Group) :=
  if (σ.table.proc l.1).ptid = g ∧ l.2.onSpace = true ∧ σ.table.MayCall l.1 then
    match (Ptable.call l.1 l.2).run σ.table with
    | .ok (some r, t) => some (.ok ⟨t, σ.handedAfter l.1 t l.2 r⟩)
    | .ok (none, _) => none
    | .error e => some (.error e)
  else
    none

/-- The live members have the same page directory and size, and the ranges handed out have no
address in common. -/
structure Agree (g : ℤ) (σ : Group) : Prop where
  /-- They have the same page directory. -/
  pgdir : ∀ j k, σ.table.Live g j → σ.table.Live g k →
    (σ.table.proc j).pgdir = (σ.table.proc k).pgdir
  sz : ∀ j k, σ.table.Live g j → σ.table.Live g k → (σ.table.proc j).sz = (σ.table.proc k).sz
  apart : σ.handed.Pairwise Handed.Apart

/-- The condition under which a call by a member of the group `g` keeps the group together: `sbrk` is
called by the last live member, and takes no stack away from a thread that has not been joined;
`thread_join` reaps a thread of the group. -/
def Orderly (g : ℤ) (σ : Group) : Slot × Call → Prop
  | (c, .sbrk n) => n.toInt = 0 ∨ ((∀ k, σ.table.Live g k → k = c) ∧
      ∀ k, σ.table.Thread g k → ((σ.table.proc k).start : ℤ) ≤ (σ.table.proc c).sz + n.toInt)
  | (c, .threadJoin thread) => ∀ k, (σ.table.proc k).mainThread = some c →
      (σ.table.proc k).tid = thread → (σ.table.proc k).state = .ZOMBIE → σ.table.Thread g k
  | _ => True

instance (g : ℤ) (σ : Group) : ∀ l, Decidable (σ.Orderly g l)
  | (_, .sbrk _) => inferInstanceAs (Decidable (_ ∨ _))
  | (_, .threadJoin _) => inferInstanceAs (Decidable (∀ _, _))
  | (_, .fork) | (_, .exit) | (_, .wait) | (_, .kill _) | (_, .exec _) | (_, .threadCreate)
  | (_, .threadExit _) => .isTrue trivial

/-- The slot `c` is a process that has made no thread and got no memory yet, with page directory
`d`. -/
structure Fresh (σ : Group) (c : Slot) (d : ℕ) : Prop where
  tFlag : (σ.table.proc c).tFlag = false
  ptid : (σ.table.proc c).ptid = (σ.table.proc c).pid
  pid_lt : (σ.table.proc c).pid < σ.table.nextpid
  only : ∀ k, σ.table.InGroup (σ.table.proc c).pid k → k = c
  pgdir : (σ.table.proc c).pgdir = some d
  dir : (σ.table.mem.dir d).isSome
  sz_lt : (σ.table.proc c).sz < KERNBASE
  present : ∀ va, UserPage va → σ.table.mem.Present d va → va < (σ.table.proc c).sz
  handed : σ.handed = []

/-- The first process after a boot is a start of a group. -/
theorem fresh_of_booted {s : Ptable} {p : Slot} {d : ℕ} (h : s.Booted p d) : Fresh ⟨s, []⟩ p d := by
  obtain ⟨v, hp⟩ := h.self
  refine ⟨by rw [hp]; rfl, by rw [hp]; rfl, ?_, ?_, by rw [hp]; rfl, h.dir, ?_, ?_, rfl⟩
  · rw [hp, h.nextpid]
    exact (by decide : (1 : ℤ) < 2)
  · intro k hk
    by_contra hne
    refine hk.1 ?_
    rw [h.other k hne]
    rfl
  · rw [hp]
    exact (by decide : PGSIZE < KERNBASE)
  · intro va hva hpresent
    rw [h.present va hva hpresent, hp]
    exact PGSIZE_pos

/-! ### The invariant -/

/-- What holds of the slot of a thread of a group with page directory `d`. -/
structure Stacked (d : ℕ) (handed : List Handed) (m : Mem) (q : Proc) : Prop where
  stop_le : q.stop + 2 * PGSIZE ≤ q.start
  /-- Its stack has been handed out. -/
  stack : ⟨some q.tid, q.start - 2 * PGSIZE, q.start⟩ ∈ handed
  /-- Nothing else among its addresses has been handed out. -/
  alone : ∀ a ∈ handed, a.thread ≠ some q.tid → a.hi ≤ q.stop ∨ q.start ≤ a.lo
  /-- No page of the stacks that have been joined to it is left. -/
  absent : ∀ va, UserPage va → q.stop ≤ va → va + 2 * PGSIZE < q.start → ¬m.Present d va

/-- What holds of a group with page directory `d` and size `Z`. -/
structure Laid (g : ℤ) (d Z : ℕ) (σ : Group) : Prop where
  dir : (σ.table.mem.dir d).isSome
  lt : Z < KERNBASE
  pgdir : ∀ k, σ.table.InGroup g k → (σ.table.proc k).pgdir = some d
  sz : ∀ k, σ.table.Live g k → (σ.table.proc k).sz = Z
  pid : ∀ k, σ.table.InGroup g k → (σ.table.proc k).tFlag = false → (σ.table.proc k).pid = g
  nextpid : g < σ.table.nextpid
  present : ∀ va, UserPage va → σ.table.mem.Present d va → va < Z
  handed : ∀ a ∈ σ.handed, a.lo < a.hi ∧ a.hi ≤ Z
  apart : σ.handed.Pairwise Handed.Apart
  tid_lt : ∀ a ∈ σ.handed, ∀ thread, a.thread = some thread → thread < σ.table.nexttid
  /-- A thread has its own id. -/
  unique : ∀ j k, σ.table.Thread g j → σ.table.Thread g k →
    (σ.table.proc j).tid = (σ.table.proc k).tid → j = k
  stacked : ∀ k, σ.table.Thread g k → Stacked d σ.handed σ.table.mem (σ.table.proc k)

variable {g : ℤ} {d Z : ℕ} {σ : Group}

variable {c : Slot} {t : Ptable} {m : Mem} {sz : ℕ}

theorem Fresh.laid (h : Fresh σ c d) : Laid (σ.table.proc c).pid d (σ.table.proc c).sz σ := by
  have hthread : ∀ k, ¬σ.table.Thread (σ.table.proc c).pid k := by
    intro k hk
    obtain rfl := h.only k hk.1
    cases h.tFlag.symm.trans hk.2
  refine
    { dir := h.dir
      lt := h.sz_lt
      pgdir := fun k hk ↦ h.only k hk ▸ h.pgdir
      sz := fun k hk ↦ by rw [h.only k hk.inGroup]
      pid := fun k hk _ ↦ by rw [h.only k hk]
      nextpid := h.pid_lt
      present := h.present
      handed := ?_
      apart := ?_
      tid_lt := ?_
      unique := fun j _ hj ↦ absurd hj (hthread j)
      stacked := fun k hk ↦ absurd hk (hthread k) }
  · rw [h.handed]
    exact nofun
  · rw [h.handed]
    exact .nil
  · rw [h.handed]
    exact nofun

theorem Laid.agree (h : Laid g d Z σ) : Agree g σ :=
  ⟨fun j k hj hk ↦ (h.pgdir j hj.inGroup).trans (h.pgdir k hk.inGroup).symm,
    fun j k hj hk ↦ (h.sz j hj).trans (h.sz k hk).symm, h.apart⟩

/-- The stack of a thread lies below the size. -/
theorem Laid.start_le (h : Laid g d Z σ) {k : Slot} (hk : σ.table.Thread g k) :
    (σ.table.proc k).start ≤ Z := (h.handed _ (h.stacked k hk).stack).2

theorem Laid.tid_lt_nexttid (h : Laid g d Z σ) {k : Slot} (hk : σ.table.Thread g k) :
    (σ.table.proc k).tid < σ.table.nexttid := h.tid_lt _ (h.stacked k hk).stack _ rfl

/-- Two slots with the same part in the address space, up to its size and `end`. -/
structure SameMember (q q' : Proc) : Prop where
  pgdir : q'.pgdir = q.pgdir
  pid : q'.pid = q.pid
  tFlag : q'.tFlag = q.tFlag
  tid : q'.tid = q.tid
  start : q'.start = q.start

/-- A step after which no member is new. -/
theorem Laid.move {handed : List Handed} {Z' : ℕ} (h : Laid g d Z σ)
    (hin : ∀ k, t.InGroup g k → σ.table.InGroup g k ∧ SameMember (σ.table.proc k) (t.proc k))
    (hdir : (t.mem.dir d).isSome) (hlt : Z' < KERNBASE) (hpid : σ.table.nextpid ≤ t.nextpid)
    (hsz : ∀ k, t.Live g k → (t.proc k).sz = Z') (hpresent : ∀ va, UserPage va → t.mem.Present d va → va < Z')
    (hhanded : ∀ a ∈ handed, a.lo < a.hi ∧ a.hi ≤ Z') (hapart : handed.Pairwise Handed.Apart)
    (htid : ∀ a ∈ handed, ∀ thread, a.thread = some thread → thread < t.nexttid)
    (hstacked : ∀ k, t.Thread g k → σ.table.Thread g k → Stacked d handed t.mem (t.proc k)) :
    Laid g d Z' ⟨t, handed⟩ := by
  have hthread : ∀ k, t.Thread g k → σ.table.Thread g k := by
    intro k hk
    obtain ⟨hin, hsame⟩ := hin k hk.1
    exact ⟨hin, hsame.tFlag ▸ hk.2⟩
  refine ⟨hdir, hlt, fun k hk ↦ (hin k hk).2.pgdir.trans (h.pgdir k (hin k hk).1), hsz, fun k hk hflag ↦ ?_,
    h.nextpid.trans_le hpid, hpresent, hhanded, hapart, htid, fun j k hj hk heq ↦ ?_,
    fun k hk ↦ hstacked k hk (hthread k hk)⟩
  · obtain ⟨hin, hsame⟩ := hin k hk
    exact hsame.pid.trans (h.pid k hin (hsame.tFlag ▸ hflag))
  · rw [(hin j hj.1).2.tid, (hin k hk.1).2.tid] at heq
    exact h.unique j k (hthread j hj) (hthread k hk) heq

/-- A step after which no member is new, and no page of the group, keeps the invariant. -/
theorem Laid.frame (h : Laid g d Z σ)
    (hin : ∀ k, t.InGroup g k → σ.table.InGroup g k ∧ SameMember (σ.table.proc k) (t.proc k) ∧
      (t.proc k).sz = (σ.table.proc k).sz ∧ (t.proc k).stop = (σ.table.proc k).stop)
    (hlive : ∀ k, t.Live g k → σ.table.Live g k) (hdir : (t.mem.dir d).isSome)
    (hpresent : ∀ va, UserPage va → t.mem.Present d va → σ.table.mem.Present d va)
    (hpid : σ.table.nextpid ≤ t.nextpid) (htid : t.nexttid = σ.table.nexttid) : Laid g d Z ⟨t, σ.handed⟩ := by
  refine h.move (fun k hk ↦ ⟨(hin k hk).1, (hin k hk).2.1⟩) hdir h.lt hpid
    (fun k hk ↦ (hin k hk.inGroup).2.2.1.trans (h.sz k (hlive k hk)))
    (fun va hva hp ↦ h.present va hva (hpresent va hva hp)) h.handed h.apart (by rw [htid]; exact h.tid_lt) ?_
  intro k hk hk'
  obtain ⟨-, hsame, -, hstop⟩ := hin k hk.1
  obtain ⟨hle, hstack, halone, habsent⟩ := h.stacked k hk'
  rw [← hstop, ← hsame.start] at hle halone habsent
  rw [← hsame.tid, ← hsame.start] at hstack
  rw [← hsame.tid] at halone
  exact ⟨hle, hstack, halone, fun va hva h1 h2 hp ↦ habsent va hva h1 h2 (hpresent va hva hp)⟩

/-! ### The calls -/

section

variable (h : Laid g d Z σ)

include h

/-- A call that has allocated a slot in vain. -/
theorem Laid.failed (hfail : Ptable.Failed σ.table t) (hdir : (t.mem.dir d).isSome)
    (hpresent : ∀ va, UserPage va → t.mem.Present d va → σ.table.mem.Present d va) :
    Laid g d Z ⟨t, σ.handed⟩ := by
  -- A slot that has been spoiled has a new number.
  have hsame : ∀ k, (t.proc k).ptid = g → t.proc k = σ.table.proc k := by
    intro k hk
    rcases hfail.proc k with h' | h'
    · exact h'
    · have := h.nextpid
      rw [h'.2] at hk
      omega
  refine h.frame ?_ ?_ hdir hpresent hfail.nextpid hfail.nexttid
  · intro k hk
    have hk' := hsame k hk.2
    rw [Ptable.InGroup, hk'] at hk
    rw [hk']
    exact ⟨hk, ⟨rfl, rfl, rfl, rfl, rfl⟩, rfl, rfl⟩
  · intro k hk
    have hk' := hsame k hk.1
    exact ⟨hk' ▸ hk.1, hk' ▸ hk.2⟩

/-- `thread_exit`. -/
theorem Laid.threadExited {v : ℕ} (hc : σ.table.InGroup g c)
    (hexit : Ptable.ThreadExited σ.table t c v) : Laid g d Z ⟨t, σ.handed⟩ := by
  have hptid : ∀ k, (t.proc k).ptid = (σ.table.proc k).ptid := by
    intro k
    rw [hexit.frame k]
    rfl
  refine h.frame ?_ ?_ (by rw [hexit.only.mem]; exact h.dir) ?_ hexit.only.nextpid.ge
    hexit.only.nexttid
  · intro k hk
    refine ⟨?_, by rw [hexit.frame k]; exact ⟨⟨rfl, rfl, rfl, rfl, rfl⟩, rfl, rfl⟩⟩
    rcases eq_or_ne k c with rfl | hne
    · exact hc
    · refine ⟨fun hu ↦ ?_, hptid k ▸ hk.2⟩
      rcases hexit.state k hne with hs | ⟨hs, -⟩
      · exact hk.1 (hs.trans hu)
      · cases hs.symm.trans hu
  · intro k hk
    have hne : k ≠ c := by
      rintro rfl
      rcases hk.2 with h | h | h <;> cases hexit.zombie.symm.trans h
    refine ⟨hptid k ▸ hk.1, ?_⟩
    rcases hexit.state k hne with hs | ⟨hs, -⟩
    · exact hs ▸ hk.2
    · exact .inl hs
  · intro va _ hp
    rwa [hexit.only.mem] at hp

variable (hc : σ.table.Live g c)

include hc

/-- `thread_create` that has made a thread. -/
theorem Laid.created {np : Slot} (hnew : Ptable.Created σ.table t c np d) : Laid g d (Z + 2 * PGSIZE)
      ⟨t, ⟨some σ.table.nexttid, Z, Z + 2 * PGSIZE⟩ :: σ.handed⟩ := by
  have hsz := h.sz c hc
  have hptid : (σ.table.proc c).ptid = g := hc.1
  have hpos : 0 < 2 * PGSIZE := by decide
  have hpages := hnew.pages
  have hlt := hnew.lt
  have hstart := hnew.start
  have hstop := hnew.stop
  rw [hsz] at hpages hlt hstart hstop
  -- The members that are not new.
  have hother : ∀ k, k ≠ np → t.proc k = if (σ.table.proc k).ptid = g
      then (σ.table.proc k).setSz (Z + 2 * PGSIZE) else σ.table.proc k := by
    intro k hk
    rw [hnew.other k hk, hptid, hsz]
  have hold : ∀ k, k ≠ np → t.InGroup g k → σ.table.InGroup g k ∧
      t.proc k = (σ.table.proc k).setSz (Z + 2 * PGSIZE) := by
    intro k hk hin
    have heq := hother k hk
    split at heq
    next h' =>
      refine ⟨⟨?_, h'⟩, heq⟩
      have := hin.1
      rwa [heq] at this
    next h' =>
      rw [Ptable.InGroup, heq] at hin
      exact absurd hin.2 h'
  have hthread : ∀ k, k ≠ np → t.Thread g k → σ.table.Thread g k ∧
      t.proc k = (σ.table.proc k).setSz (Z + 2 * PGSIZE) := by
    intro k hk hth
    obtain ⟨hin, heq⟩ := hold k hk hth.1
    refine ⟨⟨hin, ?_⟩, heq⟩
    have := hth.2
    rwa [heq] at this
  refine
    { dir := by rw [hpages.dir]; exact h.dir
      lt := hlt
      pgdir := ?_
      sz := ?_
      pid := ?_
      nextpid := by rw [hnew.nextpid]; have := h.nextpid; omega
      present := ?_
      handed := ?_
      apart := ?_
      tid_lt := ?_
      unique := ?_
      stacked := ?_ }
  · intro k hk
    rcases eq_or_ne k np with rfl | hne
    · exact hnew.pgdir
    · obtain ⟨hin, heq⟩ := hold k hne hk
      rw [heq]
      exact h.pgdir k hin
  · intro k hk
    rcases eq_or_ne k np with rfl | hne
    · rw [hnew.sz, hsz]
    · rw [(hold k hne hk.inGroup).2]
      rfl
  · intro k hk hflag
    rcases eq_or_ne k np with rfl | hne
    · cases hnew.tFlag.symm.trans hflag
    · obtain ⟨hin, heq⟩ := hold k hne hk
      rw [heq] at hflag ⊢
      exact h.pid k hin hflag
  · intro va hva hp
    by_contra hge
    have hp' := (hpages.present d va hva (.inr fun h' ↦ hge h'.2)).1 hp
    have := h.present va hva hp'
    omega
  · intro a ha
    rcases List.mem_cons.1 ha with rfl | ha
    · exact ⟨Nat.lt_add_of_pos_right hpos, le_rfl⟩
    · obtain ⟨h1, h2⟩ := h.handed a ha
      exact ⟨h1, by omega⟩
  · exact List.pairwise_cons.2 ⟨fun a ha ↦ .inr (h.handed a ha).2, h.apart⟩
  · intro a ha thread hthread
    rw [hnew.nexttid]
    rcases List.mem_cons.1 ha with rfl | ha
    · have := Option.some.inj hthread
      omega
    · have := h.tid_lt a ha thread hthread
      omega
  · intro j k hj hk htid
    by_cases hjne : j = np
    · by_cases hkne : k = np
      · rw [hjne, hkne]
      · obtain ⟨hk', heq⟩ := hthread k hkne hk
        have := h.tid_lt_nexttid hk'
        rw [hjne, hnew.tid, heq] at htid
        exact absurd htid.symm this.ne
    · obtain ⟨hj', hjeq⟩ := hthread j hjne hj
      by_cases hkne : k = np
      · have := h.tid_lt_nexttid hj'
        rw [hkne, hnew.tid, hjeq] at htid
        exact absurd htid this.ne
      · obtain ⟨hk', hkeq⟩ := hthread k hkne hk
        rw [hjeq, hkeq] at htid
        exact h.unique j k hj' hk' htid
  · intro k hk
    rcases eq_or_ne k np with rfl | hne
    · refine ⟨by rw [hstart, hstop], ?_, fun a ha htid ↦ ?_, fun va hva h1 h2 ↦ ?_⟩
      · rw [hnew.tid, hstart, Nat.add_sub_cancel]
        exact List.mem_cons_self
      · rcases List.mem_cons.1 ha with rfl | ha
        · exact absurd (congrArg some hnew.tid).symm htid
        · exact .inl (hstop ▸ (h.handed a ha).2)
      · rw [hstart] at h2
        rw [hstop] at h1
        omega
    · obtain ⟨hk', heq⟩ := hthread k hne hk
      obtain ⟨hle, hstack, halone, habsent⟩ := h.stacked k hk'
      have hstart := h.start_le hk'
      rw [heq]
      refine ⟨hle, List.mem_cons_of_mem _ hstack, fun a ha htid ↦ ?_, fun va hva h1 h2 hp ↦ ?_⟩
      · rcases List.mem_cons.1 ha with rfl | ha
        · exact .inr hstart
        · exact halone a ha htid
      · have hlt' : va + 2 * PGSIZE < (σ.table.proc k).start := h2
        exact habsent va hva h1 h2 ((hpages.present d va hva (.inr fun h' ↦ by omega)).1 hp)

section

variable (honly : ∀ k, σ.table.Live g k → k = c)

include honly

/-- `growproc` by the last live member, for any new size and any record of what has been handed out
that fits to it. -/
theorem Laid.resized {handed : List Handed} (hlt : sz < KERNBASE) (hdir : (m.dir d).isSome)
    (hpresent : ∀ va, UserPage va → m.Present d va → va < sz)
    (hold : ∀ va, UserPage va → va < Z → m.Present d va → σ.table.mem.Present d va)
    (hhanded : ∀ a ∈ handed, a.lo < a.hi ∧ a.hi ≤ sz) (hapart : handed.Pairwise Handed.Apart)
    (htid : ∀ a ∈ handed, ∀ thread, a.thread = some thread → thread < σ.table.nexttid)
    (hstack : ∀ k, σ.table.Thread g k → ⟨some (σ.table.proc k).tid,
      (σ.table.proc k).start - 2 * PGSIZE, (σ.table.proc k).start⟩ ∈ handed)
    (halone : ∀ k, σ.table.Thread g k → ∀ a ∈ handed, a.thread ≠ some (σ.table.proc k).tid →
      a.hi ≤ (σ.table.proc k).stop ∨ (σ.table.proc k).start ≤ a.lo) :
    Laid g d sz ⟨(σ.table.setMem m).setProc c ((σ.table.proc c).setSz sz), handed⟩ := by
  -- Every slot keeps all its fields but its size, and the other sizes stay.
  have hproc : ∀ k, ∃ z, ((σ.table.setMem m).setProc c ((σ.table.proc c).setSz sz)).proc k =
      (σ.table.proc k).setSz z ∧ (k = c → z = sz) := by
    intro k
    rcases eq_or_ne k c with rfl | hne
    · exact ⟨sz, update_self .., fun _ ↦ rfl⟩
    · exact ⟨(σ.table.proc k).sz, update_of_ne hne .., fun h ↦ absurd h hne⟩
  refine h.move (fun k hk ↦ ?_) hdir hlt le_rfl (fun k hk ↦ ?_) hpresent hhanded hapart htid fun k _ hk ↦ ?_
  · obtain ⟨z, hz, -⟩ := hproc k
    rw [Ptable.InGroup, hz] at hk
    rw [hz]
    exact ⟨hk, rfl, rfl, rfl, rfl, rfl⟩
  · obtain ⟨z, hz, hkc⟩ := hproc k
    rw [Ptable.Live, hz] at hk
    rw [hz]
    exact hkc (honly k hk)
  · obtain ⟨z, hz, -⟩ := hproc k
    have hle := h.start_le hk
    rw [hz]
    refine ⟨(h.stacked k hk).stop_le, hstack k hk, halone k hk, fun va hva h1 h2 hp ↦ ?_⟩
    have hlt' : va + 2 * PGSIZE < (σ.table.proc k).start := h2
    exact (h.stacked k hk).absent va hva h1 h2 (hold va hva (by omega) hp)

/-- `sbrk` that has added memory. -/
theorem Laid.grown
    (hZ : Z < sz) (hlt : sz < KERNBASE) (hpages : Pages σ.table.mem m d fun va ↦ Z ≤ va ∧ va < sz) :
    Laid g d sz ⟨(σ.table.setMem m).setProc c ((σ.table.proc c).setSz sz),
      ⟨none, Z, sz⟩ :: σ.handed⟩ := by
  refine h.resized hc honly hlt (hpages.dir d ▸ h.dir) ?_ ?_ ?_ ?_ ?_ ?_ ?_
  · intro va hva hp
    by_contra hge
    have := h.present va hva ((hpages.present d va hva (.inr fun h' ↦ hge h'.2)).1 hp)
    omega
  · intro va hva hlt' hp
    exact (hpages.present d va hva (.inr fun h' ↦ absurd h'.1 (by omega))).1 hp
  · intro a ha
    rcases List.mem_cons.1 ha with rfl | ha
    · exact ⟨hZ, le_rfl⟩
    · obtain ⟨h1, h2⟩ := h.handed a ha
      exact ⟨h1, by omega⟩
  · exact List.pairwise_cons.2 ⟨fun a ha ↦ .inr (h.handed a ha).2, h.apart⟩
  · intro a ha thread hthread
    rcases List.mem_cons.1 ha with rfl | ha
    · cases hthread
    · exact h.tid_lt a ha thread hthread
  · intro k hk
    exact List.mem_cons_of_mem _ (h.stacked k hk).stack
  · intro k hk a ha htid
    rcases List.mem_cons.1 ha with rfl | ha
    · exact .inr (h.start_le hk)
    · exact (h.stacked k hk).alone a ha htid

/-- `sbrk` that has given memory back: the size is lowered to `sz`, and no thread has its stack
above. -/
theorem Laid.shrunk (hZ : sz ≤ Z) (hstart : ∀ k, σ.table.Thread g k → (σ.table.proc k).start ≤ sz)
    (hpages : Pages σ.table.mem m d fun va ↦ sz ≤ va ∧ va < Z)
    (habsent : ∀ va, UserPage va → sz ≤ va → va < Z → ¬m.Present d va) :
    Laid g d sz ⟨(σ.table.setMem m).setProc c ((σ.table.proc c).setSz sz),
      σ.handed.filterMap (Handed.below sz)⟩ := by
  have hold : ∀ va, UserPage va → m.Present d va → σ.table.mem.Present d va := by
    intro va hva hp
    refine (hpages.present d va hva (.inr fun h' ↦ ?_)).1 hp
    exact habsent va hva h'.1 h'.2 hp
  -- What is left of a range is a part of it.
  have hcut : ∀ a ∈ σ.handed.filterMap (Handed.below sz), ∃ b ∈ σ.handed,
      a.thread = b.thread ∧ a.lo = b.lo ∧ a.hi = min b.hi sz ∧ a.lo < a.hi := by
    intro a ha
    obtain ⟨b, hb, hba⟩ := List.mem_filterMap.1 ha
    obtain ⟨hlt, rfl⟩ := Handed.below_eq_some.1 hba
    exact ⟨b, hb, rfl, rfl, rfl, hlt⟩
  refine h.resized hc honly (hZ.trans_lt h.lt) (hpages.dir d ▸ h.dir) ?_ (fun va hva _ ↦ hold va hva)
    ?_ ?_ ?_ ?_ ?_
  · intro va hva hp
    by_contra hge
    exact habsent va hva (Nat.le_of_not_lt hge) (h.present va hva (hold va hva hp)) hp
  · intro a ha
    obtain ⟨b, -, -, -, hhi, hlt⟩ := hcut a ha
    exact ⟨hlt, hhi ▸ Nat.min_le_right ..⟩
  · refine h.apart.filterMap _ ?_
    intro a b hab a' ha' b' hb'
    obtain ⟨-, rfl⟩ := Handed.below_eq_some.1 ha'
    obtain ⟨-, rfl⟩ := Handed.below_eq_some.1 hb'
    exact hab.imp (fun h ↦ (Nat.min_le_left ..).trans h) (fun h ↦ (Nat.min_le_left ..).trans h)
  · intro a ha thread hthread
    obtain ⟨b, hb, hth, -⟩ := hcut a ha
    exact h.tid_lt b hb thread (hth ▸ hthread)
  · intro k hk
    refine List.mem_filterMap.2 ⟨_, (h.stacked k hk).stack, Handed.below_eq_some.2 ?_⟩
    have hmin : min (σ.table.proc k).start sz = (σ.table.proc k).start :=
      Nat.min_eq_left (hstart k hk)
    have hlt := (h.handed _ (h.stacked k hk).stack).1
    exact ⟨hmin.symm ▸ hlt, by rw [hmin]⟩
  · intro k hk a ha htid
    obtain ⟨b, hb, hth, hlo, hhi, -⟩ := hcut a ha
    rcases (h.stacked k hk).alone b hb (hth ▸ htid) with h' | h'
    · exact .inl (hhi ▸ (Nat.min_le_left ..).trans h')
    · exact .inr (hlo ▸ h')

end

/-- `thread_join` that has reaped a thread of the group. -/
theorem Laid.joined {p : Slot} (hp : σ.table.Thread g p)
    (hzombie : (σ.table.proc p).state = .ZOMBIE) (hjoin : Ptable.Joined σ.table t c p) :
    ∃ Z', Laid g d Z' ⟨t, σ.handed.filter fun a ↦ a.thread ≠ some (σ.table.proc p).tid⟩ := by
  have hptid : (σ.table.proc c).ptid = g := hc.1
  have hcp : c ≠ p := by
    rintro rfl
    rcases hc.2 with h | h | h <;> cases hzombie.symm.trans h
  obtain ⟨hstop, -, halone, habsent⟩ := h.stacked p hp
  have hstart := h.start_le hp
  have hpos : 0 < 2 * PGSIZE := by decide
  have hlt := h.lt
  obtain ⟨hpages, hgone⟩ := hjoin.pages (h.pgdir p hp.1) h.dir (by omega) (by omega)
  -- Of the addresses of the thread no page is left.
  have hold : ∀ va, UserPage va → t.mem.Present d va → σ.table.mem.Present d va ∧
      ¬((σ.table.proc p).stop ≤ va ∧ va < (σ.table.proc p).start) := by
    intro va hva hpres
    have hnot : ¬((σ.table.proc p).start - 2 * PGSIZE ≤ va ∧ va < (σ.table.proc p).start) :=
      fun h' ↦ hgone va hva h'.1 h'.2 hpres
    have hpres' := (hpages.present d va hva (.inr hnot)).1 hpres
    refine ⟨hpres', fun h' ↦ habsent va hva h'.1 ?_ hpres'⟩
    have : va < (σ.table.proc p).start - 2 * PGSIZE := Nat.lt_of_not_le fun hle ↦ hnot ⟨hle, h'.2⟩
    omega
  -- The other members.
  have hin : ∀ k, t.InGroup g k → k ≠ p ∧ σ.table.InGroup g k := by
    intro k hk
    have hne : k ≠ p := by
      rintro rfl
      refine hk.1 ?_
      rw [hjoin.self]
      rfl
    rw [Ptable.InGroup, hjoin.other k hne] at hk
    exact ⟨hne, hk⟩
  have hmerged : ∀ k, k ≠ p → (t.proc k).stop = (σ.table.proc k).stop ∨
      ((σ.table.proc k).stop = (σ.table.proc p).start ∧ (t.proc k).stop = (σ.table.proc p).stop) := by
    intro k hk
    rw [hjoin.other k hk]
    unfold stopAfterJoin
    split
    next hmerged => exact .inr ⟨stop_of_merged hmerged, rfl⟩
    · exact .inl rfl
  -- The other ranges that have been handed out do not meet the addresses of the thread.
  have hrest : ∀ a ∈ σ.handed.filter fun a ↦ a.thread ≠ some (σ.table.proc p).tid, a ∈ σ.handed ∧
      a.thread ≠ some (σ.table.proc p).tid ∧
        (a.hi ≤ (σ.table.proc p).stop ∨ (σ.table.proc p).start ≤ a.lo) := by
    intro a ha
    obtain ⟨ha, hne⟩ := List.mem_filter.1 ha
    rw [decide_eq_true_iff] at hne
    exact ⟨ha, hne, halone a ha hne⟩
  -- The size is lowered if the thread lies at the edge.
  refine ⟨if σ.table.AtEdge c p then (σ.table.proc p).stop else Z, ?_⟩
  have hedge : σ.table.AtEdge c p → (σ.table.proc p).start = Z := by
    intro he
    rw [Ptable.AtEdge, if_neg hcp, h.sz c hc] at he
    exact he
  have hle : (if σ.table.AtEdge c p then (σ.table.proc p).stop else Z) ≤ Z := by
    split
    · omega
    · exact le_rfl
  refine h.move (fun k hk ↦ ?_) (hpages.dir d ▸ h.dir) (hle.trans_lt hlt) hjoin.nextpid.ge (fun k hk ↦ ?_)
    (fun va hva hpres ↦ ?_) (fun a ha ↦ ?_) (h.apart.filter _) (fun a ha thread hth ↦ ?_) fun k hk hk' ↦ ?_
  · obtain ⟨hne, hk'⟩ := hin k hk
    rw [hjoin.other k hne]
    exact ⟨hk', rfl, rfl, rfl, rfl, rfl⟩
  · obtain ⟨hne, hk'⟩ := hin k hk.inGroup
    have hlive : σ.table.Live g k := by
      rwa [Ptable.Live, hjoin.other k hne] at hk
    rw [hjoin.other k hne]
    unfold szAfterJoin
    refine if_congr (and_iff_left ⟨hk'.1, ?_⟩) rfl (h.sz k hlive)
    rw [hptid]
    exact hk'.2
  · obtain ⟨hpres', hnot⟩ := hold va hva hpres
    have := h.present va hva hpres'
    split
    next he =>
      have := hedge he
      omega
    · exact this
  · obtain ⟨ha, -, hor⟩ := hrest a ha
    obtain ⟨h1, h2⟩ := h.handed a ha
    refine ⟨h1, ?_⟩
    split
    next he =>
      have := hedge he
      omega
    · exact h2
  · rw [hjoin.nexttid]
    exact h.tid_lt a (hrest a ha).1 thread hth
  · have hne := (hin k hk.1).1
    obtain ⟨hle, hstack, halone, habsent⟩ := h.stacked k hk'
    obtain ⟨htid, hst⟩ : (t.proc k).tid = (σ.table.proc k).tid ∧ (t.proc k).start = (σ.table.proc k).start := by
      rw [hjoin.other k hne]
      exact ⟨rfl, rfl⟩
    have hor := hmerged k hne
    refine ⟨?_, ?_, fun a ha hnot ↦ ?_, fun va hva h1 h2 hpres ↦ ?_⟩
    · omega
    · rw [htid, hst]
      refine List.mem_filter.2 ⟨hstack, decide_eq_true fun heq ↦ hne ?_⟩
      exact h.unique k p hk' hp (Option.some.inj heq)
    · obtain ⟨ha', hnep, hor'⟩ := hrest a ha
      have := halone a ha' (htid ▸ hnot)
      have hlt' := (h.handed a ha').1
      omega
    · obtain ⟨hpres', hnot⟩ := hold va hva hpres
      exact habsent va hva (by omega) (hst ▸ h2) hpres'

end

/-! ### Runs -/

/-- What a call that keeps to the condition does to a group: the invariant holds afterwards, for some
size, and no page is mapped twice. -/
def CallKeeps (g : ℤ) (d : ℕ) (σ : Group) (c : Slot) (a : Call) : Prop :=
  (Ptable.call c a).Sat σ.table
    (fun r t ↦ ∀ r', r = some r' → ∃ Z, Laid g d Z ⟨t, σ.handedAfter c t a r'⟩)
    fun e ↦ e ≠ .panic .remap

/-- A fault of a call that allocates memory: it is not `remap`, since no page lies above the size. -/
theorem Laid.ne_remap {e : Fault} (h : Laid g d Z σ) (hc : σ.table.Live g c)
    (he : Ptable.OtherFault e ∨ (e = .panic .remap ∧
      ∃ va, UserPage va ∧ (σ.table.proc c).sz ≤ va ∧ σ.table.mem.Present d va)) : e ≠ .panic .remap := by
  rcases he with he | ⟨-, va, hva, hle, hp⟩
  · exact he.1
  · have := h.present va hva hp
    rw [h.sz c hc] at hle
    omega

theorem Laid.threadCreate (h : Laid g d Z σ) (hc : σ.table.Live g c) : CallKeeps g d σ c .threadCreate := by
  have hsat := threadCreate_sat (h.pgdir c hc.inGroup) h.dir hc.inGroup.1
    fun hflag ↦ (h.pid c hc.inGroup hflag).trans hc.1.symm
  refine sat_bind.2 (hsat.mono ?_ fun e he ↦ h.ne_remap hc he)
  intro r t hr
  cases hr with
  | created hnew =>
    rintro _ ⟨⟩
    have hlaid := h.created hc hnew
    rw [← h.sz c hc] at hlaid
    exact ⟨_, hlaid⟩
  | failed hfail hpages hpresent =>
    rintro _ ⟨⟩
    exact ⟨Z, h.failed hfail (hpages.dir d ▸ h.dir) hpresent⟩

theorem Laid.threadExit {v : ℕ} (h : Laid g d Z σ) (hc : σ.table.Live g c) :
    CallKeeps g d σ c (.threadExit v) := by
  refine sat_bind.2 (threadExit_sat.imp ?_)
  rintro _ t hexit _ ⟨⟩
  exact ⟨Z, h.threadExited hc.inGroup hexit⟩

theorem Laid.threadJoin {thread : ℤ} (h : Laid g d Z σ) (hc : σ.table.Live g c)
    (hord : Orderly g σ (c, .threadJoin thread)) : CallKeeps g d σ c (.threadJoin thread) := by
  refine sat_bind.2 (threadJoin_sat.mono ?_ ?_)
  · intro r t hr
    cases hr with
    | found hp hjoin =>
      rintro _ ⟨⟩
      obtain ⟨Z', hlaid⟩ :=
        h.joined hc (hord _ hp.mainThread hp.tid hp.zombie) hp.zombie hjoin
      rw [hp.tid] at hlaid
      exact ⟨Z', hlaid⟩
    | none _ =>
      rintro _ ⟨⟩
      exact ⟨Z, h⟩
    | sleep _ _ _ _ => exact nofun
  · rintro e (rfl | rfl)
    all_goals exact nofun

/-- Without a change of the size, nothing is cut off. -/
theorem Laid.uncut (h : Laid g d Z σ) (hc : σ.table.Live g c) :
    ⟨σ.table, σ.handed.filterMap (Handed.below (σ.table.proc c).sz)⟩ = σ := by
  have hcut : σ.handed.filterMap (Handed.below (σ.table.proc c).sz) = σ.handed.filterMap some := by
    refine List.filterMap_congr fun a ha ↦ Handed.below_eq_some.2 ?_
    obtain ⟨hlt, hle⟩ := h.handed a ha
    have hmin : min a.hi (σ.table.proc c).sz = a.hi := by
      rw [h.sz c hc]
      exact Nat.min_eq_left hle
    rw [hmin]
    exact ⟨hlt, rfl⟩
  rw [hcut, List.filterMap_some]

theorem handedAfter_sbrk (σ : Group) (c : Slot) (t : Ptable) (n : BitVec 32) (addr : ℤ) :
    σ.handedAfter c t (.sbrk n) (.code addr) = if addr < 0 then σ.handed
      else if 0 < n.toInt then ⟨none, addr.toNat, addr.toNat + n.toInt.toNat⟩ :: σ.handed
      else σ.handed.filterMap (Handed.below (t.proc c).sz) := rfl

theorem Laid.sbrk {n : BitVec 32} (h : Laid g d Z σ) (hc : σ.table.Live g c) (hord : Orderly g σ (c, .sbrk n)) :
    CallKeeps g d σ c (.sbrk n) := by
  have hsz := h.sz c hc
  have hn : -2147483648 ≤ n.toInt ∧ n.toInt < 2147483648 :=
    ⟨BitVec.le_toInt n, BitVec.toInt_lt⟩
  unfold CallKeeps call
  rw [sat_get_bind]
  refine sat_bind.2 ((growproc_sat (h.pgdir c hc.inGroup) h.dir (hsz ▸ h.lt) hn).mono ?_
    fun e he ↦ h.ne_remap hc he)
  intro r t hr
  cases hr with
  | @grown m sz hpos hnew hlt hpages _ =>
    rintro _ ⟨⟩
    obtain ⟨honly, -⟩ := hord.resolve_left hpos.ne'
    have haddr : ¬((σ.table.proc c).sz : ℤ) < 0 := by omega
    rw [hsz] at hpages
    have hlaid := h.grown hc honly (by omega) hlt hpages
    have hhi : ((σ.table.proc c).sz : ℤ).toNat + n.toInt.toNat = sz := by omega
    refine ⟨sz, ?_⟩
    rw [handedAfter_sbrk, if_neg haddr, if_pos hpos, hhi, Int.toNat_natCast, hsz]
    exact hlaid
  | failed _ hpages hpresent =>
    rintro _ ⟨⟩
    exact ⟨Z, h.frame (fun k hk ↦ ⟨hk, ⟨rfl, rfl, rfl, rfl, rfl⟩, rfl, rfl⟩) (fun k hk ↦ hk) (hpages.dir d ▸ h.dir) hpresent
      le_rfl rfl⟩
  | @shrunk m sz hneg hnew hpos hpages habsent =>
    rintro _ ⟨⟩
    obtain ⟨honly, hstart⟩ := hord.resolve_left hneg.ne
    have haddr : ¬((σ.table.proc c).sz : ℤ) < 0 := by omega
    rw [hsz] at hpages habsent
    have hlaid := h.shrunk hc honly (by omega) (fun k hk ↦ ?_) hpages habsent
    · refine ⟨sz, ?_⟩
      rw [handedAfter_sbrk, if_neg haddr, if_neg (by omega), setProc_proc, update_self]
      exact hlaid
    · have := hstart k hk
      omega
  | emptied _ _ hpages habsent =>
    rintro _ ⟨⟩
    refine ⟨Z, h.frame (fun k hk ↦ ⟨hk, ⟨rfl, rfl, rfl, rfl, rfl⟩, rfl, rfl⟩) (fun k hk ↦ hk) (hpages.dir d ▸ h.dir) ?_
      le_rfl rfl⟩
    intro va hva hp
    exact (hpages.present d va hva (.inr fun hlt ↦ habsent va hva hlt hp)).1 hp
  | same hor =>
    have hnpos : ¬0 < n.toInt := by omega
    split
    · rintro _ ⟨⟩
      exact ⟨Z, h⟩
    · rintro _ ⟨⟩
      have haddr : ¬((σ.table.proc c).sz : ℤ) < 0 := by omega
      refine ⟨Z, ?_⟩
      rw [handedAfter_sbrk, if_neg haddr, if_neg hnpos, h.uncut hc]
      exact h

/-- One call that keeps to the condition. -/
theorem Laid.call {a : Call} (h : Laid g d Z σ) (hptid : (σ.table.proc c).ptid = g) (ha : a.onSpace = true)
    (hmay : σ.table.MayCall c) (hord : Orderly g σ (c, a)) : CallKeeps g d σ c a := by
  have hc : σ.table.Live g c := ⟨hptid, .inr hmay⟩
  cases a with
  | threadCreate => exact h.threadCreate hc
  | threadExit v => exact h.threadExit hc
  | threadJoin thread => exact h.threadJoin hc hord
  | sbrk n => exact h.sbrk hc hord
  | fork | exit | wait | kill _ | exec _ => cases ha

/-- A step that keeps to the condition keeps the invariant. -/
theorem Laid.step {σ' : Group} {l : Slot × Call} (h : Laid g d Z σ) (hord : Orderly g σ l)
    (hstep : Group.step g σ l = some (.ok σ')) : ∃ Z', Laid g d Z' σ' := by
  unfold Group.step at hstep
  split at hstep
  next hguard =>
    obtain ⟨hptid, ha, hmay⟩ := hguard
    split at hstep
    next r t hrun =>
      obtain rfl := Except.ok.inj (Option.some.inj hstep)
      exact (h.call hptid ha hmay hord).of_ok hrun r rfl
    · cases hstep
    · cases Option.some.inj hstep
  · cases hstep

/-- A step that keeps to the condition does not map a page twice. -/
theorem Laid.step_ne_remap {l : Slot × Call} (h : Laid g d Z σ) (hord : Orderly g σ l) :
    Group.step g σ l ≠ some (.error (.panic .remap)) := by
  intro hstep
  unfold Group.step at hstep
  split at hstep
  next hguard =>
    obtain ⟨hptid, ha, hmay⟩ := hguard
    split at hstep
    · cases Option.some.inj hstep
    · cases hstep
    next e hrun =>
      exact (h.call hptid ha hmay hord).of_error hrun (Except.error.inj (Option.some.inj hstep))
  · cases hstep

/-- A run of a group that starts with the first process, found by computing it. -/
theorem exists_fresh_run (next : ℤ → Group → Slot × Call → Option (Except Fault Group)) {ls : List (Slot × Call)}
    {Q : Group → Slot → Group → Prop} (D : Group → Prop) [DecidablePred D]
    (h : Ptable.bootThen (List.range' 1 200) (fun s ↦ Machine.reaches (next 1) ⟨s, []⟩ ls fun σ ↦ D σ) = true)
    (hQ : ∀ σ c d σ', Fresh σ c d → (σ.table.proc c).pid = 1 → Machine.Run (next (σ.table.proc c).pid) σ ls σ' →
      D σ' → Q σ c σ') :
    ∃ σ c d σ', Fresh σ c d ∧ Machine.Run (next (σ.table.proc c).pid) σ ls σ' ∧ Q σ c σ' := by
  obtain ⟨s, σ', hs, hrun, hD⟩ := Ptable.exists_boot_run h
  obtain ⟨-, p, d, hboot⟩ := userinit_sat.of_exec_ok hs
  have hpid : (s.proc p).pid = 1 := by
    obtain ⟨v, hv⟩ := hboot.self
    rw [hv]
    rfl
  have hrun' : Machine.Run (next (s.proc p).pid) ⟨s, []⟩ ls σ' := hpid ▸ hrun
  have hfresh := fresh_of_booted hboot
  exact ⟨⟨s, []⟩, p, d, σ', hfresh, hrun', hQ _ _ _ _ hfresh hpid hrun' (of_decide_eq_true hD)⟩

/-- **A group agrees on its address space.** From every process that has made no thread, after every
sequence of calls of `thread_create`, `thread_join`, `thread_exit` and `sbrk` by any members of its
group that keep to the condition, the live members have the same page directory and the same size,
nothing has been handed out twice, and no such call panics with `remap`. -/
theorem group_agrees {σ σ' : Group} {c : Slot} {d : ℕ} {ls : List (Slot × Call)}
    (hfresh : Fresh σ c d)
    (hrun : Machine.Run (Machine.guarded (Orderly (σ.table.proc c).pid)
      (step (σ.table.proc c).pid)) σ ls σ') :
    Agree (σ.table.proc c).pid σ' ∧ ∀ l, Orderly (σ.table.proc c).pid σ' l →
      step (σ.table.proc c).pid σ' l ≠ some (.error (.panic .remap)) := by
  have hlaid : ∃ Z, Laid (σ.table.proc c).pid d Z σ' := by
    refine hrun.invariant (P := fun σ' ↦ ∃ Z, Laid (σ.table.proc c).pid d Z σ')
      ⟨_, hfresh.laid⟩ ?_
    intro σ₁ σ₂ l ⟨Z, h⟩ hstep
    obtain ⟨hord, hstep⟩ := Machine.guarded_eq_some.1 hstep
    exact h.step hord hstep
  obtain ⟨Z, hlaid⟩ := hlaid
  exact ⟨hlaid.agree, fun l hord ↦ hlaid.step_ne_remap hord⟩

/-- The theorem at a run: the first process makes two threads, the second one exits and is joined, then
the first one, and the process gets a page. -/
theorem group_agrees_two_threads : ∃ σ c d σ', Fresh σ c d ∧
    Machine.Run (Machine.guarded (Orderly (σ.table.proc c).pid) (step (σ.table.proc c).pid)) σ
      [(0, .threadCreate), (0, .threadCreate), (2, .threadExit 7), (0, .threadJoin 1),
        (1, .threadExit 8), (0, .threadJoin 0), (0, .sbrk 4096)] σ' ∧
    Agree (σ.table.proc c).pid σ' ∧ σ'.handed = [⟨none, 4096, 8192⟩] :=
  exists_fresh_run (fun g ↦ Machine.guarded (Orderly g) (step g))
    (fun σ ↦ σ.handed = [⟨none, 4096, 8192⟩]) (by decide +kernel) fun σ c d σ' hfresh _ hrun hhanded ↦
      ⟨(group_agrees hfresh hrun).1, hhanded⟩

/-- The first process makes a thread, which gets a page with `sbrk`: the size of the process is not
raised, and its own `sbrk` then maps a page that is mapped already. -/
theorem sbrk_splits_group : ∃ σ c d σ', Fresh σ c d ∧
    Machine.Run (step (σ.table.proc c).pid) σ [(0, .threadCreate), (1, .sbrk 4096)] σ' ∧
    ¬Agree (σ.table.proc c).pid σ' ∧
    step (σ.table.proc c).pid σ' (0, .sbrk 4096) = some (.error (.panic .remap)) := by
  refine exists_fresh_run step (fun σ ↦ σ.table.Live 1 0 ∧ σ.table.Live 1 1 ∧
    (σ.table.proc 0).sz = 12288 ∧ (σ.table.proc 1).sz = 16384 ∧
    Machine.stops (step 1) σ (0, .sbrk 4096) (.panic .remap)) (by decide +kernel) fun σ c d σ' _ hpid _ hσ' ↦ ?_
  obtain ⟨hlive₀, hlive₁, hsz₀, hsz₁, hremap⟩ := hσ'
  rw [hpid]
  refine ⟨fun hagree ↦ ?_, Machine.step_of_stops hremap⟩
  have hsz := hagree.sz 0 1 hlive₀ hlive₁
  rw [hsz₀, hsz₁] at hsz
  cases hsz

end Group

end Xv6
