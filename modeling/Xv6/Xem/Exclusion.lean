import Xv6.Xem.Rwlock

/-!
# What the readers-writer lock guarantees

The invariant ties the records of the threads to each other: a thread has `lk` exactly where it should;
the readers have `writelock` exactly when one of them relies on it (`Settled`), whoever is recorded as its
holder; `readers` counts the threads between their increment and their decrement; the first and the last
reader are alone. With the invariant of the two semaphores this gives exclusion and progress
(`rwlock_exclusive`).

It holds as long as no number has wrapped around. After `2 ^ 31` threads have waited for `writelock`, its
indexes are negative and its entries are entries of `lk`, so that the release of a writer wakes up a
reader as well (`reader_beside_writer`).
-/

namespace Xv6

open Vm XemSys Ptable Function
open Function (update_comm update_eq_self update_idem update_of_ne update_self)

namespace Rw

variable {d r : ℕ} {σ σ' : Rw} {t : Slot}

/-! ### The invariant -/

/-- What is recorded of the thread `t`. -/
def loc (σ : Rw) (t : Slot) : RwLocal := ⟨σ.pc t, σ.sys.call t, σ.sys.held t⟩

/-- What the records of the threads have to do with each other and with the number of readers. -/
structure Linked (d r : ℕ) (σ : Rw) : Prop where
  ok : ∀ t, (σ.loc t).Ok r
  idle : ∀ t, (σ.sys.table.proc t).pgdir ≠ some d → σ.loc t = ⟨.idle, none, []⟩
  /-- The readers have `writelock` when somebody relies on it. -/
  own : (∃ t, (σ.loc t).Owns r) ↔ ∃ t, (σ.loc t).Settled
  readers : σ.readers = ((Finset.univ.filter fun t ↦ (σ.loc t).Between).card : ℤ)
  first : ∀ t, (σ.loc t).First → σ.readers = 1
  last : ∀ t, (σ.loc t).pc = .dropGive → σ.readers = 0
  /-- A thread that is in one of the functions or has the lock can run, or sleeps in `xem_wait`. -/
  awake : ∀ t, σ.pc t ≠ .idle → σ.sys.RunsOrSleeps t

variable {x : RwLocal} {u w y : Slot} {a : ℕ} {pc' : RwPc} {op : XemOp} {s' : XemSys} {n : ℤ}

/-- The number of threads with a property, when the record of one of them changes. -/
theorem card_update {f : Slot → RwLocal} {P : RwLocal → Prop} [DecidablePred P] :
    ((Finset.univ.filter fun u ↦ P (update f t x u)).card : ℤ) =
      (Finset.univ.filter fun u ↦ P (f u)).card + (if P x then 1 else 0) -
        if P (f t) then 1 else 0 := by
  rw [Finset.card_filter, Finset.card_filter, ← Finset.add_sum_erase _ _ (Finset.mem_univ t),
    ← Finset.add_sum_erase Finset.univ (fun u ↦ if P (f u) then 1 else 0) (Finset.mem_univ t)]
  have hrest : ∀ u ∈ Finset.univ.erase t, (if P (update f t x u) then 1 else 0) =
      if P (f u) then 1 else 0 := by
    intro u hu
    rw [update_of_ne (Finset.ne_of_mem_erase hu)]
  rw [Finset.sum_congr rfl hrest, update_self]
  push_cast
  omega

/-- A step that changes the record of one thread. -/
theorem Linked.update (h : Linked d r σ) (hone : ∀ u, (σ.loc u).InLk → (σ.loc t).InLk → u = t)
    (hloc : σ'.loc = update σ.loc t x)
    (hpgdir : ∀ u, (σ'.sys.table.proc u).pgdir = (σ.sys.table.proc u).pgdir)
    (hd : (σ.sys.table.proc t).pgdir = some d) (hok : x.Ok r)
    (hown : (∃ u, (update σ.loc t x u).Owns r) ↔ ∃ u, (update σ.loc t x u).Settled)
    (hreaders : σ'.readers = σ.readers + (if x.Between then 1 else 0) -
      if (σ.loc t).Between then 1 else 0) (hsame : σ'.readers = σ.readers ∨ (σ.loc t).InLk)
    (hfirst : x.First → σ'.readers = 1) (hlast : x.pc = .dropGive → σ'.readers = 0)
    (hawake : ∀ u, σ'.pc u ≠ .idle → σ'.sys.RunsOrSleeps u) : Linked d r σ' := by
  have hother : ∀ u, u ≠ t → σ'.loc u = σ.loc u := by
    intro u hu
    rw [hloc, update_of_ne hu]
  have hself : σ'.loc t = x := by rw [hloc, update_self]
  refine ⟨fun u ↦ ?_, fun u hu ↦ ?_, ?_, ?_, fun u hu ↦ ?_, fun u hu ↦ ?_, hawake⟩
  · rcases eq_or_ne u t with rfl | hut
    · rw [hself]
      exact hok
    · rw [hother u hut]
      exact h.ok u
  · rw [hpgdir] at hu
    have hut : u ≠ t := by
      rintro rfl
      exact hu hd
    rw [hother u hut]
    exact h.idle u hu
  · rw [hloc]
    exact hown
  · rw [hreaders, h.readers, hloc, card_update]
  · rcases eq_or_ne u t with rfl | hut
    · exact hfirst (hself ▸ hu)
    · rw [hother u hut] at hu
      rcases hsame with hsame | hlk
      · rw [hsame]
        exact h.first u hu
      · exact absurd (hone u hu.inLk hlk) hut
  · rcases eq_or_ne u t with rfl | hut
    · exact hlast (hself ▸ hu)
    · rw [hother u hut] at hu
      rcases hsame with hsame | hlk
      · rw [hsame]
        exact h.last u hu
      · refine absurd (hone u ?_ hlk) hut
        rw [RwLocal.InLk, hu]
        trivial

/-- A step that does not change whether the thread relies on `writelock` or is recorded as its
holder. -/
theorem Linked.own_quiet (h : Linked d r σ) (howns : x.Owns r ↔ (σ.loc t).Owns r)
    (hsettled : x.Settled ↔ (σ.loc t).Settled) : (∃ u, (Function.update σ.loc t x u).Owns r) ↔
      ∃ u, (Function.update σ.loc t x u).Settled := by
  have hiff : ∀ {P : RwLocal → Prop}, (P x ↔ P (σ.loc t)) →
      ((∃ u, P (Function.update σ.loc t x u)) ↔ ∃ u, P (σ.loc u)) := by
    intro P hP
    refine exists_congr fun u ↦ ?_
    rcases eq_or_ne u t with rfl | hu
    · rw [update_self]
      exact hP
    · rw [update_of_ne hu]
  rw [hiff howns, hiff hsettled]
  exact h.own

/-- A step after which somebody relies on `writelock` and somebody is recorded as its holder. -/
theorem own_both (hu : (update σ.loc t x u).Owns r) (hw : (update σ.loc t x w).Settled) :
    (∃ u, (update σ.loc t x u).Owns r) ↔ ∃ u, (update σ.loc t x u).Settled :=
  ⟨fun _ ↦ ⟨w, hw⟩, fun _ ↦ ⟨u, hu⟩⟩

/-- The two semaphores of the lock. -/
def Sems (d r d' a : ℕ) : Prop := d' = d ∧ (a = lkAt r ∨ a = writelockAt r)

/-- What is kept as long as no number has wrapped around. -/
structure Inv (d r : ℕ) (σ : Rw) : Prop where
  linked : Linked d r σ
  live : ∀ t, (σ.sys.table.proc t).killed = false
  /-- The semaphores. -/
  sems : ∃ G, XemSys.Inv (Sems d r) (fun _ _ ↦ 1) G σ.sys ∧
    ∀ a, Sems d r d a → (G d a).first + (G d a).line.length ≤ 2147483648

theorem lkAt_ne_writelockAt : lkAt r ≠ writelockAt r := by
  unfold lkAt writelockAt Xem.size SIZE
  omega

/-- A thread that is recorded as a holder holds. -/
theorem Inv.holds_pos (h : Inv d r σ) (hu : a ∈ σ.sys.held u) : 0 < σ.sys.holds d a u := by
  have hd : (σ.sys.table.proc u).pgdir = some d := by
    by_contra hne
    have hheld : σ.sys.held u = [] := congrArg RwLocal.held (h.linked.idle u hne)
    rw [hheld] at hu
    cases hu
  rw [holds, if_pos ⟨hd, h.live u⟩]
  have hpos := List.count_pos_iff.2 hu
  omega

theorem Inv.pgdir_of_held (h : Inv d r σ) (hu : a ∈ σ.sys.held u) : (σ.sys.table.proc u).pgdir = some d := by
  have hpos := h.holds_pos hu
  by_contra hne
  rw [holds, if_neg fun h' ↦ hne h'.1] at hpos
  cases hpos

/-- Only one thread is recorded as the holder of a semaphore. -/
theorem Inv.eq_of_held (h : Inv d r σ) (ha : Sems d r d a) (hu : a ∈ σ.sys.held u) (hw : a ∈ σ.sys.held w) :
    u = w := by
  obtain ⟨G, hG, -⟩ := h.sems
  exact (hG.fits d a ha).eq_of_holds (h.holds_pos hu) (h.holds_pos hw)

/-- It is recorded only once. -/
theorem Inv.count_le_one (h : Inv d r σ) (ha : Sems d r d a) (u : Slot) : (σ.sys.held u).count a ≤ 1 := by
  rcases Nat.eq_zero_or_pos ((σ.sys.held u).count a) with hz | hpos
  · omega
  · obtain ⟨G, hG, -⟩ := h.sems
    have hle := (hG.fits d a ha).holds_le_one u
    have hd := h.pgdir_of_held (List.count_pos_iff.1 hpos)
    rw [holds, if_pos ⟨hd, h.live u⟩] at hle
    omega

theorem Inv.eq_of_inLk (h : Inv d r σ) (hu : (σ.loc u).InLk) (hw : (σ.loc w).InLk) : u = w :=
  h.eq_of_held ⟨rfl, .inl rfl⟩ ((h.linked.ok u).lk.2 hu) ((h.linked.ok w).lk.2 hw)

/-! ### The semaphores -/

/-- The numbers of the two semaphores have not become negative. -/
def NoWrap (d r : ℕ) (σ : Rw) : Prop :=
  0 ≤ (σ.sys.sem d (lkAt r)).count.toInt ∧ 0 ≤ (σ.sys.sem d (writelockAt r)).count.toInt

instance (d r : ℕ) (σ : Rw) : Decidable (NoWrap d r σ) := inferInstanceAs (Decidable (_ ∧ _))

theorem toInt_ofNat_nonneg {n : ℕ} (hle : n ≤ 2147483648) (h : 0 ≤ (BitVec.ofNat 32 n).toInt) :
    n < 2147483648 := by
  have h32 : 2 ^ 32 = 4294967296 := rfl
  rw [BitVec.toInt_eq_toNat_cond, BitVec.toNat_ofNat, h32] at h
  split at h <;> omega

/-- The entries of the two semaphores are different addresses, as long as their indexes are not
negative. -/
theorem chanAt_ne {n m : ℕ} (hn : n < 2147483648) (hm : m < 2147483648) :
    Xem.chanAt (lkAt r) (BitVec.ofNat 32 n) ≠ Xem.chanAt (writelockAt r) (BitVec.ofNat 32 m) := by
  unfold Xem.chanAt uint writelockAt lkAt Xem.size SIZE
  rw [Xem.index_ofNat, Xem.index_ofNat, if_pos (by omega), if_pos (by omega)]
  omega

section Semaphores

variable {s s' : XemSys} {G : ℕ → ℕ → Tickets} {a a' : ℕ}

/-- The same for any two numbers of the two semaphores. -/
theorem chanAt_ne_of_ne {n m : ℕ} (ha : Sems d r d a) (ha' : Sems d r d a') (hne : a' ≠ a)
    (hn : n < 2147483648) (hm : m < 2147483648) :
    Xem.chanAt a' (BitVec.ofNat 32 m) ≠ Xem.chanAt a (BitVec.ofNat 32 n) := by
  rcases ha.2 with rfl | rfl
  · rcases ha'.2 with rfl | rfl
    · exact absurd rfl hne
    · exact (chanAt_ne hn hm).symm
  · rcases ha'.2 with rfl | rfl
    · exact chanAt_ne hm hn
    · exact absurd rfl hne

/-- A step of `xem_wait` or `xem_unlock` on one of the two semaphores. -/
def OnSems (d r : ℕ) : XemOp → Prop
  | .wait a | .unlock a => Sems d r d a
  | .resume => True
  | .kill _ | .exit => False

theorem OnSems.isXem {op : XemOp} (h : OnSems d r op) : XemSys.IsXem op := by
  cases op with
  | wait a | resume | unlock a => trivial
  | kill pid | exit => exact h.elim

variable (hG : XemSys.Inv (Sems d r) (fun _ _ ↦ 1) G s)
  (hbound : ∀ a, Sems d r d a → (G d a).first + (G d a).line.length ≤ 2147483648)
  (hcalls : ∀ u a', s.call u = some a' → (s.table.proc u).pgdir = some d ∧ Sems d r d a')

include hG hbound hcalls

/-- A thread goes to sleep on an address that is not in use for the other semaphore. -/
theorem clear_of_bound (ha : Sems d r d a) (hwrap : 0 ≤ (s.sem d a).count.toInt) : XemSys.Clear (Sems d r) G s d a := by
  have hf := hG.fits d a ha
  rw [hf.count] at hwrap
  have hlt := toInt_ofNat_nonneg (hbound a ha) hwrap
  refine ⟨fun d' a' i hU hne hi ↦ ?_, fun u a' hu hon ↦ ?_⟩
  · obtain ⟨rfl, ha'⟩ := hU
    have hle := hbound a' ⟨rfl, ha'⟩
    rw [hf.count]
    exact chanAt_ne_of_ne ha ⟨rfl, ha'⟩ (fun h' ↦ hne (h' ▸ rfl)) hlt (by omega)
  · obtain ⟨hpg, ha'⟩ := hcalls u a' hu
    refine ⟨hpg, ?_⟩
    by_contra hne
    have hf' := hG.fits d a' ha'
    have hle := hbound a' ha'
    obtain ⟨hmem, hk⟩ := hf'.asleep u hpg hu hon.1
    obtain ⟨i, hi⟩ := List.mem_iff_getElem?.1 hmem
    have hlen := (List.getElem?_eq_some_iff.1 hi).1
    have hon' := (hf'.asleepOn i u hi hk).2
    rw [hon.2, hf.count] at hon'
    exact chanAt_ne_of_ne ha ha' hne hlt (m := (G d a').first + i) (by omega)
      (Chan.addr.inj (Option.some.inj hon')).symm

theorem sems_step {op : XemOp} (hwrap : ∀ a, Sems d r d a → 0 ≤ (s.sem d a).count.toInt)
    (hd : (s.table.proc t).pgdir = some d) (hop : OnSems d r op)
    (hstep : s.step (t, op) = some (.ok s')) : ∃ G', XemSys.Inv (Sems d r) (fun _ _ ↦ 1) G' s' ∧
      ∀ a, Sems d r d a → (G' d a).first + (G' d a).line.length ≤ 2147483648 := by
  have hallowed : XemSys.Allowed (Sems d r) G s t op := by
    cases op with
    | wait a =>
      intro d' hd'
      obtain rfl := Option.mem_unique hd hd'
      exact ⟨hop, fun _ ↦ clear_of_bound hG hbound hcalls hop (hwrap a hop)⟩
    | resume => trivial
    | unlock a =>
      intro d' hd'
      obtain rfl := Option.mem_unique hd hd'
      exact hop
    | kill pid | exit => exact hop.elim
  obtain ⟨G', hmove, hG'⟩ := hG.step (l := (t, op)) hallowed hstep
  refine ⟨G', hG', fun a ha ↦ ?_⟩
  have hle := hbound a ha
  cases hmove with
  | same => exact hle
  | @sleep d₁ a₁ hop₁ hd₁ =>
    unfold enqueue
    rcases eq_or_ne (d, a) (d₁, a₁) with heq | hne
    · obtain ⟨rfl, rfl⟩ := Prod.mk.inj heq
      have hnonneg := hwrap a ha
      rw [(hG.fits d a ha).count] at hnonneg
      have hlt := toInt_ofNat_nonneg hle hnonneg
      rw [update₂_self, List.length_append, List.length_singleton]
      dsimp only
      omega
    · rw [update₂_of_ne _ _ hne]
      exact hle
  | @pass d₁ a₁ hop₁ hd₁ hneg =>
    unfold dequeue
    rcases eq_or_ne (d, a) (d₁, a₁) with heq | hne
    · obtain ⟨rfl, rfl⟩ := Prod.mk.inj heq
      have hlen := (hG.fits d a ha).length
      rw [update₂_self, List.length_tail]
      dsimp only
      omega
    · rw [update₂_of_ne _ _ hne]
      exact hle

end Semaphores

theorem XemArc.onSems {pc : RwPc} (h : XemArc r pc op pc') : OnSems d r op := by
  cases h with
  | resume => trivial
  | read => exact ⟨rfl, .inl rfl⟩
  | first => exact ⟨rfl, .inr rfl⟩
  | leave | drop | dropLeave => exact ⟨rfl, .inl rfl⟩
  | give | write | done => exact ⟨rfl, .inr rfl⟩

/-- Whoever is in `xem_wait` is there for one of the two semaphores. -/
theorem Linked.calls (h : Linked d r σ) (hu : σ.sys.call u = some a) :
    (σ.sys.table.proc u).pgdir = some d ∧ Sems d r d a := by
  constructor
  · by_contra hne
    have hcall : σ.sys.call u = none := congrArg RwLocal.call (h.idle u hne)
    cases hcall.symm.trans hu
  · rcases (h.ok u).call with hcall | ⟨hcall, -⟩ | ⟨hcall, -⟩
    · cases hcall.symm.trans hu
    · exact ⟨rfl, .inl (Option.mem_unique hu hcall)⟩
    · exact ⟨rfl, .inr (Option.mem_unique hu hcall)⟩

theorem NoWrap.sems (h : NoWrap d r σ) (ha : Sems d r d a) : 0 ≤ (σ.sys.sem d a).count.toInt := by
  rcases ha.2 with rfl | rfl
  · exact h.1
  · exact h.2

/-! ### The records -/

/-- What a step of `xem_wait` or `xem_unlock` does to the record of a thread, when `writelock` is not
taken twice: what it relies on and what is recorded for it do not change, or it relies on `writelock`
and is recorded as its holder, or it is the last reader and does neither any more. -/
theorem XemArc.local {call : Option ℕ} {held : List ℕ} (arc : XemArc r x.pc op pc')
    (h : XemSys.LocalStep x.call x.held op call held) (hok : x.Ok r) (hlk : x.held.count (lkAt r) ≤ 1)
    (hw : x.held.count (writelockAt r) ≤ 1)
    (htake : op = .wait (writelockAt r) → call = none → writelockAt r ∉ x.held)
    (hresume : op = .resume → x.call = some (writelockAt r) → writelockAt r ∉ x.held) :
    RwLocal.Ok r ⟨pc', call, held⟩ ∧ (RwLocal.Between ⟨pc', call, held⟩ ↔ x.Between) ∧
      (RwLocal.First ⟨pc', call, held⟩ → x.First) ∧ (pc' = .dropGive → x.pc = .dropGive) ∧
      ((RwLocal.Owns r ⟨pc', call, held⟩ ↔ x.Owns r) ∧ (RwLocal.Settled ⟨pc', call, held⟩ ↔ x.Settled) ∨
        RwLocal.Owns r ⟨pc', call, held⟩ ∧ RwLocal.Settled ⟨pc', call, held⟩ ∨
        (x.pc = .dropGive ∧ writelockAt r ∈ x.held) ∧ ¬RwLocal.Owns r ⟨pc', call, held⟩ ∧
          ¬RwLocal.Settled ⟨pc', call, held⟩) := by
  have hne := lkAt_ne_writelockAt (r := r)
  obtain ⟨pc, call₀, held₀⟩ := x
  obtain ⟨hlk', hcall, hwriter⟩ := hok
  have herase : ∀ {a}, held₀.count a ≤ 1 → a ∉ held₀.erase a := by
    intro a ha
    rw [← List.count_eq_zero, List.count_erase_self]
    omega
  have hlkErase := herase hlk
  have hwErase := herase hw
  cases arc with
  | resume =>
    cases h with
    | @resume a =>
      rcases hcall with hcall | ⟨hcall, rfl | rfl⟩ | ⟨hcall, rfl | rfl⟩
      · cases hcall
      all_goals
        have ha := Option.some.inj hcall
        refine ⟨⟨?_, ?_, ?_⟩, ?_, ?_, ?_, ?_⟩ <;>
        simp [RwLocal.InLk, RwLocal.Between, RwLocal.First, RwLocal.Owns, RwLocal.Settled, hne, hne.symm,
          hlk', hresume rfl, ha]
  | read | first | drop | write =>
    cases h with
    | take | sleep =>
      refine ⟨⟨?_, ?_, ?_⟩, ?_, ?_, ?_, ?_⟩ <;>
      simp_all [RwLocal.InLk, RwLocal.Between, RwLocal.First, RwLocal.Owns, RwLocal.Settled, hne.symm]
  | leave | dropLeave | done | give =>
    cases h with
    | unlock =>
      refine ⟨⟨?_, ?_, ?_⟩, ?_, ?_, ?_, ?_⟩ <;>
      simp_all [RwLocal.InLk, RwLocal.Between, RwLocal.First, RwLocal.Owns, RwLocal.Settled,
        List.mem_erase_of_ne hne, List.mem_erase_of_ne hne.symm]

/-- A thread that takes a semaphore without sleeping was not recorded as its holder. -/
theorem Inv.not_mem_of_take (h : Inv d r σ) (ha : Sems d r d a) (hd : (σ.sys.table.proc t).pgdir = some d)
    (hstep : σ.sys.step (t, .wait a) = some (.ok s')) (hcall : s'.call t = none) : a ∉ σ.sys.held t := by
  obtain ⟨G, hG, -⟩ := h.sems
  cases XemSys.did_of_step hstep with
  | take hd' _ hpos =>
    obtain rfl := Option.mem_unique hd hd'
    intro hmem
    have hunits : σ.sys.units d a t ≤ ∑ u, σ.sys.units d a u :=
      Finset.single_le_sum (fun _ _ ↦ Nat.zero_le _) (Finset.mem_univ t)
    have hval := (hG.fits d a ha).value
    rw [← Nat.cast_sum] at hval
    have hcount := List.count_pos_iff.2 hmem
    have hle : (σ.sys.held t).count a ≤ σ.sys.units d a t := by
      rw [XemSys.units, if_pos hd]
      omega
    omega
  | sleep _ _ hle =>
    rw [XemSys.wait_of_le hle, XemSys.setCall_call, update_self] at hcall
    cases hcall

/-- A thread that has been woken up was not recorded as a holder. -/
theorem Inv.not_mem_of_resume (h : Inv d r σ) (ha : Sems d r d a) (hd : (σ.sys.table.proc t).pgdir = some d)
    (hrun : σ.sys.CanRun t) (hcall : σ.sys.call t = some a) : a ∉ σ.sys.held t := by
  obtain ⟨G, hG, -⟩ := h.sems
  have hle := (hG.fits d a ha).holds_le_one t
  have hst : (σ.sys.table.proc t).state ≠ .SLEEPING := by
    intro hst
    rcases hrun with h' | h' <;> cases hst.symm.trans h'
  rw [holds, if_pos ⟨hd, h.live t⟩, if_pos ⟨hcall, hst⟩] at hle
  rw [← List.count_eq_zero]
  omega

/-- Beside the last reader nobody relies on `writelock`. -/
theorem Inv.not_settled (h : Inv d r σ) (hpc : (σ.loc t).pc = .dropGive) (hu : u ≠ t) : ¬(σ.loc u).Settled := by
  intro hs
  have hlk : (σ.loc t).InLk := by
    rw [RwLocal.InLk, hpc]
    trivial
  have hb := hs.between fun hlku ↦ hu (h.eq_of_inLk hlku hlk)
  have hpos : 0 < (Finset.univ.filter fun u ↦ (σ.loc u).Between).card :=
    Finset.card_pos.2 ⟨u, Finset.mem_filter.2 ⟨Finset.mem_univ u, hb⟩⟩
  have hreaders := h.linked.readers
  have hlast := h.linked.last t hpc
  omega

/-- The records after a step of `xem_wait` or `xem_unlock`. -/
theorem Inv.linked_xem (h : Inv d r σ) (hd : (σ.sys.table.proc t).pgdir = some d)
    (arc : XemArc r (σ.pc t) op pc') (hstep : σ.sys.step (t, op) = some (.ok s')) :
    Linked d r (σ.moved s' t pc' σ.readers) := by
  have hop := (arc.onSems (d := d)).isXem
  have hrun := canRun_of_step hop hstep
  obtain ⟨call, held, hlocal, hcall, hheld⟩ := step_local hop hstep
  have hloc : (σ.moved s' t pc' σ.readers).loc = Function.update σ.loc t ⟨pc', call, held⟩ := by
    funext u
    unfold loc
    rw [moved_pc, moved_sys, hcall, hheld]
    rcases eq_or_ne u t with rfl | hu
    · rw [update_self, update_self, update_self, update_self]
    · rw [update_of_ne hu, update_of_ne hu, update_of_ne hu,
        update_of_ne hu]
  obtain ⟨hok, hbetween, hfirst, hlast, hown⟩ := arc.local (x := σ.loc t) hlocal (h.linked.ok t)
    (h.count_le_one ⟨rfl, .inl rfl⟩ t) (h.count_le_one ⟨rfl, .inr rfl⟩ t)
    (fun hop hnone ↦ by
      subst hop
      refine h.not_mem_of_take ⟨rfl, .inr rfl⟩ hd hstep ?_
      rw [hcall, update_self, hnone])
    fun _ hsome ↦ h.not_mem_of_resume ⟨rfl, .inr rfl⟩ hd hrun hsome
  refine h.linked.update (fun u hu ht ↦ h.eq_of_inLk hu ht) hloc
    (fun u ↦ (step_fields (l := (t, op)) hop hstep u).1) hd hok ?_ ?_ (.inl rfl)
    (fun hx ↦ h.linked.first t (hfirst hx)) (fun hx ↦ h.linked.last t (hlast hx)) fun u hu ↦ ?_
  · rcases hown with ⟨howns, hsettled⟩ | ⟨howns, hsettled⟩ | ⟨⟨hpc, hmem⟩, howns, hsettled⟩
    · exact h.linked.own_quiet howns hsettled
    · refine own_both (u := t) (w := t) ?_ ?_
      · rw [update_self]
        exact howns
      · rw [update_self]
        exact hsettled
    · -- It was recorded as the holder, and nobody else relies on `writelock`.
      refine iff_of_false (fun hx ↦ ?_) fun hx ↦ ?_ <;> obtain ⟨u, hu⟩ := hx <;>
        rcases eq_or_ne u t with rfl | hut
      · rw [update_self] at hu
        exact howns hu
      · rw [update_of_ne hut] at hu
        exact hut (h.eq_of_held ⟨rfl, .inr rfl⟩ hu.1 hmem)
      · rw [update_self] at hu
        exact hsettled hu
      · rw [update_of_ne hut] at hu
        exact h.not_settled hpc hut hu
  · rw [if_congr hbetween rfl rfl, moved_readers]
    omega
  · rcases eq_or_ne u t with rfl | hut
    · exact XemSys.RunsOrSleeps.step (.inl hrun) hop hstep
    · rw [moved_pc, update_of_ne hut] at hu
      exact (h.linked.awake u hu).step hop hstep

theorem Inv.step_xem (h : Inv d r σ) (hwrap : NoWrap d r σ) (hd : (σ.sys.table.proc t).pgdir = some d)
    (arc : XemArc r (σ.pc t) op pc') (hstep : σ.sys.step (t, op) = some (.ok s')) :
    Inv d r (σ.moved s' t pc' σ.readers) := by
  obtain ⟨G, hG, hbound⟩ := h.sems
  refine ⟨h.linked_xem hd arc hstep, fun u ↦ ?_, ?_⟩
  · rw [moved_sys, (step_fields (l := (t, op)) (arc.onSems (d := d)).isXem hstep u).2]
    exact h.live u
  · exact sems_step hG hbound (fun _ _ hu ↦ h.linked.calls hu) (fun _ ha ↦ hwrap.sems ha) hd
      arc.onSems hstep

/-- What a step on the number of readers does to the record of a thread: it keeps `lk`, and what it
relies on does not change or there is another reader. -/
theorem HereArc.local {n' : ℤ} {pc : RwPc} (arc : HereArc n pc pc' n') (held : List ℕ) :
    RwLocal.InLk ⟨pc, none, held⟩ ∧ RwLocal.InLk ⟨pc', none, held⟩ ∧ pc ≠ .writing ∧ pc' ≠ .writing ∧
      (n' = n + (if RwLocal.Between ⟨pc', none, held⟩ then 1 else 0) -
        if RwLocal.Between ⟨pc, none, held⟩ then 1 else 0) ∧
      (RwLocal.First ⟨pc', none, held⟩ → n' = 1) ∧ (pc' = .dropGive → n' = 0) ∧
      ((RwLocal.Settled ⟨pc', none, held⟩ ↔ RwLocal.Settled ⟨pc, none, held⟩) ∨
        n ≠ if RwLocal.Between ⟨pc, none, held⟩ then 1 else 0) := by
  cases arc with
  | inc | dec => simp [RwLocal.InLk, RwLocal.Between, RwLocal.First, RwLocal.Settled]
  | testFirst hn | testOther hn | testLast hn | testMore hn =>
    simp [RwLocal.InLk, RwLocal.Between, RwLocal.First, RwLocal.Settled, hn]

/-- If there is another reader, somebody who does not have `lk` relies on `writelock`. -/
theorem Inv.exists_settled (h : Inv d r σ) (ht : (σ.loc t).InLk)
    (hmore : σ.readers ≠ if (σ.loc t).Between then 1 else 0) : ∃ u, u ≠ t ∧ (σ.loc u).Settled := by
  rw [h.linked.readers] at hmore
  obtain ⟨u, hne, hu⟩ : ∃ u, u ≠ t ∧ (σ.loc u).Between := by
    by_contra hnot
    push Not at hnot
    have hfilter : (Finset.univ.filter fun u ↦ (σ.loc u).Between) =
        if (σ.loc t).Between then {t} else ∅ := by
      ext u
      rcases eq_or_ne u t with rfl | hne
      · split <;> simp [*]
      · split <;> simp [hnot u hne, hne]
    refine hmore ?_
    rw [hfilter]
    split <;> rfl
  exact ⟨u, hne, hu.settled fun hlk ↦ hne (h.eq_of_inLk hlk ht)⟩

/-- The records after a step on the number of readers. -/
theorem Inv.linked_here (h : Inv d r σ) (hd : (σ.sys.table.proc t).pgdir = some d)
    (arc : HereArc σ.readers (σ.pc t) pc' n) (hmay : σ.sys.MayCall t) :
    Linked d r (σ.moved σ.sys t pc' n) := by
  have hcall : σ.sys.call t = none := hmay.2.1
  have hx : σ.loc t = ⟨σ.pc t, none, σ.sys.held t⟩ := by
    rw [loc, hcall]
  have hloc : (σ.moved σ.sys t pc' n).loc =
      Function.update σ.loc t ⟨pc', none, σ.sys.held t⟩ := by
    funext u
    unfold loc
    rw [moved_pc, moved_sys]
    rcases eq_or_ne u t with rfl | hu
    · rw [update_self, update_self, hcall]
    · rw [update_of_ne hu, update_of_ne hu]
  obtain ⟨hlk, hlk', hpc, hpc', hreaders, hfirst, hlast, hsettled⟩ := arc.local (σ.sys.held t)
  rw [← hx] at hlk hreaders hsettled
  have howns : RwLocal.Owns r ⟨pc', none, σ.sys.held t⟩ ↔ (σ.loc t).Owns r := by
    rw [hx]
    simp [RwLocal.Owns, hpc, hpc']
  have hok : RwLocal.Ok r ⟨pc', none, σ.sys.held t⟩ :=
    ⟨iff_of_true ((h.linked.ok t).lk.2 hlk) hlk', .inl rfl, fun h' ↦ absurd h' hpc'⟩
  refine h.linked.update (fun u hu ht ↦ h.eq_of_inLk hu ht) hloc (fun _ ↦ rfl) hd hok ?_ hreaders
    (.inr hlk) hfirst hlast fun u hu ↦ ?_
  · rcases hsettled with hsettled | hmore
    · exact h.linked.own_quiet howns hsettled
    · -- Another reader relies on `writelock`, so somebody is recorded as its holder.
      obtain ⟨u, hne, hu⟩ := h.exists_settled hlk hmore
      obtain ⟨w, hw⟩ := h.linked.own.2 ⟨u, hu⟩
      refine own_both (u := w) (w := u) ?_ ?_
      · rcases eq_or_ne w t with rfl | hwt
        · rw [update_self]
          exact howns.2 hw
        · rw [update_of_ne hwt]
          exact hw
      · rw [update_of_ne hne]
        exact hu
  · rcases eq_or_ne u t with rfl | hut
    · exact .inl hmay.1
    · rw [moved_pc, update_of_ne hut] at hu
      exact h.linked.awake u hu

theorem Inv.step_here (h : Inv d r σ) (hd : (σ.sys.table.proc t).pgdir = some d)
    (arc : HereArc σ.readers (σ.pc t) pc' n) (hmay : σ.sys.MayCall t) : Inv d r (σ.moved σ.sys t pc' n) :=
  ⟨h.linked_here hd arc hmay, h.live, h.sems⟩

/-- What is recorded for a thread when `writelock` has been put down to the thread `t`. -/
theorem mem_handOver {s : XemSys} (hone : ∀ u w, a ∈ s.held u → a ∈ s.held w → u = w)
    (hcount : ∀ u, (s.held u).count a ≤ 1) (hw : a ∈ s.held w) (u : Slot) (b : ℕ) :
    b ∈ (s.handOver t a).held u ↔ if b = a then u = t else b ∈ s.held u := by
  obtain ⟨w', hw', heq⟩ := exists_handOver (t := t) hw
  obtain rfl := hone w' w hw' hw
  have hnot : a ∉ (s.held w').erase a := by
    rw [← List.count_eq_zero, List.count_erase_self]
    have := hcount w'
    omega
  have hremoved : ∀ u b, b ∈ (s.setHeld w' ((s.held w').erase a)).held u ↔ b ≠ a ∧ b ∈ s.held u := by
    intro u b
    rw [setHeld_held]
    rcases eq_or_ne u w' with rfl | hu
    · rcases eq_or_ne b a with rfl | hb
      · simp [hnot]
      · simp [hb, List.mem_erase_of_ne hb]
    · rw [update_of_ne hu]
      refine ⟨fun hmem ↦ ⟨?_, hmem⟩, fun hmem ↦ hmem.2⟩
      rintro rfl
      exact hu (hone u w' hmem hw')
  rw [heq, setHeld_held]
  rcases eq_or_ne u t with rfl | hu
  · rw [update_self, List.mem_cons, hremoved]
    split
    next hb => simp [hb]
    next hb => simp [hb]
  · rw [update_of_ne hu, hremoved]
    split
    next hb => simp [hb, hu]
    next hb => simp [hb]

/-- `writelock` counts as held by the last reader. -/
theorem Inv.handOver (h : Inv d r σ) (hd : (σ.sys.table.proc t).pgdir = some d) (hpc : σ.pc t = .dropGive) :
    Inv d r { σ with sys := σ.sys.handOver t (writelockAt r) } := by
  have hwl : Sems d r d (writelockAt r) := ⟨rfl, .inr rfl⟩
  have hsettled : (σ.loc t).Settled := by
    unfold RwLocal.Settled loc
    rw [hpc]
    trivial
  -- Somebody who is not a writer is recorded as the holder, and nobody else.
  obtain ⟨w, hw, hwriter⟩ := h.linked.own.2 ⟨t, hsettled⟩
  have hmem := mem_handOver (t := t) (fun _ _ ↦ h.eq_of_held hwl) (h.count_le_one hwl) hw
  obtain ⟨G, hG, hbound⟩ := h.sems
  have hG₁ := hG.handOver (t := t) h.live (fun u hu ↦ h.pgdir_of_held hu) hd hw
  obtain ⟨held, heq⟩ := handOver_eq σ.sys t (writelockAt r)
  rw [heq] at hmem hG₁ ⊢
  refine ⟨⟨fun u ↦ ⟨?_, (h.linked.ok u).call, fun hp hc ↦ ?_⟩, fun u hu ↦ ?_, ?_, ?_, h.linked.first,
    h.linked.last, h.linked.awake⟩, h.live, G, hG₁, hbound⟩
  · refine ((hmem u _).trans ?_).trans (h.linked.ok u).lk
    rw [if_neg lkAt_ne_writelockAt]
    rfl
  · obtain rfl := h.eq_of_held hwl ((h.linked.ok u).writer hp hc) hw
    exact absurd ⟨hp, hc⟩ hwriter
  · have hidle := h.linked.idle u hu
    have hnil : held u = [] := by
      refine List.eq_nil_iff_forall_not_mem.2 fun b hb ↦ ?_
      have hb' := (hmem u b).1 hb
      split at hb'
      · exact hu (hb' ▸ hd)
      · rw [show σ.sys.held u = [] from congrArg RwLocal.held hidle] at hb'
        cases hb'
    show RwLocal.mk (σ.loc u).pc (σ.loc u).call (held u) = _
    rw [hidle, hnil]
  · refine iff_of_true ⟨t, (hmem t _).2 ?_, fun hp ↦ ?_⟩ ⟨t, hsettled⟩
    · rw [if_pos rfl]
    · cases hpc.symm.trans hp.1
  · refine h.linked.readers.trans (congrArg Nat.cast (congrArg Finset.card ?_))
    exact Finset.filter_congr fun _ _ ↦ Iff.rfl

theorem Inv.step {op : RwOp} (h : Inv d r σ) (hwrap : NoWrap d r σ)
    (hstep : Rw.step d r σ (t, op) = some (.ok σ')) : Inv d r σ' := by
  obtain ⟨hd, hdid⟩ := did_of_step hstep
  cases hdid with
  | xem arc hs => exact h.step_xem hwrap hd arc hs
  | give hpc hs =>
    have h₁ := h.handOver hd hpc
    obtain ⟨held, heq⟩ := handOver_eq σ.sys t (writelockAt r)
    rw [heq] at h₁ hs
    exact h₁.step_xem hwrap hd (by rw [hpc]; exact .give) hs
  | here arc hmay => exact h.step_here hd arc hmay

/-! ### What the lock guarantees -/

/-- A thread has the lock as a writer: it has called `rwlock_acquire_writelock`, it does not sleep there,
and it has not released it. -/
def Writes (σ : Rw) (t : Slot) : Prop :=
  σ.pc t = .writing ∧ (σ.sys.table.proc t).state ≠ .SLEEPING

/-- A thread has the lock as a reader: it has returned from `rwlock_acquire_readlock`, and has not
counted itself off. -/
def Reads (σ : Rw) (t : Slot) : Prop := σ.pc t = .reading ∨ σ.pc t = .dropDec

instance (σ : Rw) (t : Slot) : Decidable (σ.Writes t) := inferInstanceAs (Decidable (_ ∧ _))

instance (σ : Rw) (t : Slot) : Decidable (σ.Reads t) := inferInstanceAs (Decidable (_ ∨ _))

/-- What a readers-writer lock guarantees in a state. -/
structure Exclusive (σ : Rw) : Prop where
  writers : ∀ t u, σ.Writes t → σ.Writes u → t = u
  readers : ∀ t u, σ.Writes t → ¬σ.Reads u
  /-- `rwlock->readers` counts the threads between their increment and their decrement. -/
  count : σ.readers = ((Finset.univ.filter fun t ↦ (σ.loc t).Between).card : ℤ)
  /-- As long as some thread has not finished, one of those can run. -/
  progress : ∀ t, σ.pc t ≠ .idle → ∃ u, σ.pc u ≠ .idle ∧ σ.sys.CanRun u

section

variable (h : Inv d r σ)

include h

/-- A writer holds `writelock`. -/
theorem Inv.holds_of_writes (ht : σ.Writes t) : 0 < σ.sys.holds d (writelockAt r) t := by
  obtain ⟨hpc, hst⟩ := ht
  rcases (h.linked.ok t).call.imp_right (·.resolve_left (by simp [loc, hpc])) with hc | ⟨hc, -⟩
  · exact h.holds_pos ((h.linked.ok t).writer hpc hc)
  · obtain ⟨hd, -⟩ := h.linked.calls hc
    have hc' : σ.sys.call t = some (writelockAt r) := hc
    rw [holds, if_pos ⟨hd, h.live t⟩, if_pos ⟨hc', hst⟩]
    omega

/-- Somebody who holds a semaphore for which others sleep can run, or has taken it. -/
theorem Inv.exists_holder (ha : Sems d r d a) (hcall : σ.sys.call t = some a)
    (hst : (σ.sys.table.proc t).state = .SLEEPING) :
    (∃ u, σ.pc u ≠ .idle ∧ σ.sys.CanRun u) ∨ ∃ u, a ∈ σ.sys.held u := by
  obtain ⟨G, hG, -⟩ := h.sems
  have hf := hG.fits d a ha
  have hfull := (hG.guards ha h.live).full t ⟨(h.linked.calls hcall).1, hcall, hst⟩
  have hpos : 0 < σ.sys.holders d a := by omega
  obtain ⟨u, -, hu⟩ := Finset.exists_ne_zero_of_sum_ne_zero hpos.ne'
  by_cases hmem : a ∈ σ.sys.held u
  · exact .inr ⟨u, hmem⟩
  · -- It has been woken up.
    have hcount := List.count_eq_zero.2 hmem
    unfold holds at hu
    split at hu
    next hlive =>
      split at hu
      next hwoken =>
        have hpc : σ.pc u ≠ .idle := by
          intro hpc
          cases hwoken.1.symm.trans ((h.linked.ok u).call.resolve_right (by simp [loc, hpc]))
        refine .inl ⟨u, hpc, (h.linked.awake u hpc).resolve_right fun h' ↦ hwoken.2 h'.1⟩
      · omega
    · exact absurd rfl hu

/-- A thread that sleeps for `lk` waits for one that can run, or for the first reader, which sleeps for
`writelock`. -/
theorem Inv.progress_lk (hcall : σ.sys.call t = some (lkAt r))
    (hst : (σ.sys.table.proc t).state = .SLEEPING) :
    (∃ u, σ.pc u ≠ .idle ∧ σ.sys.CanRun u) ∨ ∃ u, σ.pc u = .readLeave ∧
      σ.sys.call u = some (writelockAt r) ∧ (σ.sys.table.proc u).state = .SLEEPING := by
  rcases h.exists_holder ⟨rfl, .inl rfl⟩ hcall hst with hrun | ⟨u, hu⟩
  · exact .inl hrun
  · have hlk : (σ.loc u).InLk := (h.linked.ok u).lk.1 hu
    have hpc : σ.pc u ≠ .idle := by
      intro hpc
      unfold RwLocal.InLk loc at hlk
      rw [hpc] at hlk
      exact hlk
    rcases h.linked.awake u hpc with hrun | ⟨hsleep, hcallu⟩
    · exact .inl ⟨u, hpc, hrun⟩
    · -- It has `lk` and is in `xem_wait`.
      right
      unfold RwLocal.InLk at hlk
      rcases (h.linked.ok u).call with hc | ⟨-, hp | hp⟩ | ⟨hc, hp | hp⟩
      · exact absurd hc hcallu
      · rw [hp] at hlk
        exact absurd hlk hcallu
      · rw [hp] at hlk
        exact absurd hlk hcallu
      · exact ⟨u, hp, hc, hsleep⟩
      · rw [hp] at hlk
        exact hlk.elim

/-- The first reader does not sleep for `writelock` while somebody relies on it without having `lk`. -/
theorem Inv.not_dropDec_of_first (hu : σ.pc u = .readLeave)
    (hcall : σ.sys.call u = some (writelockAt r)) : σ.pc w ≠ .dropDec := by
  intro hw
  have hfirst : (σ.loc u).First := .inr ⟨hu, by show σ.sys.call u ≠ none; rw [hcall]; exact nofun⟩
  have hone := h.linked.first u hfirst
  have hne : u ≠ w := by
    rintro rfl
    cases hu.symm.trans hw
  have hsub : {u, w} ⊆ Finset.univ.filter fun t ↦ (σ.loc t).Between := by
    intro x hx
    refine Finset.mem_filter.2 ⟨Finset.mem_univ x, ?_⟩
    unfold RwLocal.Between loc
    rcases Finset.mem_insert.1 hx with rfl | hx
    · rw [hu]
      trivial
    · obtain rfl := Finset.mem_singleton.1 hx
      rw [hw]
      trivial
  have hle := Finset.card_le_card hsub
  rw [Finset.card_pair hne] at hle
  have := h.linked.readers
  omega

/-- A thread that sleeps for `writelock` waits for one that can run. -/
theorem Inv.progress_writelock (hcall : σ.sys.call t = some (writelockAt r))
    (hst : (σ.sys.table.proc t).state = .SLEEPING) : ∃ u, σ.pc u ≠ .idle ∧ σ.sys.CanRun u := by
  rcases h.exists_holder ⟨rfl, .inr rfl⟩ hcall hst with hrun | ⟨u, hu⟩
  · exact hrun
  · by_cases hwriter : σ.pc u = .writing ∧ σ.sys.call u = none
    · have hpc : σ.pc u ≠ .idle := by
        rw [hwriter.1]
        exact nofun
      exact ⟨u, hpc, (h.linked.awake u hpc).resolve_right fun h' ↦ h'.2 hwriter.2⟩
    · -- The readers have it, and one of them relies on it.
      obtain ⟨w, hw⟩ := h.linked.own.1 ⟨u, hu, hwriter⟩
      have hpc : σ.pc w ≠ .idle := by
        intro hpc
        unfold RwLocal.Settled loc at hw
        rw [hpc] at hw
        exact hw
      rcases h.linked.awake w hpc with hrun | ⟨hsleep, hcallw⟩
      · exact ⟨w, hpc, hrun⟩
      · unfold RwLocal.Settled at hw
        rcases (h.linked.ok w).call with hc | ⟨hc, hp | hp⟩ | ⟨-, hp | hp⟩
        · exact absurd hc hcallw
        · rw [hp] at hw
          exact hw.elim
        · -- It waits for `lk`, to count itself off.
          rcases h.progress_lk hc hsleep with hrun | ⟨x, hx, hcallx, -⟩
          · exact hrun
          · exact absurd hp (h.not_dropDec_of_first hx hcallx)
        · rw [hp] at hw
          exact absurd hw hcallw
        · rw [hp] at hw
          exact hw.elim

theorem Inv.progress (ht : σ.pc t ≠ .idle) : ∃ u, σ.pc u ≠ .idle ∧ σ.sys.CanRun u := by
  rcases h.linked.awake t ht with hrun | ⟨hsleep, hcall⟩
  · exact ⟨t, ht, hrun⟩
  · rcases (h.linked.ok t).call with hc | ⟨hc, -⟩ | ⟨hc, -⟩
    · exact absurd hc hcall
    · rcases h.progress_lk hc hsleep with hrun | ⟨u, -, hcallu, hsleepu⟩
      · exact hrun
      · exact h.progress_writelock hcallu hsleepu
    · exact h.progress_writelock hc hsleep

theorem Inv.exclusive : σ.Exclusive := by
  obtain ⟨G, hG, -⟩ := h.sems
  have hf := hG.fits d (writelockAt r) ⟨rfl, .inr rfl⟩
  refine ⟨?_, ?_, h.linked.readers, fun t ht ↦ h.progress ht⟩
  · intro t u ht hu
    exact hf.eq_of_holds (h.holds_of_writes ht) (h.holds_of_writes hu)
  · intro t u ht hu
    have hsettled : (σ.loc u).Settled := by
      unfold RwLocal.Settled loc
      rcases hu with hu | hu <;> rw [hu] <;> trivial
    -- The thread that is recorded as the holder would be the writer.
    obtain ⟨w, hw, hwriter⟩ := h.linked.own.2 ⟨u, hsettled⟩
    obtain rfl := hf.eq_of_holds (h.holds_of_writes ht) (h.holds_pos hw)
    refine hwriter ⟨ht.1, ?_⟩
    rcases (h.linked.ok t).call.imp_right (·.resolve_left (by simp [loc, ht.1])) with hc | ⟨hc, -⟩
    · exact hc
    · have hrun := (h.linked.awake t (by rw [ht.1]; exact nofun)).resolve_right fun h' ↦ ht.2 h'.1
      exact absurd hw (h.not_mem_of_resume ⟨rfl, .inr rfl⟩ (h.linked.calls hc).1 hrun hc)

end

/-- The state after `rwlock_init`. -/
def init (s : XemSys) : Rw := ⟨s, 0, fun _ ↦ .idle⟩

theorem inv_init {s : XemSys} (h : XemSys.Start (Sems d r) (fun _ _ ↦ 1) s) : Inv d r (init s) := by
  have hloc : ∀ t, (init s).loc t = ⟨.idle, none, []⟩ := by
    intro t
    show RwLocal.mk .idle (s.call t) (s.held t) = _
    rw [h.call, h.held]
  refine ⟨⟨?_, fun t _ ↦ hloc t, ?_, ?_, ?_, ?_, fun t ht ↦ absurd rfl ht⟩, h.killed, _, h.inv, ?_⟩
  · intro t
    rw [hloc]
    exact ⟨iff_of_false nofun id, .inl rfl, nofun⟩
  · refine iff_of_false ?_ ?_
    · intro ⟨t, ht, _⟩
      rw [hloc] at ht
      cases ht
    · intro ⟨t, ht⟩
      exact ht
  · have hnone : (Finset.univ.filter fun t ↦ ((init s).loc t).Between) = ∅ := by
      refine Finset.filter_eq_empty_iff.2 fun t _ ↦ ?_
      exact id
    rfl
  · intro t ht
    rcases ht with ht | ⟨ht, -⟩ <;> cases ht
  · intro t ht
    cases ht
  · intro a _
    decide

/-- **A readers-writer lock excludes.** After `rwlock_init`, in every run of threads of the address space
that acquire and release the lock for reading or writing, as long as fewer than `2 ^ 31` threads have gone
to sleep for each of its semaphores: there is no writer beside another writer or a reader, `readers` counts
the threads between their increment and their decrement, and as long as some thread has not finished one
of those can run. -/
theorem rwlock_exclusive {s : XemSys} {σ : Rw} {d r : ℕ} {ls : List (Slot × RwOp)}
    (hstart : XemSys.Start (Sems d r) (fun _ _ ↦ 1) s)
    (hrun : Machine.Run (Machine.guarded (fun σ _ ↦ NoWrap d r σ) (step d r)) (init s) ls σ) :
    σ.Exclusive := by
  have hinv : Inv d r σ := by
    refine hrun.invariant (P := Inv d r) (inv_init hstart) ?_
    intro σ₁ σ₂ ⟨t, op⟩ h hstep
    obtain ⟨hwrap, hstep⟩ := Machine.guarded_eq_some.1 hstep
    exact h.step hwrap hstep
  exact hinv.exclusive

/-- The theorem at a run: a reader waits for a writer, and then has the lock. -/
theorem rwlock_exclusive_reader : ∃ table σ, (∀ t, (table.proc t).killed = false) ∧
    Machine.Run (Machine.guarded (fun σ _ ↦ NoWrap 0 8192 σ) (step 0 8192))
      (init (XemSys.fresh table 1)) [(0, .write), (1, .read), (1, .go), (1, .go), (1, .go), (0, .go),
        (1, .resume), (1, .go)] σ ∧
    σ.Exclusive ∧ σ.Reads 1 :=
  exists_run_of_calls [(0, .threadCreate)] (·.Reads 1) (by decide +kernel) fun table σ hlive hrun hreads ↦
    ⟨rwlock_exclusive (start_fresh hlive le_rfl) hrun, hreads⟩

/-! ### Numbers that have wrapped around -/

theorem step_write (hd : (σ.sys.table.proc y).pgdir = some d) (hpc : σ.pc y = .idle) (hmay : σ.sys.MayCall y) :
    step d r σ (y, .write) =
      some (.ok (σ.moved (σ.sys.wait y d (writelockAt r)) y .writing σ.readers)) := by
  simp [step, hd, hpc, xem, XemSys.step, hmay, Except.map]

theorem step_done {x : Slot} (hd : (σ.sys.table.proc x).pgdir = some d) (hpc : σ.pc x = .writing)
    (hmay : σ.sys.MayCall x) (hheld : writelockAt r ∈ σ.sys.held x) : step d r σ (x, .go) =
      some (.ok (σ.moved (σ.sys.unlock x d (writelockAt r)) x .idle σ.readers)) := by
  simp [step, hd, hpc, xem, XemSys.step, hmay, hheld, Except.map]

theorem step_resume (hd : (σ.sys.table.proc y).pgdir = some d) (hcall : σ.sys.call y = some a)
    (hrun : σ.sys.CanRun y) : step d r σ (y, .resume) =
      some (.ok (σ.moved (σ.sys.resume y d a) y (σ.pc y) σ.readers)) := by
  simp [step, hd, hcall, xem, XemSys.step, hrun, Except.map]

/-- A process with as many threads as there can be. -/
def crowd : Ptable :=
  { Ptable.zero [] with proc := fun _ ↦ { Proc.zero with state := .RUNNABLE, pgdir := some 0 } }

/-- The thread `x` has the lock as a writer, and `n` threads have waited for it so far. -/
def writerAfter (r : ℕ) (x : Slot) (n : ℕ) : Rw where
  sys := {
    table := crowd
    sem := update₂ (fun _ _ ↦ Xem.init 1) 0 (writelockAt r) ⟨0, 0, BitVec.ofNat 32 n, BitVec.ofNat 32 n⟩
    call := fun _ ↦ none
    held := Function.update (fun _ ↦ []) x [writelockAt r] }
  readers := 0
  pc := Function.update (fun _ ↦ .idle) x .writing

/-- The thread `y` of the crowd has the record `p` and is in the call `call`. -/
@[simps -fullyApplied]
def duel (r : ℕ) (x : Xem) (y : Slot) (p : Proc) (call : Option ℕ) (held : Slot → List ℕ) (pc : Slot → RwPc) : Rw where
  sys := {
    table := crowd.setProc y p
    sem := update₂ (fun _ _ ↦ Xem.init 1) 0 (writelockAt r) x
    call := Function.update (fun _ ↦ none) y call
    held := held }
  readers := 0
  pc := pc

theorem writerAfter_eq_duel (r : ℕ) (x y : Slot) (n : ℕ) : writerAfter r x n =
    duel r ⟨0, 0, BitVec.ofNat 32 n, BitVec.ofNat 32 n⟩ y (crowd.proc y) none
      (update (fun _ ↦ []) x [writelockAt r]) (update (fun _ ↦ .idle) x .writing) := by
  rw [duel, setProc, update_eq_self, update_eq_self y fun _ ↦ none]
  rfl

variable {c : BitVec 32} {held : Slot → List ℕ} {pc : Slot → RwPc} {x : Slot} {p : Proc}

/-- `y` goes to sleep. -/
theorem duel_write (hp : p = crowd.proc y) (hpc : pc y = .idle) :
    step 0 r (duel r ⟨0, 0, c, c⟩ y p none held pc) (y, .write) =
      some (.ok (duel r ⟨-1, 0, c + 1, c⟩ y ((p.setChan (some (.addr (Xem.chanAt (writelockAt r) c)))).setState .SLEEPING)
        (some (writelockAt r)) held (update pc y .writing))) := by
  have hproc : (crowd.setProc y p).proc y = p := update_self ..
  rw [step_write (by rw [duel_sys_table, hproc, hp]; rfl) hpc
    ⟨.inl (by rw [duel_sys_table, hproc, hp]; rfl), by rw [duel_sys_call, update_self], by rw [duel_sys_table, hproc, hp]; rfl⟩,
    wait_of_le (by rw [duel_sys_sem, update₂_self])]
  simp [duel, moved, setCall, setTable, setSem, slept, setProc]

/-- `x` gives the lock back, and `y` is woken up. -/
theorem duel_done (hne : x ≠ y) (hp : p.state = .SLEEPING)
    (hchan : p.chan = some (.addr (Xem.chanAt (writelockAt r) c))) (hpc : pc x = .writing)
    (hheld : held x = [writelockAt r]) {call : Option ℕ} :
    step 0 r (duel r ⟨-1, 0, c + 1, c⟩ y p call held pc) (x, .go) =
      some (.ok (duel r ⟨0, 1, c + 1, c + 1⟩ y (p.setState .RUNNABLE) call (update held x [])
        (update pc x .idle))) := by
  have hproc : (crowd.setProc y p).proc x = crowd.proc x := update_of_ne hne ..
  have hwake : (crowd.setProc y p).wake (.addr (Xem.chanAt (writelockAt r) c)) =
      crowd.setProc y (p.setState .RUNNABLE) := by
    rw [wake, mapProcs, setProc, setProc]
    congr 1
    funext u
    rcases eq_or_ne u y with rfl | hu
    · simp [hp, hchan]
    · simp [update_of_ne hu, crowd]
  rw [step_done (by rw [duel_sys_table, hproc]; rfl) hpc
    ⟨.inl (by rw [duel_sys_table, hproc]; rfl), by rw [duel_sys_call, update_of_ne hne],
      by rw [duel_sys_table, hproc]; rfl⟩ (by rw [duel_sys_held, hheld]; exact List.mem_singleton_self _),
    unlock_of_neg (by rw [duel_sys_sem, update₂_self]; exact Int.negSucc_lt_zero 0)]
  simp [duel, moved, setHeld, setTable, setSem, woke, hwake, hheld]

/-- `y` goes on. -/
theorem duel_resume (hp : p.setChan none = crowd.proc y) :
    step 0 r (duel r ⟨0, 1, c, c⟩ y p (some (writelockAt r)) held pc) (y, .resume) =
      some (.ok (duel r ⟨0, 0, c, c⟩ y (crowd.proc y) none (update held y (writelockAt r :: held y)) pc)) := by
  have hproc : (crowd.setProc y p).proc y = p := update_self ..
  have hstate : p.state = .RUNNABLE := congrArg Proc.state hp
  have hpgdir : p.pgdir = some 0 := congrArg Proc.pgdir hp
  rw [step_resume (by rw [duel_sys_table, hproc, hpgdir]) (by rw [duel_sys_call, update_self])
    (.inl (by rw [duel_sys_table, hproc, hstate]))]
  simp [duel, moved, resume, setCall, setHeld, setTable, setSem, Xem.resume, hp,
    setProc]

/-- Another thread waits for the lock and gets it. -/
theorem writerAfter_succ (hne : x ≠ y) (n : ℕ) :
    Machine.Run (step 0 r) (writerAfter r x n) [(y, .write), (x, .go), (y, .resume)]
      (writerAfter r y (n + 1)) := by
  have hheld : update (fun _ ↦ []) x [writelockAt r] x = [writelockAt r] := update_self ..
  have hidle : update (fun _ ↦ RwPc.idle) x .writing y = .idle := update_of_ne hne.symm ..
  have hwriting : update (update (fun _ ↦ RwPc.idle) x .writing) y .writing x = .writing := by
    rw [update_of_ne hne, update_self]
  rw [writerAfter_eq_duel r x y, writerAfter_eq_duel r y y]
  refine ((Machine.Run.nil.snoc (duel_write rfl hidle)).snoc (duel_done hne rfl rfl hwriting hheld)).snoc
    ((duel_resume rfl).trans ?_)
  rw [update_comm hne.symm, update_idem, update_idem, update_eq_self x fun _ ↦ RwPc.idle, update_eq_self x fun _ ↦ [],
    BitVec.ofNat_add]
  rfl

/-- Two threads take turns as writers, any number of times. -/
theorem exists_writerAfter (r m : ℕ) :
    ∃ ls, Machine.Run (step 0 r) (init (fresh crowd 1)) ls (writerAfter r 0 (2 * m)) := by
  induction m with
  | zero =>
    refine ⟨[(0, .write)], Machine.Run.nil.snoc ?_⟩
    rfl
  | succ m ih =>
    obtain ⟨ls, hrun⟩ := ih
    have h01 : (0 : Slot) ≠ 1 := by decide
    exact ⟨_, (hrun.trans (writerAfter_succ h01 _)).trans (writerAfter_succ h01.symm _)⟩

/-- **A reader beside a writer.** Two threads take turns as writers until 2147491766 of them have waited.
The number has become negative, and its entry of `writelock.arr` lies before the array: it is
`lk.arr[19]`. Now one writer has the lock and one waits, a reader has taken `lk` and waits for
`writelock`, and twenty readers wait for `lk`. When the writer gives the lock back, this wakes up the next
writer and the last one of the readers, and both have the lock. -/
theorem reader_beside_writer : ∃ s ls σ, XemSys.Start (Sems 0 8192) (fun _ _ ↦ 1) s ∧
    Machine.Run (step 0 8192) (init s) ls σ ∧ σ.Writes 1 ∧ σ.Reads 22 := by
  obtain ⟨ls, hrun⟩ := exists_writerAfter 8192 1073745883
  have hend : Machine.reaches (step 0 8192) (writerAfter 8192 0 (2 * 1073745883))
      ([(1, .write), (2, .read), (2, .go), (2, .go), (2, .go)] ++
        (List.range' 3 20).map (fun k ↦ (Fin.ofNat NPROC k, .read)) ++
        [(0, .go), (1, .resume), (22, .resume), (22, .go), (22, .go), (22, .go)])
      (fun σ ↦ σ.Writes 1 ∧ σ.Reads 22) = true := by decide +kernel
  obtain ⟨σ, hrun', hσ⟩ := Machine.exists_run hend
  exact ⟨_, _, σ, start_fresh (fun _ ↦ rfl) le_rfl, hrun.trans hrun', of_decide_eq_true hσ⟩

end Rw

end Xv6
