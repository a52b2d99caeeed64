import Mathlib.Algebra.Order.BigOperators.Group.Finset
import Xv6.Proc.Calls
import Xv6.Xem.Invariant

/-!
# What the semaphores guarantee

From the invariant: a semaphore that only the threads of one address space use is a semaphore
(`semaphore_correct`), for any number of rounds, and also when its numbers have wrapped around. The
threads are woken up in the order in which they have gone to sleep.

Channels are compared as addresses, whatever address space they belong to. So an `xem_unlock` in one
process wakes up a thread of another one that sleeps on the same address (`unlock_wakes_other_space`),
and that thread then believes that it has its own semaphore. This does not happen as long as no thread
goes to sleep on an address that is in use for another semaphore (`semaphores_independent`).
-/

namespace Xv6

open Vm Machine

namespace XemSys

/-- A thread of the address space `d` is asleep in `xem_wait` on the semaphore `a`. -/
def Sleeps (s : XemSys) (d a : ℕ) (t : Slot) : Prop :=
  (s.table.proc t).pgdir = some d ∧ s.call t = some a ∧ (s.table.proc t).state = .SLEEPING

instance (s : XemSys) (d a : ℕ) (t : Slot) : Decidable (s.Sleeps d a t) :=
  inferInstanceAs (Decidable (_ ∧ _))

/-- How often a thread that has not been killed has the semaphore: it has returned from `xem_wait` and
not called `xem_unlock`, or it has been woken up in `xem_wait`. -/
def holds (s : XemSys) (d a : ℕ) (t : Slot) : ℕ :=
  if (s.table.proc t).pgdir = some d ∧ (s.table.proc t).killed = false then
    (s.held t).count a +
      if s.call t = some a ∧ (s.table.proc t).state ≠ .SLEEPING then 1 else 0
  else 0

/-- How often the semaphore is held. -/
def holders (s : XemSys) (d a : ℕ) : ℕ := ∑ t, s.holds d a t

/-- How many threads sleep. -/
def sleepers (s : XemSys) (d a : ℕ) : ℕ := (Finset.univ.filter (s.Sleeps d a)).card

/-- What killed threads have taken. -/
def lost (s : XemSys) (d a : ℕ) : ℕ :=
  ∑ t, if (s.table.proc t).killed = true then s.units d a t else 0

variable {U : ℕ → ℕ → Prop} {v : ℤ} {s : XemSys} {d a : ℕ} {q : Tickets}

/-! ### Counting -/

/-- A thread in the line that has not been killed sleeps. -/
theorem Fits.sleeps_iff (h : s.Fits v d a q) (t : Slot) :
    s.Sleeps d a t ↔ t ∈ q.line ∧ (s.table.proc t).killed = false := by
  constructor
  · intro ht
    exact h.asleep t ht.1 ht.2.1 ht.2.2
  · intro ⟨ht, hk⟩
    obtain ⟨i, hi⟩ := List.mem_iff_getElem?.1 ht
    exact ⟨h.pgdir t ht, h.call t ht hk, (h.asleepOn i t hi hk).1⟩

/-- What a thread has taken: it has it, it still waits for it, or it has been killed. -/
theorem Fits.units_eq (h : s.Fits v d a q) (t : Slot) : s.units d a t = s.holds d a t +
    (if s.Sleeps d a t then 1 else 0) +
      if (s.table.proc t).killed = true then s.units d a t else 0 := by
  by_cases hk : (s.table.proc t).killed = true
  · have hnot : ¬s.Sleeps d a t := fun ht ↦
      nomatch ((h.sleeps_iff t).1 ht).2.symm.trans hk
    have hholds : s.holds d a t = 0 := if_neg fun h' ↦ nomatch h'.2.symm.trans hk
    rw [hholds, if_neg hnot, if_pos hk, Nat.zero_add]
  · have hlive : (s.table.proc t).killed = false := Bool.eq_false_iff.2 hk
    rw [if_neg hk, Nat.add_zero]
    by_cases hd : (s.table.proc t).pgdir = some d
    · have hunits : s.units d a t = (s.held t).count a + if s.call t = some a then 1 else 0 :=
        if_pos hd
      have hholds : s.holds d a t = (s.held t).count a +
          if s.call t = some a ∧ (s.table.proc t).state ≠ .SLEEPING then 1 else 0 :=
        if_pos ⟨hd, hlive⟩
      rw [hunits, hholds, Nat.add_assoc]
      congr 1
      by_cases hcall : s.call t = some a
      · by_cases hst : (s.table.proc t).state = .SLEEPING
        · have hs : s.Sleeps d a t := ⟨hd, hcall, hst⟩
          rw [if_pos hcall, if_neg fun h' ↦ h'.2 hst, if_pos hs]
        · have hs : ¬s.Sleeps d a t := fun h' ↦ hst h'.2.2
          rw [if_pos hcall, if_pos ⟨hcall, hst⟩, if_neg hs]
      · have hs : ¬s.Sleeps d a t := fun h' ↦ hcall h'.2.1
        rw [if_neg hcall, if_neg fun h' ↦ hcall h'.1, if_neg hs]
    · have hunits : s.units d a t = 0 := if_neg hd
      have hholds : s.holds d a t = 0 := if_neg fun h' ↦ hd h'.1
      have hs : ¬s.Sleeps d a t := fun h' ↦ hd h'.1
      rw [hunits, hholds, if_neg hs]

theorem Fits.value_eq (h : s.Fits v d a q) :
    (s.sem d a).value = v - s.holders d a - s.sleepers d a - s.lost d a := by
  have hsum : ∑ t, s.units d a t = s.holders d a + s.sleepers d a + s.lost d a := by
    rw [holders, sleepers, lost, Finset.card_filter, ← Finset.sum_add_distrib,
      ← Finset.sum_add_distrib]
    exact Finset.sum_congr rfl fun t _ ↦ h.units_eq t
  rw [h.value, ← Nat.cast_sum, hsum]
  push_cast
  omega

/-- The killed threads in the line. -/
def deadIn (s : XemSys) (q : Tickets) : ℕ :=
  (q.line.toFinset.filter fun t ↦ (s.table.proc t).killed = true).card

theorem Fits.length_eq (h : s.Fits v d a q) : q.line.length = s.sleepers d a + s.deadIn q := by
  have hlive : (q.line.toFinset.filter fun t ↦ ¬(s.table.proc t).killed = true) =
      Finset.univ.filter (s.Sleeps d a) := by
    ext t
    rw [Finset.mem_filter, List.mem_toFinset, Bool.not_eq_true, ← h.sleeps_iff]
    simp
  rw [← List.toFinset_card_of_nodup h.nodup, ← Finset.card_filter_add_card_filter_not
    (fun t ↦ (s.table.proc t).killed = true), hlive, sleepers, deadIn, Nat.add_comm]

/-- A killed thread in the line has taken something. -/
theorem Fits.dead_le (h : s.Fits v d a q) : s.deadIn q ≤ s.lost d a := by
  rw [deadIn, lost, ← Finset.sum_filter, Finset.card_eq_sum_ones]
  refine (Finset.sum_le_sum (g := s.units d a) ?_).trans (Finset.sum_le_sum_of_subset ?_)
  · intro t ht
    exact h.units t (List.mem_toFinset.1 (Finset.mem_filter.1 ht).1)
  · intro t ht
    exact Finset.mem_filter.2 ⟨Finset.mem_univ t, (Finset.mem_filter.1 ht).2⟩

/-- The semaphore is not held more often than its value. -/
theorem Fits.holders_le (h : s.Fits v d a q) : (s.holders d a : ℤ) ≤ v := by
  have hval := h.value_eq
  have hlen := h.length
  have hline := h.length_eq
  have hdead := h.dead_le
  omega

/-- If a thread sleeps, then what is not held has been taken by killed threads that are no longer in
the line. -/
theorem Fits.holders_of_sleeps (h : s.Fits v d a q) {t : Slot} (ht : s.Sleeps d a t) :
    (s.holders d a : ℤ) = v - s.lost d a + s.deadIn q := by
  have hval := h.value_eq
  have hlen := h.length
  have hline := h.length_eq
  have hpos : 0 < s.sleepers d a :=
    Finset.card_pos.2 ⟨t, Finset.mem_filter.2 ⟨Finset.mem_univ t, ht⟩⟩
  omega

theorem lost_eq_zero (h : ∀ t, (s.table.proc t).killed = false) (d a : ℕ) : s.lost d a = 0 := by
  refine Finset.sum_eq_zero fun t _ ↦ if_neg ?_
  rw [h t]
  exact nofun

theorem deadIn_eq_zero (h : ∀ t, (s.table.proc t).killed = false) (q : Tickets) : s.deadIn q = 0 := by
  rw [deadIn, Finset.card_eq_zero, Finset.filter_eq_empty_iff]
  intro t _
  rw [h t]
  exact nofun

/-! ### One semaphore -/

/-- The start: the semaphores in use have been initialized, and nobody uses them. -/
structure Start (U : ℕ → ℕ → Prop) (v : ℕ → ℕ → ℤ) (s : XemSys) : Prop where
  sem : ∀ d a, U d a → s.sem d a = Xem.init (v d a) ∧ 1 ≤ v d a
  /-- No thread is in `xem_wait`. -/
  call : ∀ t, s.call t = none
  held : ∀ t, s.held t = []
  killed : ∀ t, (s.table.proc t).killed = false

theorem Start.inv {v : ℕ → ℕ → ℤ} (h : Start U v s) : Inv U v (fun _ _ ↦ ⟨0, []⟩) s := by
  have hunits : ∀ d a t, s.units d a t = 0 := by
    intro d a t
    rw [units, h.held, h.call]
    split <;> rfl
  refine ⟨fun d a hU ↦ ?_, fun d a i t _ ht ↦ by cases ht⟩
  obtain ⟨hsem, hv⟩ := h.sem d a hU
  refine ⟨by rw [hsem]; rfl, by rw [hsem]; rfl, ?_, ?_, List.nodup_nil, by simp, by simp, by simp, by simp, ?_⟩
  · rw [hsem]
    show (0 : ℤ) = max 0 (-v d a)
    omega
  · rw [hsem]
    simp only [hunits, Nat.cast_zero, Finset.sum_const_zero, sub_zero]
    rfl
  · intro t _ hcall
    cases (h.call t).symm.trans hcall

/-- What a semaphore with initial value `v` guarantees in a state. -/
structure Guards (s : XemSys) (d a : ℕ) (v : ℤ) : Prop where
  /-- It is held at most `v` times. -/
  holders_le : (s.holders d a : ℤ) ≤ v
  /-- So at most `v` threads have it. -/
  threads_le : ((Finset.univ.filter fun t ↦ 0 < s.holds d a t).card : ℤ) ≤ v
  value : (s.sem d a).value = v - s.holders d a - s.sleepers d a
  /-- The threads that sleep do so on different channels. -/
  chan : ∀ t u, s.Sleeps d a t → s.Sleeps d a u →
    (s.table.proc t).chan = (s.table.proc u).chan → t = u
  /-- No thread sleeps while fewer than `v` hold. -/
  full : ∀ t, s.Sleeps d a t → (s.holders d a : ℤ) = v

/-- The number of threads that have the semaphore. -/
theorem card_holds_le (s : XemSys) (d a : ℕ) :
    (Finset.univ.filter fun t ↦ 0 < s.holds d a t).card ≤ s.holders d a := by
  calc (Finset.univ.filter fun t ↦ 0 < s.holds d a t).card
      = ∑ t ∈ Finset.univ.filter (fun t ↦ 0 < s.holds d a t), 1 := Finset.card_eq_sum_ones _
    _ ≤ ∑ t ∈ Finset.univ.filter (fun t ↦ 0 < s.holds d a t), s.holds d a t :=
        Finset.sum_le_sum fun t ht ↦ (Finset.mem_filter.1 ht).2
    _ ≤ s.holders d a := Finset.sum_le_sum_of_subset (Finset.subset_univ _)

variable {w : ℕ → ℕ → ℤ} {G : ℕ → ℕ → Tickets} {s' : XemSys}

theorem Inv.guards (h : Inv U w G s) (hU : U d a)
    (hlive : ∀ t, (s.table.proc t).killed = false) : s.Guards d a (w d a) := by
  have hf := h.fits d a hU
  have hle := hf.holders_le
  refine ⟨hle, ?_, ?_, ?_, ?_⟩
  · have := card_holds_le s d a
    omega
  · rw [hf.value_eq, lost_eq_zero hlive]
    omega
  · intro t u ht hu heq
    obtain ⟨i, hi⟩ := List.mem_iff_getElem?.1 ((hf.sleeps_iff u).1 hu).1
    refine h.alone d a i u hU hi t (by rw [ht.2.1]; exact nofun) ⟨ht.2.2, ?_⟩
    rw [heq]
    exact (hf.asleepOn i u hi (hlive u)).2
  · intro t ht
    rw [hf.holders_of_sleeps ht, lost_eq_zero hlive, deadIn_eq_zero hlive]
    omega

/-- The threads of the address space `d` use its semaphore `a`, and nothing else happens. -/
def Uses (d a : ℕ) (s : XemSys) (l : Slot × XemOp) : Prop :=
  (s.table.proc l.1).pgdir = some d ∧ (l.2 = .wait a ∨ l.2 = .resume ∨ l.2 = .unlock a)

instance (d a : ℕ) (s : XemSys) (l : Slot × XemOp) : Decidable (Uses d a s l) :=
  inferInstanceAs (Decidable (_ ∧ _))

/-- The semaphore `a` of the address space `d`. -/
def Only (d a d' a' : ℕ) : Prop := d' = d ∧ a' = a

/-- Whoever is in `xem_wait` is there for the semaphore `a` of the address space `d`. -/
def OnlyCalls (s : XemSys) (d a : ℕ) : Prop :=
  ∀ t a', s.call t = some a' → (s.table.proc t).pgdir = some d ∧ a' = a

variable {l : Slot × XemOp}

theorem Uses.isXem (h : Uses d a s l) : IsXem l.2 := by
  rcases h.2 with h | h | h <;> rw [h] <;> trivial

theorem Uses.eq_of_op {b : ℕ} (h : Uses d a s l) (hop : l.2 = .wait b ∨ l.2 = .unlock b) : b = a := by
  rcases h.2 with h | h | h
  · simpa [h, eq_comm] using hop
  · simp [h] at hop
  · simpa [h, eq_comm] using hop

/-- With one semaphore, all addresses are clear. -/
theorem OnlyCalls.clear (h : s.OnlyCalls d a) : Clear (Only d a) G s d a := by
  refine ⟨fun d' a' _ hU hne ↦ ?_, fun u a' hcall _ ↦ h u a' hcall⟩
  exact absurd (Prod.ext hU.1 hU.2) hne

theorem Uses.allowed (h : Uses d a s l) (hcalls : s.OnlyCalls d a) : Allowed (Only d a) G s l.1 l.2 := by
  obtain ⟨t, op⟩ := l
  obtain ⟨hd, hop | hop | hop⟩ := h
  · obtain rfl : op = .wait a := hop
    intro d' hd'
    obtain rfl := Option.mem_unique hd hd'
    exact ⟨⟨rfl, rfl⟩, fun _ ↦ hcalls.clear⟩
  · obtain rfl : op = .resume := hop
    trivial
  · obtain rfl : op = .unlock a := hop
    intro d' hd'
    exact ⟨Option.mem_unique hd' hd, rfl⟩

theorem OnlyCalls.step (h : s.OnlyCalls d a) (huses : Uses d a s l) (hstep : s.step l = some (.ok s')) :
    s'.OnlyCalls d a := by
  intro t a' ht
  rw [(step_fields huses.isXem hstep t).1]
  rcases step_call huses.isXem hstep ht with ht | ⟨rfl, hop⟩
  · exact h t a' ht
  · exact ⟨huses.1, huses.eq_of_op (.inl hop)⟩

/-- The semaphores, and the threads that sleep for one of them in the order in which they have gone to
sleep. -/
structure Ordered where
  /-- The system. -/
  sys : XemSys
  /-- The threads that sleep. -/
  order : List Slot

/-- A step. A thread that has gone to sleep is added to the order, and those that no longer sleep are
removed. -/
def Ordered.step (d a : ℕ) (σ : Ordered) (l : Slot × XemOp) : Option (Except Fault Ordered) :=
  match σ.sys.step l with
  | some (.ok s) => some (.ok ⟨s, (σ.order ++ if σ.sys.Sleeps d a l.1 then [] else [l.1]).filter
      (s.Sleeps d a)⟩)
  | some (.error e) => some (.error e)
  | none => none

/-- What is kept in the runs in which one semaphore is used and no thread is killed. -/
structure Ordered.Inv (d a : ℕ) (v : ℤ) (σ : Ordered) : Prop where
  inv : ∃ G, XemSys.Inv (Only d a) (fun _ _ ↦ v) G σ.sys ∧ (G d a).line = σ.order
  calls : σ.sys.OnlyCalls d a
  live : ∀ t, (σ.sys.table.proc t).killed = false

/-- The order after a step, and that an `xem_unlock` releases the first thread of the order. -/
theorem Ordered.Inv.step {σ σ' : Ordered} (h : σ.Inv d a v) (huses : Uses d a σ.sys l)
    (hstep : σ.step d a l = some (.ok σ')) : σ'.Inv d a v ∧ (l.2 = .unlock a → σ'.order = σ.order.tail) := by
  unfold Ordered.step at hstep
  split at hstep
  next s' hs' =>
    obtain rfl := Except.ok.inj (Option.some.inj hstep)
    obtain ⟨G, hinv, hline⟩ := h.inv
    obtain ⟨G', hmove, hinv'⟩ := hinv.step (huses.allowed h.calls) hs'
    have hlive' : ∀ t, (s'.table.proc t).killed = false := by
      intro t
      rw [(step_fields huses.isXem hs' t).2]
      exact h.live t
    have hU : Only d a d a := ⟨rfl, rfl⟩
    have hf := hinv.fits d a hU
    have hf' := hinv'.fits d a hU
    have hsleeps : ∀ t, σ.sys.Sleeps d a t ↔ t ∈ σ.order := by
      intro t
      rw [hf.sleeps_iff, hline]
      exact and_iff_left (h.live t)
    have hsleeps' : ∀ t, s'.Sleeps d a t ↔ t ∈ (G' d a).line := by
      intro t
      rw [hf'.sleeps_iff]
      exact and_iff_left (hlive' t)
    have hall : (G' d a).line.filter (s'.Sleeps d a) = (G' d a).line := by
      refine List.filter_eq_self.2 fun t ht ↦ ?_
      exact decide_eq_true ((hsleeps' t).2 ht)
    -- A thread that was in the order before is not added, and one that is awake is removed.
    have hnew : (∀ t ∈ (G' d a).line, t ∈ σ.order) →
        (if σ.sys.Sleeps d a l.1 then [] else [l.1]).filter (s'.Sleeps d a) = [] := by
      intro hsub
      split
      · rfl
      next hnot =>
        refine List.filter_eq_nil_iff.2 fun t ht ↦ ?_
        rw [List.mem_singleton.1 ht, decide_eq_true_iff, hsleeps']
        exact fun hmem ↦ hnot ((hsleeps _).2 (hsub _ hmem))
    -- The order after the step is the new line.
    have horder : (σ.order ++ if σ.sys.Sleeps d a l.1 then [] else [l.1]).filter (s'.Sleeps d a) =
        (G' d a).line ∧ (l.2 = .unlock a → (G' d a).line = σ.order.tail) := by
      rw [List.filter_append]
      cases hmove with
      | same hgive =>
        rw [hnew (fun t ht ↦ hline ▸ ht), List.append_nil, ← hline, hall]
        refine ⟨rfl, fun hop ↦ ?_⟩
        have hlen := hf.length
        have hge := hgive d a hop huses.1
        have hnil : (G d a).line = [] := List.length_eq_zero_iff.1 (by omega)
        rw [hnil, List.tail_nil]
      | @sleep d₁ a₁ hop hd₁ =>
        obtain rfl := Option.some.inj (hd₁.symm.trans huses.1)
        obtain rfl := huses.eq_of_op (.inl hop)
        have hline' : (enqueue G d₁ a₁ l.1 d₁ a₁).line = σ.order ++ [l.1] := by
          rw [enqueue, update₂_self, hline]
        have hnot : ¬σ.sys.Sleeps d₁ a₁ l.1 := by
          have hnodup := hf'.nodup
          rw [hline', List.nodup_append] at hnodup
          exact fun hs ↦ hnodup.2.2 l.1 ((hsleeps l.1).1 hs) l.1 (List.mem_singleton_self _) rfl
        rw [if_neg hnot, ← List.filter_append, ← hline']
        exact ⟨hall, fun h ↦ by cases hop.symm.trans h⟩
      | @pass d₁ a₁ hop hd₁ hneg =>
        obtain rfl := Option.some.inj (hd₁.symm.trans huses.1)
        obtain rfl := huses.eq_of_op (.inr hop)
        have hline' : (dequeue G d₁ a₁ d₁ a₁).line = σ.order.tail := by
          rw [dequeue, update₂_self, hline]
        have hnodup := hf.nodup
        rw [hline] at hnodup
        rw [hnew fun t ht ↦ List.mem_of_mem_tail (hline' ▸ ht), List.append_nil]
        refine ⟨?_, fun _ ↦ hline'⟩
        cases ho : σ.order with
        | nil =>
          rw [ho] at hline'
          rw [hline']
          rfl
        | cons x rest =>
          rw [ho, List.tail_cons] at hline'
          rw [ho, List.nodup_cons] at hnodup
          have hx : ¬s'.Sleeps d₁ a₁ x := by
            rw [hsleeps', hline']
            exact hnodup.1
          rw [List.filter_cons_of_neg (by rw [decide_eq_true_iff]; exact hx), ← hline']
          exact hall
    refine ⟨⟨⟨G', hinv', horder.1.symm⟩, h.calls.step huses hs', hlive'⟩, fun hop ↦ ?_⟩
    exact horder.1.trans (horder.2 hop)
  · cases Option.some.inj hstep
  · cases hstep

/-- **A semaphore is a semaphore.** From a semaphore with value `v`, at least 1, after every sequence of
steps of `xem_wait` and `xem_unlock` on it by threads of its address space: it is held at most `v` times;
the value is `v` minus what is held minus the threads that sleep; those sleep on different channels;
nobody sleeps while it is held less than `v` times; and the threads that sleep are released by
`xem_unlock` in the order in which they have gone to sleep. -/
theorem semaphore_correct {s : XemSys} {σ : Ordered} {d a : ℕ} {v : ℤ}
    {ls : List (Slot × XemOp)} (hstart : Start (Only d a) (fun _ _ ↦ v) s)
    (hrun : Machine.Run (Machine.guarded (fun σ l ↦ Uses d a σ.sys l) (Ordered.step d a)) ⟨s, []⟩
      ls σ) :
    σ.sys.Guards d a v ∧ (∀ t, σ.sys.Sleeps d a t ↔ t ∈ σ.order) ∧
      ∀ t σ', (σ.sys.table.proc t).pgdir = some d → σ.step d a (t, .unlock a) = some (.ok σ') →
        σ'.order = σ.order.tail := by
  have hinv : σ.Inv d a v := by
    refine hrun.invariant (P := Ordered.Inv d a v) ⟨⟨_, hstart.inv, rfl⟩, ?_, hstart.killed⟩ ?_
    · intro t a' ht
      exact nomatch (hstart.call t).symm.trans ht
    · intro σ₁ σ₂ l h hstep
      obtain ⟨huses, hstep⟩ := guarded_eq_some.1 hstep
      exact (h.step huses hstep).1
  obtain ⟨G, hG, hline⟩ := hinv.inv
  refine ⟨hG.guards ⟨rfl, rfl⟩ hinv.live, fun t ↦ ?_, fun t σ' hd hstep ↦ ?_⟩
  · rw [(hG.fits d a ⟨rfl, rfl⟩).sleeps_iff, hline]
    exact and_iff_left (hinv.live t)
  · exact (hinv.step ⟨hd, .inr (.inr rfl)⟩ hstep).2 rfl

/-- A system in which nobody uses the semaphores, and each of them has been initialized. -/
def fresh (table : Ptable) (v : ℤ) : XemSys := ⟨table, fun _ _ ↦ Xem.init v, fun _ ↦ none, fun _ ↦ []⟩

theorem start_fresh {table : Ptable} (h : ∀ t, (table.proc t).killed = false) (hv : 1 ≤ v) :
    Start U (fun _ _ ↦ v) (fresh table v) :=
  ⟨fun _ _ _ ↦ ⟨rfl, hv⟩, fun _ ↦ rfl, fun _ ↦ rfl, h⟩

/-- A table of processes that have not been killed, and a run from it, found by computing them. -/
theorem exists_run_of_calls {σ α ε : Type} {start : Ptable → σ} {step : σ → α → Option (Except ε σ)} {ls : List α}
    {Q : σ → Prop} (cs : List (Slot × Call)) (D : σ → Prop) [DecidablePred D]
    (h : Ptable.bootReaches (List.range' 1 400) cs (fun table ↦
      (∀ t, (table.proc t).killed = false) ∧ reaches step (start table) ls fun σ ↦ D σ) = true)
    (hQ : ∀ table σ, (∀ t, (table.proc t).killed = false) → Run step (start table) ls σ → D σ → Q σ) :
    ∃ table σ, (∀ t, (table.proc t).killed = false) ∧ Run step (start table) ls σ ∧ Q σ := by
  obtain ⟨table, -, hP⟩ := Ptable.exists_reachable h
  obtain ⟨hlive, hreach⟩ := of_decide_eq_true hP
  obtain ⟨σ, hrun, hσ⟩ := exists_run hreach
  exact ⟨table, σ, hlive, hrun, hQ table σ hlive hrun (of_decide_eq_true hσ)⟩

/-- The theorem at a run: the second thread waits for the first one, and gets the semaphore from it. -/
theorem semaphore_correct_two_threads : ∃ table σ, (∀ t, (table.proc t).killed = false) ∧
    Machine.Run (Machine.guarded (fun σ l ↦ Uses 0 8192 σ.sys l) (Ordered.step 0 8192))
      ⟨fresh table 1, []⟩ [(0, .wait 8192), (1, .wait 8192), (0, .unlock 8192), (1, .resume)] σ ∧
    σ.sys.Guards 0 8192 1 ∧ σ.sys.holds 0 8192 1 = 1 :=
  exists_run_of_calls [(0, .threadCreate)] (fun σ ↦ σ.sys.holds 0 8192 1 = 1) (by decide +kernel)
    fun table σ hlive hrun hholds ↦ ⟨(semaphore_correct (start_fresh hlive le_rfl) hrun).1, hholds⟩

/-! ### Semaphores of several address spaces -/

/-- The threads use the semaphores in `U`, and nothing else happens. -/
def Legal (U : ℕ → ℕ → Prop) (s : XemSys) (l : Slot × XemOp) : Prop :=
  match l.2 with
  | .wait a => ∀ d ∈ (s.table.proc l.1).pgdir, U d a
  | .resume => True
  | .unlock a => ∀ d ∈ (s.table.proc l.1).pgdir, U d a
  | .kill _ | .exit => False

/-- No thread goes to sleep on an address on which another one sleeps for another semaphore. -/
def Apart (s : XemSys) (l : Slot × XemOp) : Prop :=
  match l.2 with
  | .wait a => ∀ d ∈ (s.table.proc l.1).pgdir, (s.sem d a).value ≤ 0 →
      ∀ u, ∀ a' ∈ s.call u, s.AsleepOn u (Xem.chanAt a (s.sem d a).count) →
        (s.table.proc u).pgdir = some d ∧ a' = a
  | _ => True

instance [∀ d a, Decidable (U d a)] (s : XemSys) (l : Slot × XemOp) : Decidable (Legal U s l) :=
  match l with
  | (_, .wait _) | (_, .unlock _) => inferInstanceAs (Decidable (∀ _, _))
  | (_, .resume) => isTrue trivial
  | (_, .kill _) | (_, .exit) => isFalse id

instance (s : XemSys) (l : Slot × XemOp) : Decidable (Apart s l) :=
  match l with
  | (_, .wait _) => inferInstanceAs (Decidable (∀ _, _))
  | (_, .resume) | (_, .unlock _) | (_, .kill _) | (_, .exit) => isTrue trivial

theorem Legal.isXem (h : Legal U s l) : IsXem l.2 := by
  obtain ⟨t, op⟩ := l
  cases op with
  | wait a | resume | unlock a => trivial
  | kill pid | exit => exact h.elim

/-- Without killed threads, an address on which no thread sleeps for another semaphore does not belong
to a place of another line. -/
theorem Legal.allowed (h : Legal U s l) (hapart : Apart s l) (hinv : Inv U w G s)
    (hlive : ∀ t, (s.table.proc t).killed = false) : Allowed U G s l.1 l.2 := by
  obtain ⟨t, op⟩ := l
  cases op with
  | wait a =>
    intro d hd
    refine ⟨h d hd, fun hle ↦ ⟨fun d' a' i hU' hne hi heq ↦ ?_, hapart d hd hle⟩⟩
    have hf := hinv.fits d' a' hU'
    obtain ⟨u, hu⟩ : ∃ u, (G d' a').line[i]? = some u := ⟨_, List.getElem?_eq_getElem hi⟩
    have hmem := List.mem_of_getElem? hu
    have hon := hf.asleepOn i u hu (hlive u)
    rw [heq] at hon
    obtain ⟨hpg, ha⟩ := hapart d hd hle u a' (hf.call u hmem (hlive u)) hon
    have hd' := Option.some.inj ((hf.pgdir u hmem).symm.trans hpg)
    exact hne (Prod.ext hd' ha)
  | resume => trivial
  | unlock a => exact h
  | kill pid | exit => exact h.elim

/-- An `xem_unlock` wakes up only a thread that sleeps for the same semaphore. -/
theorem Inv.unlock_wakes {t u : Slot} {b : ℕ} (h : Inv U w G s) (hU : U d a)
    (hlive : ∀ t, (s.table.proc t).killed = false) (hu : s.call u = some b)
    (hsleep : (s.table.proc u).state = .SLEEPING)
    (hwoken : ((s.unlock t d a).table.proc u).state ≠ .SLEEPING) :
    (s.table.proc u).pgdir = some d ∧ b = a := by
  have hf := h.fits d a hU
  rcases lt_or_ge (s.sem d a).value 0 with hneg | hge
  · have hlen := hf.length
    have hpos : 0 < (G d a).line.length := by omega
    obtain ⟨x, hx⟩ : ∃ x, (G d a).line[0]? = some x := ⟨_, List.getElem?_eq_getElem hpos⟩
    have hp : Passes s (s.unlock t d a) t d a _ := passes_unlock hneg
    rw [hf.dcount] at hp
    rcases hp.proc u with ⟨hon, -⟩ | ⟨-, heq⟩
    · obtain rfl := h.alone d a 0 x hU hx u (by rw [hu]; exact nofun) hon
      have hmem := List.mem_of_getElem? hx
      have hcall := hf.call u hmem (hlive u)
      exact ⟨hf.pgdir u hmem, Option.mem_unique hu hcall⟩
    · rw [heq] at hwoken
      exact absurd hsleep hwoken
  · rw [unlock_of_nonneg hge] at hwoken
    exact absurd hsleep hwoken

/-- What holds of the semaphores in `U` separately. -/
structure Independent (U : ℕ → ℕ → Prop) (w : ℕ → ℕ → ℤ) (s : XemSys) : Prop where
  /-- An `xem_unlock` never wakes up a thread that sleeps for another semaphore. -/
  wakes : ∀ t d a s', (s.table.proc t).pgdir = some d → U d a →
    s.step (t, .unlock a) = some (.ok s') → ∀ u b, s.call u = some b →
      (s.table.proc u).state = .SLEEPING → (s'.table.proc u).state ≠ .SLEEPING →
        (s.table.proc u).pgdir = some d ∧ b = a
  guards : ∀ d a, U d a → s.Guards d a (w d a)

/-- **Semaphores of different address spaces are independent.** For any semaphores of any address
spaces, in every run in which no thread goes to sleep on an address on which another one sleeps for
another semaphore, an `xem_unlock` wakes up only a thread that sleeps for the same semaphore, and each
semaphore is a semaphore. -/
theorem semaphores_independent {s s' : XemSys} {U : ℕ → ℕ → Prop} {w : ℕ → ℕ → ℤ}
    {ls : List (Slot × XemOp)} [∀ d a, Decidable (U d a)] (hstart : Start U w s)
    (hrun : Machine.Run (Machine.guarded (fun s l ↦ Legal U s l ∧ Apart s l) step) s ls s') :
    Independent U w s' := by
  have hinv : (∃ G, Inv U w G s') ∧ ∀ t, (s'.table.proc t).killed = false := by
    refine hrun.invariant (P := fun s ↦ (∃ G, Inv U w G s) ∧ ∀ t, (s.table.proc t).killed = false)
      ⟨⟨_, hstart.inv⟩, hstart.killed⟩ ?_
    intro s₁ s₂ l ⟨⟨G, h⟩, hlive⟩ hstep
    obtain ⟨⟨hlegal, hapart⟩, hstep⟩ := guarded_eq_some.1 hstep
    obtain ⟨G', -, h'⟩ := h.step (hlegal.allowed hapart h hlive) hstep
    refine ⟨⟨G', h'⟩, fun t ↦ ?_⟩
    rw [(step_fields hlegal.isXem hstep t).2]
    exact hlive t
  obtain ⟨⟨G, hG⟩, hlive⟩ := hinv
  refine ⟨?_, fun d a hU ↦ hG.guards hU hlive⟩
  intro t d a s₁ hd hU hstep u b hu hsleep hwoken
  refine hG.unlock_wakes (t := t) hU hlive hu hsleep ?_
  cases did_of_step hstep with
  | @give t d₁ a₁ hd₁ _ _ _ | @pass t d₁ a₁ hd₁ _ _ _ => rwa [Option.mem_unique hd hd₁]

/-- The semaphores at one address, in all address spaces. -/
def AtAddr (a : ℕ) (_ a' : ℕ) : Prop := a' = a

instance (a d a' : ℕ) : Decidable (AtAddr a d a') := inferInstanceAs (Decidable (a' = a))

/-- The theorem at a run: two processes use semaphores at the same address, one after the other. -/
theorem semaphores_independent_in_turn : ∃ table s, (∀ t, (table.proc t).killed = false) ∧
    Machine.Run (Machine.guarded (fun s l ↦ Legal (AtAddr 8192) s l ∧ Apart s l) step)
      (fresh table 1) [(0, .wait 8192), (1, .wait 8192), (0, .unlock 8192), (1, .resume),
        (2, .wait 8192), (3, .wait 8192), (2, .unlock 8192)] s ∧
    Independent (AtAddr 8192) (fun _ _ ↦ 1) s ∧ s.holds 0 8192 1 = 1 ∧ s.holds 1 8192 3 = 1 :=
  exists_run_of_calls [(0, .threadCreate), (0, .fork), (2, .threadCreate)]
    (fun s ↦ s.holds 0 8192 1 = 1 ∧ s.holds 1 8192 3 = 1) (by decide +kernel) fun table s hlive hrun hholds ↦
      ⟨semaphores_independent (start_fresh hlive le_rfl) hrun, hholds⟩

/-- **An `xem_unlock` wakes up a thread of another process.** Two processes, one forked by the other,
have a semaphore of value 1 at the same address, each with two threads. When the second thread of each
sleeps, an `xem_unlock` by the first process wakes up both, and then both threads of the second process
have returned from `xem_wait`. -/
theorem unlock_wakes_other_space : ∃ table s s', (∀ t, (table.proc t).killed = false) ∧
    Machine.Run (Machine.guarded (Legal (AtAddr 8192)) step) (fresh table 1)
      [(0, .wait 8192), (1, .wait 8192), (2, .wait 8192), (3, .wait 8192)] s ∧
    s.Sleeps 1 8192 3 ∧ (s.table.proc 0).pgdir = some 0 ∧
    Machine.Run (Machine.guarded (Legal (AtAddr 8192)) step) s
      [(0, .unlock 8192), (3, .resume)] s' ∧
    8192 ∈ s'.held 2 ∧ 8192 ∈ s'.held 3 ∧ s'.holders 1 8192 = 2 := by
  have hrun : ∃ table s, (∀ t, (table.proc t).killed = false) ∧ Run (guarded (Legal (AtAddr 8192)) step) (fresh table 1)
      [(0, .wait 8192), (1, .wait 8192), (2, .wait 8192), (3, .wait 8192)] s ∧ s.Sleeps 1 8192 3 ∧
        (s.table.proc 0).pgdir = some 0 ∧ reaches (guarded (Legal (AtAddr 8192)) step) s [(0, .unlock 8192), (3, .resume)]
          fun s' ↦ 8192 ∈ s'.held 2 ∧ 8192 ∈ s'.held 3 ∧ s'.holders 1 8192 = 2 :=
    exists_run_of_calls [(0, .threadCreate), (0, .fork), (2, .threadCreate)] _ (by decide +kernel) fun _ _ _ _ h ↦ h
  obtain ⟨table, s, hlive, hrun, hsleeps, hpgdir, hs'⟩ := hrun
  obtain ⟨s', hrun', hs'⟩ := exists_run hs'
  exact ⟨table, s, s', hlive, hrun, hsleeps, hpgdir, hrun', of_decide_eq_true hs'⟩

end XemSys

end Xv6
