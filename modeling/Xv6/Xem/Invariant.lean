import Mathlib.Algebra.BigOperators.Ring.Finset
import Mathlib.Data.Fintype.Card
import Xv6.Proc.Table
import Xv6.Xem.Basic

/-!
# The invariant of the semaphores

There is no loop around `sleep` in `xem_wait`: a thread that is woken up has the semaphore. So what
makes `xem_unlock` right is that the entry of `arr` it wakes up is that of the thread which has waited
longest, and of no other one. `Tickets` is the line of the threads that wait, with the number of the
first one; `Inv` says that the numbers in each semaphore belong to such a line, that `value` counts
what has been taken, and that no two numbers of lines are the same address.

It is kept by all steps but `exit`, provided that a thread does not go to sleep on an address that is
already in use for another semaphore (`Clear`). A killed thread stays in its line: its number has been
given out, and an `xem_unlock` will be spent on it.
-/

namespace Xv6

open Vm Function XemSys Ptable

namespace Xem

/-- The index for the number `n`, which has wrapped around. -/
theorem index_ofNat (n : ℕ) : index (BitVec.ofNat 32 n) =
    if n % 4294967296 < 2147483648 then ((n % 4294967296 % 9991 : ℕ) : ℤ)
    else -(((4294967296 - n % 4294967296) % 9991 : ℕ) : ℤ) := by
  have h32 : 2 ^ 32 = 4294967296 := rfl
  unfold index SIZE
  rw [BitVec.toInt_eq_toNat_cond, BitVec.toNat_ofNat, h32]
  split
  next h =>
    rw [if_pos (by omega), Int.tmod_eq_emod_of_nonneg (by omega)]
    rfl
  next h =>
    have hneg : ((n % 4294967296 : ℕ) : ℤ) - (4294967296 : ℕ) =
        -((4294967296 - n % 4294967296 : ℕ) : ℤ) := by omega
    rw [if_neg (by omega), hneg, Int.neg_tmod, Int.tmod_eq_emod_of_nonneg (by omega)]
    rfl

/-- Numbers that are not far apart have different indexes, also where they wrap around: `SIZE` does
not divide `2 ^ 31`, but the indexes change their sign there. -/
theorem index_inj {n m : ℕ} (hle : n ≤ m) (hlt : m < n + 128)
    (h : index (BitVec.ofNat 32 n) = index (BitVec.ofNat 32 m)) : n = m := by
  rw [index_ofNat, index_ofNat] at h
  obtain ⟨k, rfl⟩ := Nat.exists_eq_add_of_le hle
  have hk : k < 128 := by omega
  have hx : n % 4294967296 < 4294967296 := Nat.mod_lt _ (by decide)
  -- The number wraps around between the two, or it does not.
  have hy : (n + k) % 4294967296 = n % 4294967296 + k ∨
      (n + k) % 4294967296 + 4294967296 = n % 4294967296 + k := by omega
  generalize (n + k) % 4294967296 = y at *
  generalize n % 4294967296 = x at *
  split at h <;> split at h <;> omega

theorem index_bounds (n : ℕ) :
    -9991 < index (BitVec.ofNat 32 n) ∧ index (BitVec.ofNat 32 n) < 9991 := by
  rw [index_ofNat]
  split <;> omega

/-- Numbers that are not far apart have different addresses. -/
theorem chanAt_inj {a n m : ℕ} (hle : n ≤ m) (hlt : m < n + 128)
    (h : chanAt a (BitVec.ofNat 32 n) = chanAt a (BitVec.ofNat 32 m)) : n = m := by
  refine index_inj hle hlt ?_
  have hn := index_bounds n
  have hm := index_bounds m
  unfold chanAt uint at h
  omega

end Xem

/-- The slots that wait for a semaphore, in the order of their numbers. -/
structure Tickets where
  /-- The number of the first one. -/
  first : ℕ
  /-- The slots. -/
  line : List Slot

/-- The address on which the slot at place `i` of the line sleeps. -/
def Tickets.chan (q : Tickets) (a i : ℕ) : ℕ := Xem.chanAt a (BitVec.ofNat 32 (q.first + i))

namespace XemSys

/-- How often a thread of the address space `d` has lowered the value of the semaphore `a` and not
raised it again. -/
def units (s : XemSys) (d a : ℕ) (t : Slot) : ℕ :=
  if (s.table.proc t).pgdir = some d then
    (s.held t).count a + if s.call t = some a then 1 else 0
  else 0

/-- The line `q` belongs to the semaphore `a` of the address space `d`, whose value was `v` at the
start. -/
structure Fits (s : XemSys) (v : ℤ) (d a : ℕ) (q : Tickets) : Prop where
  count : (s.sem d a).count = BitVec.ofNat 32 (q.first + q.line.length)
  dcount : (s.sem d a).dcount = BitVec.ofNat 32 q.first
  length : (q.line.length : ℤ) = max 0 (-(s.sem d a).value)
  value : (s.sem d a).value = v - ∑ t, (s.units d a t : ℤ)
  nodup : q.line.Nodup
  pgdir : ∀ t ∈ q.line, (s.table.proc t).pgdir = some d
  units : ∀ t ∈ q.line, 1 ≤ s.units d a t
  /-- It is in `xem_wait`, unless it has been killed. -/
  call : ∀ t ∈ q.line, (s.table.proc t).killed = false → s.call t = some a
  /-- It sleeps on the address for its number, unless it has been killed. -/
  asleepOn : ∀ i t, q.line[i]? = some t → (s.table.proc t).killed = false →
    s.AsleepOn t (q.chan a i)
  /-- A thread that is asleep is in the line. -/
  asleep : ∀ t, (s.table.proc t).pgdir = some d → s.call t = some a →
    (s.table.proc t).state = .SLEEPING → t ∈ q.line ∧ (s.table.proc t).killed = false

/-- The lines `G` belong to the semaphores in use, whose values were `v` at the start, and an address
that belongs to a place of a line is used by nobody else. -/
structure Inv (U : ℕ → ℕ → Prop) (v : ℕ → ℕ → ℤ) (G : ℕ → ℕ → Tickets) (s : XemSys) : Prop where
  fits : ∀ d a, U d a → s.Fits (v d a) d a (G d a)
  /-- The addresses. -/
  alone : ∀ d a i t, U d a → (G d a).line[i]? = some t → ∀ u, s.call u ≠ none →
    s.AsleepOn u ((G d a).chan a i) → u = t

/-- The address on which a thread would go to sleep for the semaphore `a` of the address space `d` is
not in use for another semaphore. -/
structure Clear (U : ℕ → ℕ → Prop) (G : ℕ → ℕ → Tickets) (s : XemSys) (d a : ℕ) : Prop where
  /-- It does not belong to a place of another line. -/
  chan : ∀ d' a' i, U d' a' → (d', a') ≠ (d, a) → i < (G d' a').line.length →
    (G d' a').chan a' i ≠ Xem.chanAt a (s.sem d a).count
  /-- Nobody else sleeps on it. -/
  asleep : ∀ u a', s.call u = some a' → s.AsleepOn u (Xem.chanAt a (s.sem d a).count) →
    (s.table.proc u).pgdir = some d ∧ a' = a

variable {U : ℕ → ℕ → Prop} {v : ℕ → ℕ → ℤ} {G : ℕ → ℕ → Tickets} {s s' : XemSys} {t : Slot} {d a : ℕ}

/-- A line is not longer than the process table. -/
theorem Fits.length_le {v : ℤ} {q : Tickets} (h : s.Fits v d a q) : q.line.length ≤ 64 := by
  have hle := h.nodup.length_le_card
  rwa [Fintype.card_fin] at hle

/-- One thread has taken `k` more, or given it back. -/
theorem sum_units {k : ℤ} (hother : ∀ u, u ≠ t → s'.units d a u = s.units d a u)
    (hself : (s'.units d a t : ℤ) = s.units d a t + k) :
    ∑ u, (s'.units d a u : ℤ) = (∑ u, (s.units d a u : ℤ)) + k := by
  have hs := Finset.add_sum_erase Finset.univ (fun u ↦ (s.units d a u : ℤ)) (Finset.mem_univ t)
  have hs' := Finset.add_sum_erase Finset.univ (fun u ↦ (s'.units d a u : ℤ)) (Finset.mem_univ t)
  have heq : ∑ u ∈ Finset.univ.erase t, (s'.units d a u : ℤ) =
      ∑ u ∈ Finset.univ.erase t, (s.units d a u : ℤ) :=
    Finset.sum_congr rfl fun u hu ↦ by rw [hother u (Finset.ne_of_mem_erase hu)]
  omega

/-- A step that does nothing to a semaphore but to `end`, and to the threads in its line. -/
theorem Fits.congr {v : ℤ} {q : Tickets} (h : s.Fits v d a q)
    (hsem : ∃ e, s'.sem d a = { s.sem d a with ended := e }) (hunits : ∀ u, s'.units d a u = s.units d a u)
    (hpgdir : ∀ u, (s'.table.proc u).pgdir = (s.table.proc u).pgdir)
    (hline : ∀ u ∈ q.line, (s'.table.proc u).killed = false → (s.table.proc u).killed = false ∧
      s'.call u = s.call u ∧ ∀ c, s.AsleepOn u c → s'.AsleepOn u c)
    (hasleep : ∀ u, (s.table.proc u).pgdir = some d → s'.call u = some a →
      (s'.table.proc u).state = .SLEEPING → s.call u = some a ∧
        (s.table.proc u).state = .SLEEPING ∧ (s'.table.proc u).killed = (s.table.proc u).killed) :
    s'.Fits v d a q := by
  obtain ⟨e, hsem⟩ := hsem
  refine ⟨?_, ?_, ?_, ?_, h.nodup, fun u hu ↦ (hpgdir u).trans (h.pgdir u hu),
    fun u hu ↦ (hunits u).symm ▸ h.units u hu, fun u hu hk ↦ ?_, fun i u hu hk ↦ ?_, fun u hpg hcall hstate ↦ ?_⟩
  · rw [hsem]
    exact h.count
  · rw [hsem]
    exact h.dcount
  · rw [hsem]
    exact h.length
  · rw [hsem]
    simpa only [hunits] using h.value
  · obtain ⟨hk', hcall, -⟩ := hline u hu hk
    exact hcall.trans (h.call u hu hk')
  · obtain ⟨hk', -, hon⟩ := hline u (List.mem_of_getElem? hu) hk
    exact hon _ (h.asleepOn i u hu hk')
  · rw [hpgdir u] at hpg
    obtain ⟨hcall', hstate', hk⟩ := hasleep u hpg hcall hstate
    rw [hk]
    exact h.asleep u hpg hcall' hstate'

/-! ### `xem_wait` up to `sleep` -/

/-- The semaphore `x` when its value has been lowered. -/
def lowered (x : Xem) : Xem := ⟨x.value - 1, x.ended, x.count, x.dcount⟩

/-- The semaphore `x` when a thread goes to sleep. -/
def slept (x : Xem) : Xem := ⟨x.value - 1, x.ended, x.count + 1, x.dcount⟩

theorem wait_of_pos (h : 0 < (s.sem d a).value) :
    s.wait t d a = (s.setSem d a (lowered (s.sem d a))).setHeld t (a :: s.held t) := by
  unfold wait Xem.wait
  rw [if_neg (by omega)]
  rfl

theorem wait_of_le (h : (s.sem d a).value ≤ 0) : s.wait t d a =
    ((s.setSem d a (slept (s.sem d a))).setTable (s.table.setProc t (((s.table.proc t).setChan
      (some (.addr (Xem.chanAt a (s.sem d a).count)))).setState .SLEEPING))).setCall t (some a) := by
  unfold wait Xem.wait
  rw [if_pos (by omega)]
  rfl

/-- Another semaphore, or a thread of another address space. -/
theorem ne_of_pair {d' a' : ℕ} (h : (d', a') ≠ (d, a)) (hd : (s.table.proc t).pgdir = some d)
    (hd' : (s.table.proc t).pgdir = some d') : a' ≠ a := by
  rintro rfl
  exact h (by rw [Option.mem_unique hd' hd])

/-- Only the thread `t` has moved, and it still has its page directory and its mark. -/
structure Moves (s s' : XemSys) (t : Slot) : Prop where
  proc : ∀ u, u ≠ t → s'.table.proc u = s.table.proc u
  call : ∀ u, u ≠ t → s'.call u = s.call u
  held : ∀ u, u ≠ t → s'.held u = s.held u
  fields : (s'.table.proc t).pgdir = (s.table.proc t).pgdir ∧ (s'.table.proc t).killed = (s.table.proc t).killed

namespace Moves

variable (h : Moves s s' t)

include h

theorem pgdir (u : Slot) : (s'.table.proc u).pgdir = (s.table.proc u).pgdir := by
  rcases eq_or_ne u t with rfl | hu
  · exact h.fields.1
  · rw [h.proc u hu]

theorem killed (u : Slot) : (s'.table.proc u).killed = (s.table.proc u).killed := by
  rcases eq_or_ne u t with rfl | hu
  · exact h.fields.2
  · rw [h.proc u hu]

theorem asleepOn {u : Slot} (hu : u ≠ t) (c : ℕ) : s'.AsleepOn u c ↔ s.AsleepOn u c := by
  rw [AsleepOn, AsleepOn, h.proc u hu]

theorem units (d a : ℕ) {u : Slot} (hu : u ≠ t) : s'.units d a u = s.units d a u := by
  rw [XemSys.units, XemSys.units, h.pgdir, h.held u hu, h.call u hu]

end Moves

theorem moves_resume : Moves s (s.resume t d a) t :=
  ⟨fun u hu ↦ update_of_ne hu .., fun u hu ↦ update_of_ne hu .., fun u hu ↦ update_of_ne hu ..,
    by simp [resume]⟩

/-- What `wakeup1` does to a slot: it is woken up, or it was not asleep on the channel and is as it
was. -/
theorem wake_proc (s : Ptable) (c : ℕ) (u : Slot) :
    ((s.proc u).state = .SLEEPING ∧ (s.proc u).chan = some (.addr c) ∧
      (s.wake (.addr c)).proc u = (s.proc u).setState .RUNNABLE) ∨
    (¬((s.proc u).state = .SLEEPING ∧ (s.proc u).chan = some (.addr c)) ∧
      (s.wake (.addr c)).proc u = s.proc u) := by
  rw [wake, mapProcs_proc]
  split
  next h =>
    rw [Bool.and_eq_true, decide_eq_true_iff, decide_eq_true_iff] at h
    exact .inl ⟨h.1, h.2, rfl⟩
  next h =>
    rw [Bool.and_eq_true, decide_eq_true_iff, decide_eq_true_iff] at h
    exact .inr ⟨h, rfl⟩

theorem wake_fields (table : Ptable) (c : ℕ) (u : Slot) :
    ((table.wake (.addr c)).proc u).pgdir = (table.proc u).pgdir ∧
      ((table.wake (.addr c)).proc u).killed = (table.proc u).killed := by
  rcases wake_proc table c u with ⟨-, -, heq⟩ | ⟨-, heq⟩
  all_goals
    rw [heq]
    exact ⟨rfl, rfl⟩

/-- A thread in a line is not one that can make a call. -/
theorem Inv.ne_caller (h : Inv U v G s) (hmay : s.MayCall t) (hU : U d a) {u : Slot} (hu : u ∈ (G d a).line) :
    u ≠ t := by
  rintro rfl
  exact nomatch hmay.2.1.symm.trans ((h.fits d a hU).call u hu hmay.2.2)

/-- A thread takes from the value or adds to it, and nobody waits before or after. -/
theorem Inv.exchange (h : Inv U v G s) (hd : (s.table.proc t).pgdir = some d) {x : Xem} {l : List ℕ}
    (hval : 0 ≤ (s.sem d a).value) (hval' : 0 ≤ x.value) (hcount : x.count = (s.sem d a).count)
    (hdcount : x.dcount = (s.sem d a).dcount)
    (hself : (l.count a : ℤ) + x.value = (s.held t).count a + (s.sem d a).value)
    (hother : ∀ b, b ≠ a → l.count b = (s.held t).count b) : Inv U v G ((s.setSem d a x).setHeld t l) := by
  refine ⟨fun d' a' hU' ↦ ?_, h.alone⟩
  rcases eq_or_ne (d', a') (d, a) with heq | hne
  · obtain ⟨rfl, rfl⟩ := Prod.mk.inj heq
    have hf := h.fits d' a' hU'
    -- The line is empty, since the value is not negative.
    have hlen := hf.length
    have hnil : (G d' a').line = [] := List.length_eq_zero_iff.1 (by omega)
    have hsum : ∑ u, (((s.setSem d' a' x).setHeld t l).units d' a' u : ℤ) =
        (∑ u, (s.units d' a' u : ℤ)) + ((l.count a' : ℤ) - (s.held t).count a') := by
      refine sum_units (t := t) (fun u hu ↦ ?_) ?_
      · simp [units, hu]
      · simp [units, hd]
        omega
    refine ⟨?_, ?_, ?_, ?_, hf.nodup, hf.pgdir, ?_, hf.call, hf.asleepOn, hf.asleep⟩
    · rw [setHeld_sem, setSem_sem, update₂_self, hcount]
      exact hf.count
    · rw [setHeld_sem, setSem_sem, update₂_self, hdcount]
      exact hf.dcount
    · rw [setHeld_sem, setSem_sem, update₂_self]
      omega
    · rw [setHeld_sem, setSem_sem, update₂_self, hsum]
      have := hf.value
      omega
    · rw [hnil]
      exact nofun
  · refine (h.fits d' a' hU').congr ⟨_, update₂_of_ne _ _ hne⟩ ?_ (fun _ ↦ rfl) (fun u _ hk ↦ ⟨hk, rfl, fun _ hc ↦ hc⟩)
      (fun u _ hcall hstate ↦ ⟨hcall, hstate, rfl⟩)
    intro u
    rcases eq_or_ne u t with rfl | hu
    · by_cases hd' : (s.table.proc u).pgdir = some d'
      · simp [units, hd', hother a' (ne_of_pair hne hd hd')]
      · simp [units, hd']
    · simp [units, hu]

/-- `xem_wait` that does not sleep. -/
theorem Inv.take (h : Inv U v G s) (hd : (s.table.proc t).pgdir = some d)
    (hpos : 0 < (s.sem d a).value) : Inv U v G (s.wait t d a) := by
  rw [wait_of_pos hpos]
  refine h.exchange hd hpos.le (Int.le_sub_one_of_lt hpos) rfl rfl ?_ fun b hb ↦ List.count_cons_of_ne hb.symm
  rw [List.count_cons_self]
  show _ + ((s.sem d a).value - 1) = _
  omega

/-- The lines after a thread has gone to sleep. -/
def enqueue (G : ℕ → ℕ → Tickets) (d a : ℕ) (t : Slot) : ℕ → ℕ → Tickets :=
  update₂ G d a ⟨(G d a).first, (G d a).line ++ [t]⟩

/-- The thread `t` has gone to sleep for the semaphore `a` of the address space `d`. -/
structure FallsAsleep (s s' : XemSys) (t : Slot) (d a : ℕ) : Prop extends Moves s s' t where
  sem : s'.sem = update₂ s.sem d a (slept (s.sem d a))
  self : s'.table.proc t = ((s.table.proc t).setChan
    (some (.addr (Xem.chanAt a (s.sem d a).count)))).setState .SLEEPING
  own : s'.call t = some a
  same : s'.held t = s.held t

theorem fallsAsleep_wait (h : (s.sem d a).value ≤ 0) : FallsAsleep s (s.wait t d a) t d a := by
  rw [wait_of_le h]
  exact ⟨⟨fun u hu ↦ update_of_ne hu .., fun u hu ↦ update_of_ne hu .., fun _ _ ↦ rfl, by simp⟩, rfl,
    update_self .., update_self .., rfl⟩

/-- What is found in a line with one more. -/
theorem getElem?_concat {α : Type} {l : List α} {i : ℕ} {x y : α} (h : (l ++ [x])[i]? = some y) :
    l[i]? = some y ∨ i = l.length ∧ y = x := by
  rcases Nat.lt_or_ge i l.length with hi | hi
  · rw [List.getElem?_append_left hi] at h
    exact .inl h
  · rw [List.getElem?_append_right hi, List.getElem?_singleton] at h
    split at h
    · exact .inr ⟨by omega, (Option.some.inj h).symm⟩
    · cases h

section

variable (h : Inv U v G s) (hmay : s.MayCall t) (hs : FallsAsleep s s' t d a)
  (hd : (s.table.proc t).pgdir = some d)

include h hmay hs hd

/-- The line in which the thread waits. -/
theorem Inv.fits_sleep (hU : U d a) (hle : (s.sem d a).value ≤ 0) :
    s'.Fits (v d a) d a ⟨(G d a).first, (G d a).line ++ [t]⟩ := by
  have hf := h.fits d a hU
  have hne {u : Slot} : u ∈ (G d a).line → u ≠ t := h.ne_caller hmay hU
  have hunits : s'.units d a t = s.units d a t + 1 := by
    rw [units, units, hs.pgdir, if_pos hd, if_pos hd, hs.same, hs.own, if_pos rfl, hmay.2.1, if_neg nofun]
  have hsem : s'.sem d a = slept (s.sem d a) := by rw [hs.sem, update₂_self]
  refine ⟨?_, ?_, ?_, ?_, ?_, ?_, ?_, ?_, ?_, ?_⟩
  · rw [hsem]
    show (s.sem d a).count + 1 = _
    rw [hf.count, List.length_append, List.length_singleton]
    exact (BitVec.ofNat_add ..).symm
  · rw [hsem]
    exact hf.dcount
  · rw [hsem, List.length_append, List.length_singleton]
    show _ = max 0 (-((s.sem d a).value - 1))
    have := hf.length
    omega
  · rw [hsem, sum_units (k := 1) (fun _ ↦ hs.units d a) (by rw [hunits]; rfl)]
    show (s.sem d a).value - 1 = _
    rw [hf.value]
    omega
  · exact List.nodup_append.2 ⟨hf.nodup, List.nodup_singleton t, by
      rintro x hx y hy rfl
      exact hne hx (List.mem_singleton.1 hy)⟩
  · intro u hu
    rw [hs.pgdir]
    rcases List.mem_append.1 hu with hu | hu
    · exact hf.pgdir u hu
    · rw [List.mem_singleton.1 hu]
      exact hd
  · intro u hu
    rcases List.mem_append.1 hu with hu | hu
    · rw [hs.units d a (hne hu)]
      exact hf.units u hu
    · rw [List.mem_singleton.1 hu, hunits]
      omega
  · intro u hu hk
    rcases List.mem_append.1 hu with hu | hu
    · rw [hs.call u (hne hu)]
      exact hf.call u hu (hs.killed u ▸ hk)
    · rw [List.mem_singleton.1 hu]
      exact hs.own
  · intro i u hu hk
    rw [hs.killed] at hk
    rcases getElem?_concat hu with hu | ⟨rfl, rfl⟩
    · exact (hs.asleepOn (hne (List.mem_of_getElem? hu)) _).2 (hf.asleepOn i u hu hk)
    · rw [AsleepOn, hs.self, Tickets.chan, ← hf.count]
      exact ⟨rfl, rfl⟩
  · intro u hpg hcall hstate
    rw [hs.killed]
    rcases eq_or_ne u t with rfl | hu
    · exact ⟨List.mem_append_right _ (List.mem_singleton_self u), hmay.2.2⟩
    · rw [hs.pgdir] at hpg
      rw [hs.call u hu] at hcall
      rw [hs.proc u hu] at hstate
      obtain ⟨hmem, hk⟩ := hf.asleep u hpg hcall hstate
      exact ⟨List.mem_append_left _ hmem, hk⟩

/-- The other lines stay. -/
theorem Inv.fits_sleep_of_ne {d' a' : ℕ} (hU' : U d' a') (hpair : (d', a') ≠ (d, a)) :
    s'.Fits (v d' a') d' a' (G d' a') := by
  refine (h.fits d' a' hU').congr ⟨_, by rw [hs.sem, update₂_of_ne _ _ hpair]⟩ ?_ hs.pgdir ?_ ?_
  · intro u
    rcases eq_or_ne u t with rfl | hu
    · rw [units, units, hs.pgdir]
      split
      next hd' =>
        have hother : some a ≠ some a' := fun h' ↦ ne_of_pair hpair hd hd' (Option.some.inj h').symm
        rw [hs.same, hs.own, hmay.2.1, if_neg hother, if_neg nofun]
      · rfl
    · exact hs.units d' a' hu
  · intro u hu hk
    have hut := h.ne_caller hmay hU' hu
    exact ⟨hs.killed u ▸ hk, hs.call u hut, fun c ↦ (hs.asleepOn hut c).2⟩
  · intro u hd' hcall hstate
    have hu : u ≠ t := by
      rintro rfl
      exact ne_of_pair hpair hd hd' (Option.mem_unique hcall hs.own)
    exact ⟨hs.call u hu ▸ hcall, hs.proc u hu ▸ hstate, hs.killed u⟩

end

/-- `xem_wait` that sleeps. -/
theorem Inv.sleep (h : Inv U v G s) (hU : U d a) (hmay : s.MayCall t) (hd : (s.table.proc t).pgdir = some d)
    (hle : (s.sem d a).value ≤ 0) (hclear : Clear U G s d a) :
    Inv U v (enqueue G d a t) (s.wait t d a) := by
  have hs : FallsAsleep s (s.wait t d a) t d a := fallsAsleep_wait hle
  generalize s.wait t d a = s' at hs ⊢
  -- Whoever sleeps on an address that is not the new one is not the thread.
  have hold : ∀ {d' a' i w u}, U d' a' → (G d' a').line[i]? = some w → s'.call u ≠ none →
      s'.AsleepOn u ((G d' a').chan a' i) → (G d' a').chan a' i ≠ Xem.chanAt a (s.sem d a).count → u = w := by
    intro d' a' i w u hU' hw hcallu hu hchan
    have hut : u ≠ t := by
      rintro rfl
      have hon := hu.2
      rw [hs.self] at hon
      exact hchan (Chan.addr.inj (Option.some.inj hon.symm))
    rw [hs.call u hut] at hcallu
    exact h.alone d' a' i w hU' hw u hcallu ((hs.asleepOn hut _).1 hu)
  refine ⟨fun d' a' hU' ↦ ?_, fun d' a' i w hU' hw u hcallu hu ↦ ?_⟩ <;>
    rcases eq_or_ne (d', a') (d, a) with heq | hpair
  · obtain ⟨rfl, rfl⟩ := Prod.mk.inj heq
    rw [enqueue, update₂_self]
    exact h.fits_sleep hmay hs hd hU hle
  · rw [enqueue, update₂_of_ne _ _ hpair]
    exact h.fits_sleep_of_ne hmay hs hd hU' hpair
  · obtain ⟨rfl, rfl⟩ := Prod.mk.inj heq
    rw [enqueue, update₂_self] at hw hu
    have hf := h.fits d' a' hU
    have hlen := hf.length_le
    -- No place of the line has the address of the new one.
    have hplace : ∀ {j x}, (G d' a').line[j]? = some x → (G d' a').chan a' j ≠ Xem.chanAt a' (s.sem d' a').count := by
      intro j x hx heq
      have hj := (List.getElem?_eq_some_iff.1 hx).1
      rw [hf.count] at heq
      have := Xem.chanAt_inj (by omega) (by omega) heq
      omega
    rcases getElem?_concat hw with hw | ⟨rfl, rfl⟩
    · exact hold hU' hw hcallu hu (hplace hw)
    · by_contra hut
      rw [hs.call u hut] at hcallu
      have hu' := (hs.asleepOn hut _).1 hu
      rw [Tickets.chan, ← hf.count] at hu'
      obtain ⟨b, hb⟩ := Option.ne_none_iff_exists'.1 hcallu
      obtain ⟨hpg, rfl⟩ := hclear.asleep u b hb hu'
      obtain ⟨hmem, hk⟩ := hf.asleep u hpg hb hu'.1
      obtain ⟨j, hj⟩ := List.mem_iff_getElem?.1 hmem
      refine hplace hj ?_
      have := (hf.asleepOn j u hj hk).2
      rw [hu'.2] at this
      exact Chan.addr.inj (Option.some.inj this.symm)
  · rw [enqueue, update₂_of_ne _ _ hpair] at hw hu
    exact hold hU' hw hcallu hu (hclear.chan d' a' i hU' hpair (List.getElem?_eq_some_iff.1 hw).1)

/-! ### `xem_wait` after `sleep` -/

/-- A thread that goes on has the semaphore. -/
theorem Inv.resume (h : Inv U v G s) (hrun : s.CanRun t) (hd : (s.table.proc t).pgdir = some d)
    (hcall : s.call t = some a) : Inv U v G (s.resume t d a) := by
  obtain ⟨s', hs'⟩ : ∃ s', s' = s.resume t d a := ⟨_, rfl⟩
  have hmoves : Moves s s' t := hs' ▸ moves_resume
  rw [← hs']
  have hnot : (s.table.proc t).state ≠ .SLEEPING := by
    intro hsleep
    rcases hrun with h | h <;> cases hsleep.symm.trans h
  have hself : s'.table.proc t = (s.table.proc t).setChan none := by
    rw [hs']
    exact update_self ..
  have hcallSelf : s'.call t = none := by
    rw [hs']
    exact update_self ..
  have hheldSelf : s'.held t = a :: s.held t := by
    rw [hs']
    exact update_self ..
  have hsem : ∀ d' a', ∃ e, s'.sem d' a' = { s.sem d' a' with ended := e } := by
    intro d' a'
    have hsem' : s'.sem = update₂ s.sem d a (s.sem d a).resume := by rw [hs']; rfl
    rw [hsem']
    rcases eq_or_ne (d', a') (d, a) with heq | hne
    · obtain ⟨rfl, rfl⟩ := Prod.mk.inj heq
      exact ⟨_, update₂_self ..⟩
    · exact ⟨_, update₂_of_ne _ _ hne⟩
  clear hs'
  -- Whoever sleeps is another thread.
  have hne : ∀ u, (s'.table.proc u).state = .SLEEPING → u ≠ t := by
    rintro u hsleep rfl
    rw [hself] at hsleep
    exact hnot hsleep
  refine ⟨fun d' a' hU' ↦ ?_, ?_⟩
  · refine (h.fits d' a' hU').congr (hsem d' a') ?_ hmoves.pgdir ?_ ?_
    · intro u
      rcases eq_or_ne u t with rfl | hu
      · -- What was waited for is now held.
        simp only [units, hmoves.pgdir, hheldSelf, hcallSelf, hcall, List.count_cons,
          beq_iff_eq, Option.some_inj, reduceCtorEq, if_false, Nat.add_zero]
      · exact hmoves.units d' a' hu
    · intro u hu hk
      rw [hmoves.killed] at hk
      have hut : u ≠ t := by
        rintro rfl
        obtain ⟨i, hi⟩ := List.mem_iff_getElem?.1 hu
        exact hnot ((h.fits d' a' hU').asleepOn i u hi hk).1
      exact ⟨hk, hmoves.call u hut, fun c ↦ (hmoves.asleepOn hut c).2⟩
    · intro u _ hcall' hsleep
      have hut := hne u hsleep
      exact ⟨hmoves.call u hut ▸ hcall', hmoves.proc u hut ▸ hsleep, hmoves.killed u⟩
  · intro d' a' i w hU' hw u hcallu hu
    have hut := hne u hu.1
    rw [hmoves.call u hut] at hcallu
    exact h.alone d' a' i w hU' hw u hcallu ((hmoves.asleepOn hut _).1 hu)

/-! ### `xem_unlock` -/

/-- The semaphore `x` when its value has been raised. -/
def raised (x : Xem) : Xem := ⟨x.value + 1, x.ended, x.count, x.dcount⟩

/-- The semaphore `x` when a number is woken up. -/
def woke (x : Xem) : Xem := ⟨x.value + 1, x.ended + 1, x.count, x.dcount + 1⟩

theorem unlock_of_nonneg (h : 0 ≤ (s.sem d a).value) :
    s.unlock t d a = (s.setSem d a (raised (s.sem d a))).setHeld t ((s.held t).erase a) := by
  unfold unlock Xem.unlock
  rw [if_neg (by omega)]
  rfl

theorem unlock_of_neg (h : (s.sem d a).value < 0) : s.unlock t d a =
    ((s.setSem d a (woke (s.sem d a))).setTable
      (s.table.wake (.addr (Xem.chanAt a (s.sem d a).dcount)))).setHeld t ((s.held t).erase a) := by
  unfold unlock Xem.unlock
  rw [if_pos (by omega)]
  rfl

/-- A thread has given a semaphore back. -/
structure Gives (s s' : XemSys) (t : Slot) (a : ℕ) : Prop where
  pgdir : ∀ u, (s'.table.proc u).pgdir = (s.table.proc u).pgdir
  call : s'.call = s.call
  self : s'.held t = (s.held t).erase a
  other : ∀ u, u ≠ t → s'.held u = s.held u

/-- The value and what has been taken, after one thread has given something back. -/
theorem sum_units_erase (hd : (s.table.proc t).pgdir = some d) (ha : a ∈ s.held t) (hg : Gives s s' t a) :
    ∑ u, (s'.units d a u : ℤ) = (∑ u, (s.units d a u : ℤ)) + -1 := by
  refine sum_units (t := t) (fun u hu ↦ ?_) ?_
  · rw [units, units, hg.pgdir, hg.call, hg.other u hu]
  · have hpos := List.count_pos_iff.2 ha
    rw [units, units, hg.pgdir, hg.call, hg.self, if_pos hd, if_pos hd, List.count_erase_self]
    omega

/-- What a thread holds of other semaphores stays when it gives one back. -/
theorem units_erase_of_ne {d' a' : ℕ} (hne : (d', a') ≠ (d, a)) (hd : (s.table.proc t).pgdir = some d)
    (hg : Gives s s' t a) (u : Slot) : s'.units d' a' u = s.units d' a' u := by
  rw [units, units, hg.pgdir, hg.call]
  rcases eq_or_ne u t with rfl | hu
  · split
    next hd' => rw [hg.self, List.count_erase_of_ne (ne_of_pair hne hd hd')]
    · rfl
  · rw [hg.other u hu]

/-- `xem_unlock` for which nobody waits. -/
theorem Inv.give (h : Inv U v G s) (hd : (s.table.proc t).pgdir = some d) (ha : a ∈ s.held t)
    (hval : 0 ≤ (s.sem d a).value) : Inv U v G (s.unlock t d a) := by
  rw [unlock_of_nonneg hval]
  refine h.exchange hd hval (Int.add_nonneg hval Int.one_nonneg) rfl rfl ?_ fun b hb ↦ List.count_erase_of_ne hb
  have hpos := List.count_pos_iff.2 ha
  rw [List.count_erase_self]
  show _ + ((s.sem d a).value + 1) = _
  omega

/-- The lines after the first thread of one has been passed. -/
def dequeue (G : ℕ → ℕ → Tickets) (d a : ℕ) : ℕ → ℕ → Tickets :=
  update₂ G d a ⟨(G d a).first + 1, (G d a).line.tail⟩

/-- A thread has given back the semaphore `a` of `d` and has woken up the address `c`. -/
structure Passes (s s' : XemSys) (t : Slot) (d a c : ℕ) : Prop extends Gives s s' t a where
  sem : s'.sem = update₂ s.sem d a (woke (s.sem d a))
  proc : ∀ u, s.AsleepOn u c ∧ s'.table.proc u = (s.table.proc u).setState .RUNNABLE ∨
    ¬s.AsleepOn u c ∧ s'.table.proc u = s.table.proc u

theorem passes_unlock (h : (s.sem d a).value < 0) :
    Passes s (s.unlock t d a) t d a (Xem.chanAt a (s.sem d a).dcount) := by
  rw [unlock_of_neg h]
  exact ⟨⟨fun u ↦ (wake_fields s.table _ u).1, rfl, update_self .., fun u hu ↦ update_of_ne hu ..⟩, rfl,
    fun u ↦ (wake_proc s.table _ u).imp (fun h ↦ ⟨⟨h.1, h.2.1⟩, h.2.2⟩) id⟩

namespace Passes

variable {c : ℕ} (hp : Passes s s' t d a c)

include hp

theorem killed (u : Slot) : (s'.table.proc u).killed = (s.table.proc u).killed := by
  rcases hp.proc u with ⟨-, heq⟩ | ⟨-, heq⟩ <;> rw [heq]
  rfl

/-- Whoever still sleeps has not been touched. -/
theorem sleeping {u : Slot} (hst : (s'.table.proc u).state = .SLEEPING) :
    s'.table.proc u = s.table.proc u ∧ ¬s.AsleepOn u c := by
  rcases hp.proc u with ⟨-, heq⟩ | ⟨hnot, heq⟩
  · rw [heq] at hst
    cases hst
  · exact ⟨heq, hnot⟩

theorem asleepOn {u : Slot} {b : ℕ} (hu : s'.AsleepOn u b) : s.AsleepOn u b := by
  rwa [AsleepOn, (hp.sleeping hu.1).1] at hu

end Passes

section

variable {w : Slot} {rest : List Slot} (h : Inv U v G s) (hp : Passes s s' t d a ((G d a).chan a 0))
  (hU : U d a) (hd : (s.table.proc t).pgdir = some d) (hline : (G d a).line = w :: rest)

include h hp hU hline

/-- Of the threads in `xem_wait` only the first one of the line is woken up. -/
theorem Inv.kept {u : Slot} (hu : u ≠ w) (hcall : s.call u ≠ none) : s'.table.proc u = s.table.proc u := by
  rcases hp.proc u with ⟨hon, -⟩ | ⟨-, heq⟩
  · exact absurd (h.alone d a 0 w hU (by rw [hline]; rfl) u hcall hon) hu
  · exact heq

include hd

/-- The line from which the thread is woken up. -/
theorem Inv.fits_pass (hmay : s.MayCall t) (ha : a ∈ s.held t) :
    s'.Fits (v d a) d a ⟨(G d a).first + 1, rest⟩ := by
  have hf := h.fits d a hU
  have hlen := hf.length
  have hnodup := hf.nodup
  rw [hline, List.length_cons] at hlen
  rw [hline, List.nodup_cons] at hnodup
  have hmem : ∀ u ∈ rest, u ∈ (G d a).line := fun u hu ↦ hline ▸ List.mem_cons_of_mem _ hu
  have hsem : s'.sem d a = woke (s.sem d a) := by rw [hp.sem, update₂_self]
  refine ⟨?_, ?_, ?_, ?_, hnodup.2, ?_, ?_, ?_, ?_, ?_⟩
  · rw [hsem]
    show (s.sem d a).count = BitVec.ofNat 32 ((G d a).first + 1 + rest.length)
    rw [hf.count, hline, List.length_cons]
    exact congrArg (BitVec.ofNat 32) (by omega)
  · rw [hsem]
    show (s.sem d a).dcount + 1 = _
    rw [hf.dcount]
    exact (BitVec.ofNat_add ..).symm
  · rw [hsem]
    show (rest.length : ℤ) = max 0 (-((s.sem d a).value + 1))
    omega
  · rw [hsem, sum_units_erase hd ha hp.toGives]
    show (s.sem d a).value + 1 = _
    rw [hf.value]
    omega
  · intro u hu
    rw [hp.pgdir]
    exact hf.pgdir u (hmem u hu)
  · intro u hu
    rw [units, hp.pgdir, hp.call, hp.other u (h.ne_caller hmay hU (hmem u hu))]
    exact hf.units u (hmem u hu)
  · intro u hu hk
    rw [hp.call]
    exact hf.call u (hmem u hu) (hp.killed u ▸ hk)
  · intro i u hu hk
    rw [hp.killed] at hk
    have humem := List.mem_of_getElem? hu
    have hne : u ≠ w := fun h' ↦ hnodup.1 (h' ▸ humem)
    have hcall : s.call u ≠ none := by
      rw [hf.call u (hmem u humem) hk]
      exact nofun
    have hasleep := hf.asleepOn (i + 1) u (by rw [hline]; exact hu) hk
    rw [AsleepOn, h.kept hp hU hline hne hcall, Tickets.chan]
    rw [AsleepOn, Tickets.chan] at hasleep
    rwa [Nat.add_assoc, Nat.add_comm 1 i]
  · intro u hpg hc hst
    obtain ⟨heq, hnot⟩ := hp.sleeping hst
    rw [heq] at hpg hst ⊢
    rw [hp.call] at hc
    obtain ⟨hu, hk⟩ := hf.asleep u hpg hc hst
    rw [hline] at hu
    rcases List.mem_cons.1 hu with rfl | hu
    · -- The first one has been woken up.
      exact absurd (hf.asleepOn 0 u (by rw [hline]; rfl) hk) hnot
    · exact ⟨hu, hk⟩

/-- The other lines stay. -/
theorem Inv.fits_pass_of_ne {d' a' : ℕ} (hU' : U d' a') (hne : (d', a') ≠ (d, a)) :
    s'.Fits (v d' a') d' a' (G d' a') := by
  have hf := h.fits d a hU
  have hf' := h.fits d' a' hU'
  refine hf'.congr ⟨_, by rw [hp.sem, update₂_of_ne _ _ hne]⟩ (units_erase_of_ne hne hd hp.toGives) hp.pgdir ?_ ?_
  · intro u hu hk
    rw [hp.killed] at hk
    refine ⟨hk, by rw [hp.call], fun c hc ↦ ?_⟩
    have hcall := hf'.call u hu hk
    have huw : u ≠ w := by
      rintro rfl
      have hmem : u ∈ (G d a).line := hline ▸ List.mem_cons_self
      exact ne_of_pair hne (hf.pgdir u hmem) (hf'.pgdir u hu) (Option.mem_unique hcall (hf.call u hmem hk))
    rw [AsleepOn, h.kept hp hU hline huw (by rw [hcall]; exact nofun)]
    exact hc
  · intro u _ hc hst
    rw [hp.call] at hc
    obtain ⟨heq, -⟩ := hp.sleeping hst
    rw [heq] at hst ⊢
    exact ⟨hc, hst, rfl⟩

end

/-- `xem_unlock` for which somebody waits. -/
theorem Inv.pass (h : Inv U v G s) (hU : U d a) (hmay : s.MayCall t) (hd : (s.table.proc t).pgdir = some d)
    (ha : a ∈ s.held t) (hval : (s.sem d a).value < 0) : Inv U v (dequeue G d a) (s.unlock t d a) := by
  have hf := h.fits d a hU
  have hp : Passes s (s.unlock t d a) t d a _ := passes_unlock hval
  -- The address that is woken up is that of the first thread in the line.
  rw [hf.dcount] at hp
  generalize s.unlock t d a = s' at hp ⊢
  obtain ⟨w, rest, hline⟩ : ∃ w rest, (G d a).line = w :: rest := by
    refine List.exists_cons_of_ne_nil fun hnil ↦ ?_
    have hlen := hf.length
    rw [hnil, List.length_nil] at hlen
    omega
  refine ⟨fun d' a' hU' ↦ ?_, fun d' a' i x hU' hx u hcallu hu ↦ ?_⟩ <;>
    rcases eq_or_ne (d', a') (d, a) with heq | hne
  · obtain ⟨rfl, rfl⟩ := Prod.mk.inj heq
    rw [dequeue, update₂_self, hline]
    exact h.fits_pass hp hU hd hline hmay ha
  · rw [dequeue, update₂_of_ne _ _ hne]
    exact h.fits_pass_of_ne hp hU hd hline hU' hne
  · obtain ⟨rfl, rfl⟩ := Prod.mk.inj heq
    rw [dequeue, update₂_self, hline, List.tail_cons] at hx hu
    refine h.alone d' a' (i + 1) x hU' (by rw [hline]; exact hx) u (hp.call ▸ hcallu) ?_
    have hu' := hp.asleepOn hu
    rw [AsleepOn, Tickets.chan] at hu' ⊢
    rwa [Nat.add_assoc, Nat.add_comm 1 i] at hu'
  · rw [dequeue, update₂_of_ne _ _ hne] at hx hu
    exact h.alone d' a' i x hU' hx u (hp.call ▸ hcallu) (hp.asleepOn hu)

/-! ### `kill` -/

/-- A killed thread is woken up, and the rest is as it was. -/
theorem Inv.kill {table : Ptable} (h : Inv U v G s)
    (hproc : ∀ u, table.proc u = s.table.proc u ∨ ((table.proc u).killed = true ∧
      (table.proc u).state ≠ .SLEEPING ∧ (table.proc u).pgdir = (s.table.proc u).pgdir)) :
    Inv U v G (s.setTable table) := by
  have hsleep : ∀ u, (table.proc u).state = .SLEEPING → table.proc u = s.table.proc u := by
    intro u hst
    exact (hproc u).resolve_right fun h' ↦ h'.2.1 hst
  have hlive : ∀ u, (table.proc u).killed = false → table.proc u = s.table.proc u := by
    intro u hk
    exact (hproc u).resolve_right fun h' ↦ nomatch hk.symm.trans h'.1
  have hpgdir : ∀ u, (table.proc u).pgdir = (s.table.proc u).pgdir := by
    intro u
    rcases hproc u with heq | ⟨-, -, heq⟩
    · rw [heq]
    · exact heq
  refine ⟨fun d' a' hU' ↦ ?_, ?_⟩
  · refine (h.fits d' a' hU').congr ⟨_, rfl⟩ ?_ hpgdir ?_ ?_
    · intro u
      rw [units, units, setTable_table, hpgdir]
      rfl
    · intro u _ hk
      have heq := hlive u hk
      refine ⟨heq ▸ hk, rfl, fun c hc ↦ ?_⟩
      rw [AsleepOn, setTable_table, heq]
      exact hc
    · intro u _ hc hst
      have heq := hsleep u hst
      rw [setTable_table, heq] at hst ⊢
      exact ⟨hc, hst, rfl⟩
  · intro d' a' i w hU' hw u hcallu hu
    refine h.alone d' a' i w hU' hw u hcallu ?_
    rw [AsleepOn, setTable_table, hsleep u hu.1] at hu
    exact hu

/-! ### All steps -/

/-- What a step can do to the lines. -/
inductive LineStep (G : ℕ → ℕ → Tickets) (s : XemSys) (l : Slot × XemOp) :
    (ℕ → ℕ → Tickets) → Prop where
  /-- Nothing. Then nobody waits for a semaphore that is given back. -/
  | same (give : ∀ d a, l.2 = .unlock a → (s.table.proc l.1).pgdir = some d →
      0 ≤ (s.sem d a).value) : LineStep G s l G
  /-- A thread has gone to sleep. -/
  | sleep {d a : ℕ} (op : l.2 = .wait a) (pgdir : (s.table.proc l.1).pgdir = some d) :
      LineStep G s l (enqueue G d a l.1)
  /-- The first thread of a line has been passed. -/
  | pass {d a : ℕ} (op : l.2 = .unlock a) (pgdir : (s.table.proc l.1).pgdir = some d)
      (value : (s.sem d a).value < 0) : LineStep G s l (dequeue G d a)

/-- What the invariant asks of a step: it uses the semaphores in `U`, a thread that goes to sleep does
so on an address that is clear, and it is not `exit`. -/
def Allowed (U : ℕ → ℕ → Prop) (G : ℕ → ℕ → Tickets) (s : XemSys) (t : Slot) : XemOp → Prop
  | .wait a => ∀ d, (s.table.proc t).pgdir = some d →
      U d a ∧ ((s.sem d a).value ≤ 0 → Clear U G s d a)
  | .resume => True
  | .unlock a => ∀ d, (s.table.proc t).pgdir = some d → U d a
  | .kill _ => True
  | .exit => False

/-- After `kill`, a slot is as it was, or it has been killed and does not sleep. -/
theorem kill_exec {table table' : Ptable} {pid : ℤ} (h : (kill pid).exec table = .ok table')
    (u : Slot) : table'.proc u = table.proc u ∨ ((table'.proc u).killed = true ∧
      (table'.proc u).state ≠ .SLEEPING ∧ (table'.proc u).pgdir = (table.proc u).pgdir) := by
  have hsat : (kill pid).Sat table (fun _ table' ↦ table'.proc u = table.proc u ∨
      ((table'.proc u).killed = true ∧ (table'.proc u).state ≠ .SLEEPING ∧
        (table'.proc u).pgdir = (table.proc u).pgdir)) fun _ ↦ True := by
    refine sat_kill (fun _ ↦ .inl rfl) fun p _ ↦ ?_
    rw [setProc_proc]
    rcases eq_or_ne u p with rfl | hu
    · rw [update_self]
      refine .inr ⟨rfl, ?_, rfl⟩
      split
      · exact nofun
      next hst => exact hst
    · exact .inl (update_of_ne hu ..)
  obtain ⟨_, h'⟩ := hsat.of_exec_ok h
  exact h'

/-- What a step can be. -/
inductive Did (s : XemSys) : Slot × XemOp → XemSys → Prop where
  /-- `xem_wait` that does not sleep. -/
  | take {t : Slot} {d a : ℕ} (pgdir : (s.table.proc t).pgdir = some d) (may : s.MayCall t)
      (value : 0 < (s.sem d a).value) : Did s (t, .wait a) (s.wait t d a)
  /-- `xem_wait` that sleeps. -/
  | sleep {t : Slot} {d a : ℕ} (pgdir : (s.table.proc t).pgdir = some d) (may : s.MayCall t)
      (value : (s.sem d a).value ≤ 0) : Did s (t, .wait a) (s.wait t d a)
  /-- `xem_wait` after `sleep`. -/
  | resume {t : Slot} {d a : ℕ} (pgdir : (s.table.proc t).pgdir = some d)
      (call : s.call t = some a) (run : s.CanRun t) : Did s (t, .resume) (s.resume t d a)
  /-- `xem_unlock` for which nobody waits. -/
  | give {t : Slot} {d a : ℕ} (pgdir : (s.table.proc t).pgdir = some d) (may : s.MayCall t)
      (held : a ∈ s.held t) (value : 0 ≤ (s.sem d a).value) : Did s (t, .unlock a) (s.unlock t d a)
  /-- `xem_unlock` for which somebody waits. -/
  | pass {t : Slot} {d a : ℕ} (pgdir : (s.table.proc t).pgdir = some d) (may : s.MayCall t)
      (held : a ∈ s.held t) (value : (s.sem d a).value < 0) : Did s (t, .unlock a) (s.unlock t d a)
  /-- `kill`. -/
  | kill {t : Slot} {pid : ℤ} {table : Ptable} (h : (Ptable.kill pid).exec s.table = .ok table) :
      Did s (t, .kill pid) (s.setTable table)
  /-- `exit`. -/
  | exit {t : Slot} {table : Ptable} (h : (Ptable.exit t).exec s.table = .ok table) :
      Did s (t, .exit) (s.setTable table)

variable {l : Slot × XemOp}

theorem did_of_step (hstep : s.step l = some (.ok s')) : Did s l s' := by
  obtain ⟨t, op⟩ := l
  cases op with
  | wait a =>
    simp only [step] at hstep
    split at hstep
    next d hd =>
      split at hstep
      next hmay =>
        obtain rfl := Except.ok.inj (Option.some.inj hstep)
        rcases lt_or_ge 0 (s.sem d a).value with hpos | hle
        · exact .take hd hmay hpos
        · exact .sleep hd hmay hle
      · cases hstep
    · cases hstep
  | resume =>
    simp only [step] at hstep
    split at hstep
    next d a hd hcall =>
      split at hstep
      next hrun =>
        obtain rfl := Except.ok.inj (Option.some.inj hstep)
        exact .resume hd hcall hrun
      · cases hstep
    · cases hstep
  | unlock a =>
    simp only [step] at hstep
    split at hstep
    next d hd =>
      split at hstep
      next hmay =>
        obtain rfl := Except.ok.inj (Option.some.inj hstep)
        rcases lt_or_ge (s.sem d a).value 0 with hneg | hge
        · exact .pass hd hmay.1 hmay.2 hneg
        · exact .give hd hmay.1 hmay.2 hge
      · cases hstep
    · cases hstep
  | kill pid =>
    simp only [step] at hstep
    cases hkill : (kill pid).exec s.table with
    | error e =>
      rw [hkill] at hstep
      cases Option.some.inj hstep
    | ok table =>
      rw [hkill] at hstep
      obtain rfl := Except.ok.inj (Option.some.inj hstep)
      exact .kill hkill
  | exit =>
    simp only [step] at hstep
    split at hstep
    · cases hexit : (exit t).exec s.table with
      | error e =>
        rw [hexit] at hstep
        cases Option.some.inj hstep
      | ok table =>
        rw [hexit] at hstep
        obtain rfl := Except.ok.inj (Option.some.inj hstep)
        exact .exit hexit
    · cases hstep

/-- A step that is allowed keeps the invariant. -/
theorem Inv.step (h : Inv U v G s) (hop : Allowed U G s l.1 l.2) (hstep : s.step l = some (.ok s')) :
    ∃ G', LineStep G s l G' ∧ Inv U v G' s' := by
  cases did_of_step hstep with
  | take hd _ hpos => exact ⟨G, .same nofun, h.take hd hpos⟩
  | sleep hd hmay hle =>
    obtain ⟨hU, hclear⟩ := hop _ hd
    exact ⟨_, .sleep rfl hd, h.sleep hU hmay hd hle (hclear hle)⟩
  | resume hd hcall hrun => exact ⟨G, .same nofun, h.resume hrun hd hcall⟩
  | give hd _ ha hge =>
    refine ⟨G, .same fun d' a' hop hd' ↦ ?_, h.give hd ha hge⟩
    obtain rfl := XemOp.unlock.inj hop
    rwa [Option.mem_unique hd' hd]
  | pass hd hmay ha hneg => exact ⟨_, .pass rfl hd hneg, h.pass (hop _ hd) hmay hd ha hneg⟩
  | kill hkill => exact ⟨G, .same nofun, h.kill (kill_exec hkill)⟩
  | exit _ => exact hop.elim

/-- A step of `xem_wait` or `xem_unlock`. -/
def IsXem : XemOp → Prop
  | .wait _ | .resume | .unlock _ => True
  | .kill _ | .exit => False

/-- What a step of `xem_wait` or `xem_unlock` leaves alone in the slots. -/
theorem step_fields (hop : IsXem l.2) (hstep : s.step l = some (.ok s')) (u : Slot) :
    (s'.table.proc u).pgdir = (s.table.proc u).pgdir ∧
      (s'.table.proc u).killed = (s.table.proc u).killed := by
  cases did_of_step hstep with
  | take _ _ hpos =>
    rw [wait_of_pos hpos]
    exact ⟨rfl, rfl⟩
  | sleep _ _ hle =>
    exact ⟨(fallsAsleep_wait hle).pgdir u, (fallsAsleep_wait hle).killed u⟩
  | resume _ _ _ => exact ⟨moves_resume.pgdir u, moves_resume.killed u⟩
  | give _ _ _ hge =>
    rw [unlock_of_nonneg hge]
    exact ⟨rfl, rfl⟩
  | pass _ _ _ hneg =>
    rw [unlock_of_neg hneg]
    exact wake_fields ..
  | kill _ | exit _ => exact hop.elim

/-- Which threads are in `xem_wait` after a step of `xem_wait` or `xem_unlock`. -/
theorem step_call (hop : IsXem l.2) (hstep : s.step l = some (.ok s')) {u : Slot} {b : ℕ}
    (hu : s'.call u = some b) : s.call u = some b ∨ (u = l.1 ∧ l.2 = .wait b) := by
  cases did_of_step hstep with
  | take _ _ hpos =>
    rw [wait_of_pos hpos] at hu
    exact .inl hu
  | @sleep t d a _ _ hle =>
    rw [wait_of_le hle, setCall_call] at hu
    rcases eq_or_ne u t with rfl | hut
    · rw [update_self] at hu
      exact .inr ⟨rfl, by rw [Option.some.inj hu]⟩
    · rw [update_of_ne hut] at hu
      exact .inl hu
  | @resume t _ _ _ _ _ =>
    rw [resume, setHeld_call, setCall_call] at hu
    rcases eq_or_ne u t with rfl | hut
    · rw [update_self] at hu
      cases hu
    · rw [update_of_ne hut] at hu
      exact .inl hu
  | give _ _ _ hge =>
    rw [unlock_of_nonneg hge] at hu
    exact .inl hu
  | pass _ _ _ hneg =>
    rw [unlock_of_neg hneg] at hu
    exact .inl hu
  | kill _ | exit _ => exact hop.elim

end XemSys

end Xv6
