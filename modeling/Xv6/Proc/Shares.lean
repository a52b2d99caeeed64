import Mathlib.Algebra.BigOperators.Fin
import Xv6.Proc.Effect

/-!
# Shares of the processor

`set_cpu_share` gives the caller a share of the processor, in percent, and adds it to `totPortion`, which
may not exceed 80. Next to the process table stand the fields that it works with: in each slot
`checkMLFQ` and `myPortion`, which `allocproc` resets and `thread_create` copies. The check of the total is a
step of its own, before `ptable.lock` is taken; the update under the lock is another.

The code never takes a share back, it does not look at the share that the caller has, and the total
may have changed between the check and the update (`share_total_wrong`). As long as none of this
happens, the total is the sum of the shares of the live processes (`shares_accounted`).
-/

namespace Xv6

open Vm Function Ptable Machine

/-- The fields of a slot that `set_cpu_share` works with. -/
structure Share where
  /-- 1 if the process has a share. -/
  checkMLFQ : Bool
  /-- The share. -/
  myPortion : BitVec 32
  /-- The process is in `set_cpu_share`, past the check, and this is its argument. -/
  asked : Option (BitVec 32)
  deriving DecidableEq

/-- The fields as `allocproc` sets them. -/
def Share.none : Share := ⟨false, 0, .none⟩

/-- The fields of a thread that is made by a thread or process with the given ones. -/
def Share.copied (p : Share) : Share :=
  if p.checkMLFQ then ⟨true, p.myPortion, .none⟩ else .none

/-- The fields of a process that has passed the check. -/
@[simps]
def Share.ask (p : Share) (portion : BitVec 32) : Share := { p with asked := some portion }

/-- The process table and the shares. -/
structure Shares where
  /-- The process table. -/
  table : Ptable
  /-- The fields of the slots. -/
  share : Slot → Share
  /-- The sum of the shares. -/
  totPortion : BitVec 32

/-- What a process does. -/
inductive ShareOp where
  /-- A call on processes and threads. -/
  | call (a : Call)
  /-- The first line of `set_cpu_share`. -/
  | check (portion : BitVec 32)
  /-- The rest of `set_cpu_share`. -/
  | update
  deriving DecidableEq

/-- Why a step does not return. -/
inductive ShareFault where
  /-- A call on processes and threads stops. -/
  | call (e : Fault)
  /-- A division by zero in `set_stride_value`. -/
  | divide

namespace Shares

/-- The fields of the slots after the call `a` by `c`, which has returned `r`. -/
def shareAfter (σ : Shares) (c : Slot) (a : Call) (r : Ret) : Slot → Share :=
  if a.allocates then
    match σ.table.freeSlot with
    | none => σ.share
    | some np =>
      update σ.share np
        (if a = .threadCreate ∧ r = .code 0 then (σ.share c).copied else .none)
  else
    σ.share

/-- `set_stride_value` divides by the share of every slot that has one, and by what is left. -/
def Divides (σ : Shares) : Prop :=
  (∀ k, (σ.share k).checkMLFQ = true → (σ.share k).myPortion ≠ 0) ∧ 100 - σ.totPortion ≠ 0

instance (σ : Shares) : Decidable σ.Divides := inferInstanceAs (Decidable (_ ∧ _))

/-- Rewrite the fields of a slot. -/
@[simps -fullyApplied]
def setShare (σ : Shares) (k : Slot) (p : Share) : Shares :=
  { σ with share := update σ.share k p }

/-- Rewrite the total. -/
@[simps]
def setTotal (σ : Shares) (n : BitVec 32) : Shares := { σ with totPortion := n }

/-- The part of `set_cpu_share` under the lock. -/
def updated (σ : Shares) (c : Slot) (portion : BitVec 32) : Shares :=
  (σ.setShare c ⟨true, portion, none⟩).setTotal (σ.totPortion + portion)

/-- A step of a process. -/
def step (σ : Shares) : Slot × ShareOp → Option (Except ShareFault Shares)
  | (c, .call a) =>
    if σ.table.MayCall c ∧ (σ.share c).asked = none then
      match (Ptable.call c a).run σ.table with
      | .ok (some r, t) => some (.ok ⟨t, σ.shareAfter c a r, σ.totPortion⟩)
      | .ok (none, _) => none
      | .error e => some (.error (.call e))
    else
      none
  | (c, .check portion) =>
    if σ.table.MayCall c ∧ (σ.share c).asked = none then
      if 80 < σ.totPortion + portion then
        -- It returns -1.
        some (.ok σ)
      else
        some (.ok (σ.setShare c ((σ.share c).ask portion)))
    else
      none
  | (c, .update) =>
    if σ.table.MayCall c then
      match (σ.share c).asked with
      | none => none
      | some portion =>
        if (σ.updated c portion).Divides then
          some (.ok (σ.updated c portion))
        else
          some (.error .divide)
    else
      none

/-- The shares after a boot. -/
def start (s : Ptable) : Shares := ⟨s, fun _ ↦ .none, 0⟩

/-! ### The account -/

/-- `k` is a process or thread that has a share and has not exited. -/
def Stride (σ : Shares) (k : Slot) : Prop :=
  σ.table.Alive k ∧ (σ.share k).checkMLFQ = true

instance (σ : Shares) (k : Slot) : Decidable (σ.Stride k) := inferInstanceAs (Decidable (_ ∧ _))

/-- The processes that have a share, threads counted with their process. -/
def groups (σ : Shares) : Finset ℤ :=
  (Finset.univ.filter σ.Stride).image fun k ↦ (σ.table.proc k).ptid

/-- The share of the process `g`. -/
def portion (σ : Shares) (g : ℤ) : ℤ :=
  match Ptable.slots.find? fun k ↦ σ.Stride k ∧ (σ.table.proc k).ptid = g with
  | none => 0
  | some k => (σ.share k).myPortion.toInt

/-- The shares are accounted for. -/
structure Accounted (σ : Shares) : Prop where
  /-- The threads of a process have the same share. -/
  agree : ∀ j k, σ.Stride j → σ.Stride k → (σ.table.proc j).ptid = (σ.table.proc k).ptid →
    (σ.share j).myPortion = (σ.share k).myPortion
  total : (σ.totPortion.toNat : ℤ) = ∑ g ∈ σ.groups, σ.portion g
  bounded : σ.totPortion.toNat ≤ 80

/-- What `c` has asked for still fits. -/
def Fits (σ : Shares) (c : Slot) : Prop :=
  match (σ.share c).asked with
  | none => True
  | some p => (σ.totPortion + p).toNat ≤ 80

instance (σ : Shares) (c : Slot) : Decidable (σ.Fits c) :=
  match h : (σ.share c).asked with
  | none => isTrue (by rw [Fits, h]; trivial)
  | some p => decidable_of_iff ((σ.totPortion + p).toNat ≤ 80) (by rw [Fits, h])

/-- No share gets lost, none is given twice, and the total is what it was at the check or still
suffices: the last member of a process with a share does not exit, and `set_cpu_share` is called by
processes without a share, whose portion still fits when they hold the lock. -/
def Settled (σ : Shares) : Slot × ShareOp → Prop
  | (c, .call a) => ∀ k, σ.Stride k → σ.table.Ends c a k →
      ∃ j, σ.Stride j ∧ (σ.table.proc j).ptid = (σ.table.proc k).ptid ∧ ¬σ.table.Ends c a j
  | (_, .check _) => True
  | (c, .update) => (∀ k, σ.Stride k → (σ.table.proc k).ptid ≠ (σ.table.proc c).ptid) ∧ σ.Fits c

instance (σ : Shares) : ∀ l, Decidable (σ.Settled l)
  | (_, .call _) => inferInstanceAs (Decidable (∀ _, _))
  | (_, .check _) => .isTrue trivial
  | (_, .update) => inferInstanceAs (Decidable (_ ∧ _))

section Account

variable {σ σ' : Shares}

/-- The share of a process is that of any of its members. -/
theorem portion_eq (h : ∀ j k, σ.Stride j → σ.Stride k → (σ.table.proc j).ptid = (σ.table.proc k).ptid →
      (σ.share j).myPortion = (σ.share k).myPortion) {k : Slot} (hk : σ.Stride k) :
    σ.portion (σ.table.proc k).ptid = (σ.share k).myPortion.toInt := by
  rw [portion]
  split
  next hnone =>
    refine absurd ?_ (List.find?_eq_none.1 hnone k (mem_slots k))
    exact decide_eq_true ⟨hk, rfl⟩
  next j hj =>
    have hj' := List.find?_some hj
    rw [decide_eq_true_iff] at hj'
    rw [h j k hj'.1 hk hj'.2]

theorem mem_groups {g : ℤ} : g ∈ σ.groups ↔ ∃ k, σ.Stride k ∧ (σ.table.proc k).ptid = g := by
  simp only [groups, Finset.mem_image, Finset.mem_filter, Finset.mem_univ, true_and]

/-- `k'` in `σ'` has the process and the share of `k` in `σ`. -/
def SameShare (σ σ' : Shares) (k k' : Slot) : Prop :=
  (σ'.table.proc k').ptid = (σ.table.proc k).ptid ∧
    (σ'.share k').myPortion = (σ.share k).myPortion

/-- The account stays right if the same processes have the same shares. -/
theorem Accounted.of_same (h : Accounted σ) (htot : σ'.totPortion = σ.totPortion)
    (hfrom : ∀ k', σ'.Stride k' → ∃ k, σ.Stride k ∧ SameShare σ σ' k k')
    (hto : ∀ k, σ.Stride k → ∃ k', σ'.Stride k' ∧ SameShare σ σ' k k') : Accounted σ' := by
  have hagree : ∀ j k, σ'.Stride j → σ'.Stride k →
      (σ'.table.proc j).ptid = (σ'.table.proc k).ptid →
      (σ'.share j).myPortion = (σ'.share k).myPortion := by
    intro j' k' hj' hk' heq
    obtain ⟨j, hj, hptj, hpoj⟩ := hfrom j' hj'
    obtain ⟨k, hk, hptk, hpok⟩ := hfrom k' hk'
    rw [hpoj, hpok]
    exact h.agree j k hj hk (by rw [← hptj, ← hptk, heq])
  refine ⟨hagree, ?_, htot ▸ h.bounded⟩
  have hgroups : σ'.groups = σ.groups := by
    ext g
    rw [mem_groups, mem_groups]
    constructor
    · intro ⟨k', hk', hg⟩
      obtain ⟨k, hk, hpt, -⟩ := hfrom k' hk'
      exact ⟨k, hk, hpt.symm.trans hg⟩
    · intro ⟨k, hk, hg⟩
      obtain ⟨k', hk', hpt, -⟩ := hto k hk
      exact ⟨k', hk', hpt.trans hg⟩
  rw [htot, h.total, hgroups]
  refine Finset.sum_congr rfl fun g hg ↦ ?_
  obtain ⟨k, hk, rfl⟩ := mem_groups.1 hg
  obtain ⟨k', hk', hpt, hpo⟩ := hto k hk
  rw [portion_eq h.agree hk, ← hpt, portion_eq hagree hk', hpo]

/-- A total and a portion whose sum is at most 80 add up without a carry. -/
theorem toNat_add_portion {tot p : BitVec 32} (htot : tot.toNat ≤ 80) (h : (tot + p).toNat ≤ 80) :
    ((tot + p).toNat : ℤ) = tot.toNat + p.toInt := by
  have hlt := p.isLt
  rw [BitVec.toNat_add] at h ⊢
  rw [BitVec.toInt_eq_toNat_cond]
  split <;> omega

/-- The account stays right if a process without a share gets one that fits. -/
theorem Accounted.updated (h : Accounted σ) {c : Slot} {p : BitVec 32} (hc : σ.table.Alive c)
    (hnone : ∀ k, σ.Stride k → (σ.table.proc k).ptid ≠ (σ.table.proc c).ptid)
    (hfit : (σ.totPortion + p).toNat ≤ 80) : Accounted (σ.updated c p) := by
  have hself : (σ.updated c p).share c = ⟨true, p, none⟩ := update_self ..
  have hother : ∀ k, k ≠ c → (σ.updated c p).share k = σ.share k := fun k hk ↦
    update_of_ne hk ..
  have hne : ∀ k, σ.Stride k → k ≠ c := fun k hk heq ↦ hnone k hk (by rw [heq])
  have hstride : ∀ k, (σ.updated c p).Stride k ↔ k = c ∨ σ.Stride k := by
    intro k
    rcases eq_or_ne k c with rfl | hk
    · exact ⟨fun _ ↦ .inl rfl, fun _ ↦ ⟨hc, by rw [hself]⟩⟩
    · rw [Stride, Stride, hother k hk]
      exact ⟨.inr, fun h ↦ h.resolve_left hk⟩
  have hagree : ∀ j k, (σ.updated c p).Stride j → (σ.updated c p).Stride k →
      (σ.table.proc j).ptid = (σ.table.proc k).ptid →
      ((σ.updated c p).share j).myPortion = ((σ.updated c p).share k).myPortion := by
    intro j k hj hk heq
    rcases (hstride j).1 hj with rfl | hj'
    · rcases (hstride k).1 hk with rfl | hk'
      · rfl
      · exact absurd heq.symm (hnone k hk')
    · rcases (hstride k).1 hk with rfl | hk'
      · exact absurd heq (hnone j hj')
      · rw [hother j (hne j hj'), hother k (hne k hk')]
        exact h.agree j k hj' hk' heq
  refine ⟨hagree, ?_, hfit⟩
  have hgroups : (σ.updated c p).groups = insert (σ.table.proc c).ptid σ.groups := by
    ext g
    rw [mem_groups, Finset.mem_insert, mem_groups]
    constructor
    · intro ⟨k, hk, hg⟩
      rcases (hstride k).1 hk with rfl | hk
      · exact .inl hg.symm
      · exact .inr ⟨k, hk, hg⟩
    · intro hg
      rcases hg with rfl | ⟨k, hk, hg⟩
      · exact ⟨c, (hstride c).2 (.inl rfl), rfl⟩
      · exact ⟨k, (hstride k).2 (.inr hk), hg⟩
  have hnew : (σ.table.proc c).ptid ∉ σ.groups := by
    rw [mem_groups]
    intro ⟨k, hk, heq⟩
    exact hnone k hk heq
  have hportion : (σ.updated c p).portion (σ.table.proc c).ptid = p.toInt := by
    have hpo := portion_eq hagree ((hstride c).2 (.inl rfl))
    rwa [hself] at hpo
  rw [hgroups, Finset.sum_insert hnew, hportion]
  have hsum : ∑ g ∈ σ.groups, (σ.updated c p).portion g = ∑ g ∈ σ.groups, σ.portion g := by
    refine Finset.sum_congr rfl fun g hg ↦ ?_
    obtain ⟨k, hk, rfl⟩ := mem_groups.1 hg
    have hpo := portion_eq hagree ((hstride k).2 (.inr hk))
    rw [hother k (hne k hk)] at hpo
    rw [portion_eq h.agree hk]
    exact hpo
  rw [hsum, ← h.total]
  have hadd := toNat_add_portion h.bounded hfit
  show ((σ.totPortion + p).toNat : ℤ) = _
  omega

end Account

/-! ### Runs -/

section Steps

variable {σ σ' : Shares} {c : Slot}

variable {a : Call} {r : Ret} {t : Ptable}

theorem shareAfter_of_ne {k : Slot} (h : a.allocates = true → σ.table.freeSlot ≠ some k) :
    σ.shareAfter c a r k = σ.share k := by
  rw [shareAfter]
  split
  next ha =>
    cases hfree : σ.table.freeSlot with
    | none => rfl
    | some np =>
      refine update_of_ne ?_ ..
      rintro rfl
      exact h ha hfree
  · rfl

/-- A call takes the shares along. -/
theorem step_call (h : σ.step (c, .call a) = some (.ok σ')) :
    ∃ r t, σ.table.MayCall c ∧ Ptable.Effect σ.table c a r t ∧
      σ' = ⟨t, σ.shareAfter c a r, σ.totPortion⟩ := by
  rw [step] at h
  split at h
  next hmay =>
    split at h
    next r t hrun =>
      obtain rfl := Except.ok.inj (Option.some.inj h)
      exact ⟨r, t, hmay.1, (call_effect (Ptable.MayCall.used hmay.1)).of_ok hrun r rfl, rfl⟩
    · cases h
    · cases Option.some.inj h
  · cases h

/-- The check notes what the caller asks for, or refuses it. -/
theorem step_check {p : BitVec 32} (h : σ.step (c, .check p) = some (.ok σ')) :
    σ' = σ ∨ σ' = σ.setShare c ((σ.share c).ask p) := by
  rw [step] at h
  split at h
  · split at h
    · exact .inl (Except.ok.inj (Option.some.inj h)).symm
    · exact .inr (Except.ok.inj (Option.some.inj h)).symm
  · cases h

/-- The update gives the caller what it has asked for. -/
theorem step_update {x : Except ShareFault Shares} (h : σ.step (c, .update) = some x) :
    ∃ p, σ.table.MayCall c ∧ (σ.share c).asked = some p ∧
      x = if (σ.updated c p).Divides then .ok (σ.updated c p) else .error .divide := by
  rw [step] at h
  split at h
  next hruns =>
    split at h
    · cases h
    next p hp =>
      refine ⟨p, hruns, hp, ?_⟩
      split at h
      next hdiv => rw [if_pos hdiv, Option.some.inj h]
      next hdiv => rw [if_neg hdiv, Option.some.inj h]
  · cases h

/-- A new slot has a share only if it is a thread of a process that has one. -/
theorem new_share {np : Slot} (hgroup : σ.table.Grouped) (hmay : σ.table.MayCall c)
    (he : Ptable.Effect σ.table c a r t) (ha : a.allocates = true) (hfree : σ.table.freeSlot = some np)
    (hnp : (σ.shareAfter c a r np).checkMLFQ = true) : (σ.share c).checkMLFQ = true ∧
      SameShare σ ⟨t, σ.shareAfter c a r, σ.totPortion⟩ c np := by
  have hshare : σ.shareAfter c a r np =
      if a = .threadCreate ∧ r = .code 0 then (σ.share c).copied else .none := by
    rw [shareAfter, if_pos ha, hfree]
    exact update_self ..
  rw [hshare] at hnp
  split at hnp
  next hthread =>
    obtain ⟨rfl, rfl⟩ := hthread
    rw [Share.copied] at hnp
    split at hnp
    next hc =>
      refine ⟨hc, ?_, ?_⟩
      · cases he with
        | @spawned _ np' _ h =>
          obtain rfl : np' = np := Option.mem_unique h.free hfree
          obtain ⟨v, sz, hself, -⟩ := h.self
          rw [hself]
          show (if (σ.table.proc c).tFlag then _ else _ : ℤ) = _
          split
          · rfl
          next hflag =>
            exact hgroup c (Ptable.MayCall.used hmay) (Bool.eq_false_iff.2 hflag)
      · show (σ.shareAfter c .threadCreate (.code 0) np).myPortion = _
        rw [hshare, if_pos ⟨rfl, rfl⟩, Share.copied, if_pos hc]
    · cases hnp
  · cases hnp

theorem Accounted.call (h : Accounted σ) (hgroup : σ.table.Grouped) (hmay : σ.table.MayCall c)
    (he : Ptable.Effect σ.table c a r t) (hset : σ.Settled (c, .call a)) :
    Accounted ⟨t, σ.shareAfter c a r, σ.totPortion⟩ := by
  have hused := Ptable.MayCall.used hmay
  refine h.of_same rfl ?_ ?_
  · intro k hk
    by_cases hnew : a.allocates = true ∧ σ.table.freeSlot = some k
    · obtain ⟨hc, hsame⟩ := new_share hgroup hmay he hnew.1 hnew.2 hk.2
      exact ⟨c, ⟨Ptable.MayCall.alive hmay, hc⟩, hsame⟩
    · have hne : a.allocates = true → σ.table.freeSlot ≠ some k := fun ha hf ↦ hnew ⟨ha, hf⟩
      obtain ⟨halive, hid⟩ := (he.fate hused k).alive_before hne hk.1
      have hshare := shareAfter_of_ne (c := c) (r := r) hne
      exact ⟨k, ⟨halive, hshare ▸ hk.2⟩, hid.ptid, congrArg Share.myPortion hshare⟩
  · -- A member that leaves is replaced by one that stays.
    intro k hk
    obtain ⟨j, hj, hptid, hstay⟩ : ∃ j, σ.Stride j ∧
        (σ.table.proc j).ptid = (σ.table.proc k).ptid ∧ ¬σ.table.Ends c a j := by
      by_cases hends : σ.table.Ends c a k
      · exact hset k hk hends
      · exact ⟨k, hk, rfl, hends⟩
    obtain ⟨halive, hid⟩ := (he.fate hused j).alive_after hj.1 hstay
    have hne : a.allocates = true → σ.table.freeSlot ≠ some j := fun _ hf ↦
      hj.1.1 (unused_of_freeSlot hf)
    have hshare := shareAfter_of_ne (c := c) (r := r) hne
    refine ⟨j, ⟨halive, (congrArg Share.checkMLFQ hshare).trans hj.2⟩, hid.ptid.trans hptid, ?_⟩
    exact (congrArg Share.myPortion hshare).trans (h.agree j k hj hk hptid)

/-- A settled step keeps the account. -/
theorem Accounted.step {l : Slot × ShareOp} (h : Accounted σ) (hgroup : σ.table.Grouped)
    (hset : σ.Settled l) (hstep : σ.step l = some (.ok σ')) : Accounted σ' ∧ σ'.table.Grouped := by
  obtain ⟨c, op⟩ := l
  cases op with
  | call a =>
    obtain ⟨r, t, hmay, he, rfl⟩ := step_call hstep
    exact ⟨h.call hgroup hmay he hset, hgroup.effect (Ptable.MayCall.used hmay) he⟩
  | check portion =>
    rcases step_check hstep with rfl | rfl
    · exact ⟨h, hgroup⟩
    · have hshare : ∀ k, ((σ.setShare c ((σ.share c).ask portion)).share k).checkMLFQ =
          (σ.share k).checkMLFQ ∧ SameShare σ (σ.setShare c ((σ.share c).ask portion)) k k := by
        intro k
        rw [SameShare, setShare_share]
        rcases eq_or_ne k c with rfl | hk
        · rw [update_self]
          exact ⟨rfl, rfl, rfl⟩
        · rw [update_of_ne hk]
          exact ⟨rfl, rfl, rfl⟩
      refine ⟨h.of_same rfl (fun k hk ↦ ⟨k, ⟨hk.1, ?_⟩, (hshare k).2⟩)
        fun k hk ↦ ⟨k, ⟨hk.1, ?_⟩, (hshare k).2⟩, hgroup⟩
      · exact (hshare k).1.symm.trans hk.2
      · exact (hshare k).1.trans hk.2
  | update =>
    obtain ⟨p, hruns, hp, heq⟩ := step_update hstep
    split at heq
    · obtain rfl := Except.ok.inj heq
      have hfits := hset.2
      rw [Fits, hp] at hfits
      refine ⟨h.updated ?_ hset.1 hfits, hgroup⟩
      rcases hruns with hr | hr
      all_goals exact ⟨by rw [hr]; nofun, by rw [hr]; nofun⟩
    · cases heq

/-- `p->stride = 100/(p->myPortion)`, with `int`s. -/
def strideValue (myPortion : BitVec 32) : ℤ := Int.tdiv 100 myPortion.toInt

/-- `strideOfMlfq = 100/(100- totPortion)`, with `uint`s. -/
def strideOfMlfq (totPortion : BitVec 32) : ℕ := 100 / (100 - totPortion).toNat

/-- What `set_stride_value` divides by is not zero, and what it stores is at least 1. -/
structure StridesDefined (σ : Shares) : Prop where
  portion : ∀ k, (σ.share k).checkMLFQ = true →
    (σ.share k).myPortion ≠ 0 ∧ 1 ≤ strideValue (σ.share k).myPortion
  rest : 100 - σ.totPortion ≠ 0 ∧ 1 ≤ strideOfMlfq σ.totPortion

/-- The share is positive, and with it the total is at most 80 when the lock is held. -/
def Modest (σ : Shares) : Slot × ShareOp → Prop
  | (_, .call _) => True
  | (_, .check p) => 1 ≤ p.toInt
  | (c, .update) => σ.Fits c

instance (σ : Shares) : ∀ l, Decidable (σ.Modest l)
  | (_, .call _) => isTrue trivial
  | (_, .check p) => inferInstanceAs (Decidable (1 ≤ p.toInt))
  | (c, .update) => inferInstanceAs (Decidable (σ.Fits c))

/-- Every share, in a live slot or a stale one, and every share that is asked for is positive. -/
structure Positive (σ : Shares) : Prop where
  share : ∀ k, (σ.share k).checkMLFQ = true → 1 ≤ (σ.share k).myPortion.toInt ∧ (σ.share k).myPortion.toInt ≤ 80
  asked : ∀ k, ∀ p ∈ (σ.share k).asked, 1 ≤ p.toInt
  total : σ.totPortion.toNat ≤ 80

theorem Positive.stridesDefined (h : Positive σ) : StridesDefined σ := by
  constructor
  · intro k hk
    obtain ⟨hpos, hle⟩ := h.share k hk
    refine ⟨fun hzero ↦ ?_, ?_⟩
    · rw [hzero] at hpos
      exact absurd hpos (by decide)
    · rw [strideValue, Int.tdiv_eq_ediv_of_nonneg (by decide)]
      exact (Int.le_ediv_iff_mul_le (by omega)).2 (by omega)
  · have htot := h.total
    have hsub : (100 - σ.totPortion).toNat = 100 - σ.totPortion.toNat := by
      rw [BitVec.toNat_sub_of_le]
      · rfl
      · exact htot.trans (by decide)
    refine ⟨fun hzero ↦ ?_, ?_⟩
    · rw [hzero] at hsub
      change 0 = _ at hsub
      omega
    · rw [strideOfMlfq, hsub]
      exact (Nat.le_div_iff_mul_le (by omega)).2 (by omega)

/-- A slot that is rewritten with a positive share. -/
theorem Positive.setShare (h : Positive σ) {p : Share}
    (hp : p.checkMLFQ = true → 1 ≤ p.myPortion.toInt ∧ p.myPortion.toInt ≤ 80)
    (hasked : ∀ x ∈ p.asked, 1 ≤ x.toInt) : Positive (σ.setShare c p) := by
  refine ⟨fun k ↦ ?_, fun k ↦ ?_, h.total⟩
  · rw [setShare_share]
    rcases eq_or_ne k c with rfl | hk
    · rw [update_self]
      exact hp
    · rw [update_of_ne hk]
      exact h.share k
  · rw [setShare_share]
    rcases eq_or_ne k c with rfl | hk
    · rw [update_self]
      exact hasked
    · rw [update_of_ne hk]
      exact h.asked k

theorem Positive.updated (h : Positive σ) {p : BitVec 32} (hasked : (σ.share c).asked = some p) (hfits : σ.Fits c) :
    Positive (σ.updated c p) := by
  have hpos := h.asked c p hasked
  rw [Fits, hasked] at hfits
  have hadd := toNat_add_portion h.total hfits
  exact { h.setShare (p := ⟨true, p, none⟩) (fun _ ↦ ⟨hpos, show p.toInt ≤ 80 by omega⟩) nofun with total := hfits }

/-- A call resets the share of a new slot, or copies one. -/
theorem Positive.call (h : Positive σ) : Positive ⟨t, σ.shareAfter c a r, σ.totPortion⟩ := by
  have hnone : Positive ⟨t, σ.share, σ.totPortion⟩ := ⟨h.share, h.asked, h.total⟩
  rw [shareAfter]
  split
  · split
    · exact hnone
    next np _ =>
      refine hnone.setShare (c := np) ?_ ?_
      · intro hnew
        split at hnew
        next hthread =>
          rw [if_pos hthread, Share.copied] at *
          split at hnew
          next hc =>
            rw [if_pos hc]
            exact h.share c hc
          · cases hnew
        · cases hnew
      · rw [Share.copied]
        split
        · split
          · exact nofun
          · exact nofun
        · exact nofun
  · exact hnone

theorem Positive.step {l : Slot × ShareOp} (h : Positive σ) (hmodest : σ.Modest l)
    (hstep : σ.step l = some (.ok σ')) : Positive σ' := by
  obtain ⟨c, op⟩ := l
  cases op with
  | call a =>
    obtain ⟨r, t, -, -, rfl⟩ := step_call hstep
    exact h.call
  | check p =>
    rcases step_check hstep with rfl | rfl
    · exact h
    · exact h.setShare (h.share c) fun x hx ↦ Option.some.inj hx ▸ hmodest
  | update =>
    obtain ⟨p, -, hp, heq⟩ := step_update hstep
    split at heq
    · obtain rfl := Except.ok.inj heq
      exact h.updated hp hmodest
    · cases heq

/-- **The strides are defined.** In every run in which `set_cpu_share` is called with positive shares and the total is
still at most 80 when the lock is held, no division in `set_stride_value` is by zero, in the next step either, and
every stride it stores is at least 1. -/
theorem strides_defined {s : Ptable} {ls : List (Slot × ShareOp)}
    (hrun : Machine.Run (Machine.guarded Modest step) (start s) ls σ) :
    StridesDefined σ ∧ ∀ l, σ.Modest l → σ.step l ≠ some (.error .divide) := by
  have hpos : Positive σ := by
    refine hrun.invariant (P := Positive) ⟨nofun, nofun, Nat.zero_le 80⟩ ?_
    intro τ τ' l hinv hstep
    obtain ⟨hmodest, hstep⟩ := guarded_eq_some.1 hstep
    exact hinv.step hmodest hstep
  refine ⟨hpos.stridesDefined, ?_⟩
  intro ⟨c, op⟩ hmodest hstep
  cases op with
  | call a =>
    rw [step] at hstep
    split at hstep
    · split at hstep
      all_goals cases hstep
    · cases hstep
  | check p =>
    rw [step] at hstep
    split at hstep
    · split at hstep
      all_goals cases hstep
    · cases hstep
  | update =>
    obtain ⟨p, -, hp, heq⟩ := step_update hstep
    have hdef := (hpos.updated hp hmodest).stridesDefined
    rw [if_pos ⟨fun k hk ↦ (hdef.portion k hk).1, hdef.rest.1⟩] at heq
    cases heq

/-- The first process gets 30 percent and a child 50, and the child makes a thread. -/
theorem strides_defined_two : ∃ freelist s ls σ, Ptable.boot freelist = .ok s ∧
    Machine.Run (Machine.guarded Modest step) (start s) ls σ ∧ σ.totPortion = 80 ∧ StridesDefined σ :=
  exists_boot_run_of (List.range' 1 300)
    [(0, .check 30), (0, .update), (0, .call .fork), (1, .check 50), (1, .update), (1, .call .threadCreate)]
    (·.totPortion = 80) (by decide +kernel) fun s σ _ hrun hσ ↦ ⟨hσ, (strides_defined hrun).1⟩

/-- `set_cpu_share(0)` divides by zero. So do two processes that check 80 and 20 before one of them takes the lock.
After a share of 30, a share of -10 is accepted, and the stride is -10. -/
theorem stride_undefined :
    (∃ freelist s ls σ, Ptable.boot freelist = .ok s ∧ Machine.Run step (start s) ls σ ∧
      σ.step (0, .update) matches some (.error .divide) ∧ σ.totPortion = 0) ∧
    (∃ freelist s ls σ, Ptable.boot freelist = .ok s ∧ Machine.Run step (start s) ls σ ∧
      σ.step (1, .update) matches some (.error .divide) ∧ (σ.share 1).asked = some 20) ∧
    ∃ freelist s ls σ, Ptable.boot freelist = .ok s ∧ Machine.Run step (start s) ls σ ∧
      (σ.share 1).checkMLFQ = true ∧ strideValue (σ.share 1).myPortion = -10 := by
  have hcompute (ls : List (Slot × ShareOp)) (P : Shares → Prop) [DecidablePred P]
      (h : bootThen (List.range' 1 300) (fun s ↦ reaches step (start s) ls fun σ ↦ P σ) = true) :
      ∃ freelist s ls σ, boot freelist = .ok s ∧ Machine.Run step (start s) ls σ ∧ P σ :=
    exists_boot_run_of _ ls P h fun _ _ _ _ hσ ↦ hσ
  refine ⟨hcompute [(0, .check 0)] _ ?_, hcompute [(0, .call .fork), (0, .check 80), (1, .check 20), (0, .update)] _ ?_,
    hcompute [(0, .call .fork), (0, .check 30), (0, .update), (1, .check (-10)), (1, .update)] _ ?_⟩
  all_goals decide +kernel

end Steps

end Shares

end Xv6
