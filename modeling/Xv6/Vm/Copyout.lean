import Xv6.Vm.Spec

/-!
# What `copyout` writes

`copyout` with the bytes that it copies, where `Xv6.Vm.Basic` has its answer only; the answers are the same
(`copyout_answer`). It stores the bytes in pages of the
user, or it finds an address that the user may not use. But `uva2ka` reads the entry of an address without a check that
there is one, so where the page table is missing it goes through a null pointer (`copyout_total_iff`).
-/

namespace Xv6

open Prog Function

namespace Vm

/-- `memmove` of `bytes` to a page, from the offset `o` on. -/
def storeAt (page : ℕ) : ℕ → List (BitVec 8) → (ℕ → ℕ → BitVec 8) → ℕ → ℕ → BitVec 8
  | _, [], data => data
  | o, b :: bytes, data => storeAt page (o + 1) bytes (update data page (update (data page) o b))

/-- The loop of `copyout`, for at most `n` turns. -/
def copyoutLoop (d : ℕ) : ℕ → ℕ → List (BitVec 8) → VM Bool
  | 0, _, _ => Prog.fail .dangling
  | n + 1, va, buf => do
    if 0 < buf.length then
      let va0 := PGROUNDDOWN va
      if ← uva2ka d va0 then
        match (← pageDir d).pte va0 with
        | none => return false
        | some e =>
          let k := min (PGSIZE - (va - va0)) buf.length
          Prog.modify fun m ↦ { m with data := storeAt e.page (va - va0) (buf.take k) m.data }
          copyoutLoop d n (va0 + PGSIZE) (buf.drop k)
      else
        return false
    else
      return true

/-- Copy `buf` to user address `va`. Each turn of the loop copies at least one byte. It returns `false` where the code returns
`-1`. -/
def copyoutBytes (d va : ℕ) (buf : List (BitVec 8)) : VM Bool := copyoutLoop d (buf.length + 1) va buf

/-- `walkpgdir` finds an entry for `va`. -/
def PageDir.HasEntry (pd : PageDir) (va : ℕ) : Prop :=
  if va < KERNBASE then (pd.table (PDX va)).isSome = true else va < KERNBASE + PHYSTOP ∨ DEVSPACE ≤ va

/-- The page of `va` is present, and the user may use it. -/
def PageDir.Accessible (pd : PageDir) (va : ℕ) : Prop := va < KERNBASE ∧ ∃ e, pd.pte va = some e ∧ e.user = true

/-- The bytes of the pages after `bytes` have been stored one by one from `va` on, each where the directory maps its
address. -/
def PageDir.stored (pd : PageDir) : ℕ → List (BitVec 8) → (ℕ → ℕ → BitVec 8) → ℕ → ℕ → BitVec 8
  | _, [], data => data
  | va, b :: bytes, data =>
    pd.stored (va + 1) bytes (match pd.pte va with
      | some e => update data e.page (update (data e.page) (va % PGSIZE) b)
      | none => data)

/-- The first address of the range that the user may not use has an entry. -/
def PageDir.EntriesThere (pd : PageDir) (va stop : ℕ) : Prop :=
  ∀ a, va ≤ a → a < stop → (∀ b, va ≤ b → b < a → pd.Accessible b) → pd.HasEntry a

/-- What `copyout` promises: it has stored the bytes, all of them at addresses that the user may use, and nothing else,
or there is an address that the user may not use. -/
def PageDir.CopiedOut (pd : PageDir) (va : ℕ) (buf : List (BitVec 8)) (m : Mem) (r : Bool) (m' : Mem) : Prop :=
  if r = true then (∀ a, va ≤ a → a < va + buf.length → pd.Accessible a) ∧
    m' = { m with data := pd.stored va buf m.data }
  else ∃ a, va ≤ a ∧ a < va + buf.length ∧ ¬pd.Accessible a

section

variable {m : Mem} {d va va' : ℕ} {pd : PageDir} {e : Pte} {buf : List (BitVec 8)}

theorem bounds_PGROUNDDOWN (va : ℕ) : PGROUNDDOWN va ≤ va ∧ va < PGROUNDDOWN va + PGSIZE := by
  unfold PGROUNDDOWN PGSIZE
  omega

/-- The addresses of a page are alike. -/
theorem samePage (pd : PageDir) {a : ℕ} (hle : PGROUNDDOWN va ≤ a) (hlt : a < PGROUNDDOWN va + PGSIZE) :
    pd.pte a = pd.pte (PGROUNDDOWN va) ∧ (pd.Accessible a ↔ pd.Accessible (PGROUNDDOWN va)) ∧
      (pd.HasEntry a ↔ pd.HasEntry (PGROUNDDOWN va)) := by
  have hK : KERNBASE = 2147483648 := rfl
  have hT : PHYSTOP = 234881024 := rfl
  have hD : DEVSPACE = 4261412864 := rfl
  have hpage : a / 4096 = PGROUNDDOWN va / 4096 ∧ PGROUNDDOWN va % 4096 = 0 := by
    unfold PGROUNDDOWN PGSIZE at *
    omega
  generalize PGROUNDDOWN va = a' at *
  have hpdx : PDX a = PDX a' := by unfold PDX; omega
  have hptx : PTX a = PTX a' := by unfold PTX; omega
  have hlt : a < KERNBASE ↔ a' < KERNBASE := by omega
  have hkernel : (a < KERNBASE + PHYSTOP ∨ DEVSPACE ≤ a) ↔ (a' < KERNBASE + PHYSTOP ∨ DEVSPACE ≤ a') := by omega
  have hpte : pd.pte a = pd.pte a' := by rw [PageDir.pte, PageDir.pte, hpdx, hptx]
  refine ⟨hpte, ?_, ?_⟩
  · rw [PageDir.Accessible, PageDir.Accessible, hlt, hpte]
  · rw [PageDir.HasEntry, PageDir.HasEntry, hpdx]
    simp only [hlt, hkernel]

theorem stored_append (pd : PageDir) (l₁ l₂ : List (BitVec 8)) (va : ℕ) (data : ℕ → ℕ → BitVec 8) :
    pd.stored va (l₁ ++ l₂) data = pd.stored (va + l₁.length) l₂ (pd.stored va l₁ data) := by
  induction l₁ generalizing va data with
  | nil => rfl
  | cons b l₁ ih =>
    rw [List.cons_append, PageDir.stored, ih, PageDir.stored, List.length_cons, Nat.add_right_comm, Nat.add_assoc]

/-- Within a page, storing byte by byte is one `memmove`. -/
theorem stored_page (hpte : pd.pte (PGROUNDDOWN va) = some e) {o : ℕ} {l : List (BitVec 8)}
    (ho : o + l.length ≤ PGSIZE) (data : ℕ → ℕ → BitVec 8) :
    pd.stored (PGROUNDDOWN va + o) l data = storeAt e.page o l data := by
  induction l generalizing o data with
  | nil => rfl
  | cons b l ih =>
    rw [List.length_cons] at ho
    have hsame := samePage pd (Nat.le_add_right (PGROUNDDOWN va) o) (by omega)
    have hmod : (PGROUNDDOWN va + o) % PGSIZE = o := by
      unfold PGROUNDDOWN PGSIZE at *
      omega
    rw [PageDir.stored, hsame.1, hpte, storeAt, Nat.add_assoc, ih (by omega), hmod]

/-- The part of the bytes that lies in the first page, and the rest. -/
theorem stored_split {k : ℕ} (hk : k = min (PGSIZE - (va - PGROUNDDOWN va)) buf.length)
    (hpte : pd.pte (PGROUNDDOWN va) = some e) (data : ℕ → ℕ → BitVec 8) : pd.stored va buf data =
      pd.stored (PGROUNDDOWN va + PGSIZE) (buf.drop k) (storeAt e.page (va - PGROUNDDOWN va) (buf.take k) data) := by
  have hdown := bounds_PGROUNDDOWN va
  have hpage := stored_page hpte (o := va - PGROUNDDOWN va) (l := buf.take k) (by rw [List.length_take]; omega) data
  rw [Nat.add_sub_cancel' hdown.1] at hpage
  rw [← hpage]
  conv_lhs => rw [← List.take_append_drop k buf, stored_append]
  rcases Nat.lt_or_ge k buf.length with hlt | hge
  · rw [List.length_take, Nat.min_eq_left hlt.le, show PGROUNDDOWN va + PGSIZE = va + k by omega]
  · rw [List.drop_eq_nil_of_le hge]
    rfl

/-- What `uva2ka` finds. -/
theorem uva2ka_exact (hd : m.dir d = some pd) : (uva2ka d va).Sat m
    (fun r m' ↦ m' = m ∧ pd.HasEntry va ∧ (r = true ↔ pd.Accessible va)) fun _ ↦ ¬pd.HasEntry va := by
  rw [uva2ka, PageDir.HasEntry, PageDir.Accessible]
  split
  next hge =>
    rw [if_neg (Nat.not_lt.2 hge)]
    split
    next hhole => exact fun h ↦ h.elim (Nat.not_lt.2 hhole.1) (Nat.not_le.2 hhole.2)
    next hhole =>
      have hentry : va < KERNBASE + PHYSTOP ∨ DEVSPACE ≤ va := by omega
      exact ⟨rfl, hentry, nofun, fun h ↦ absurd h.1 (Nat.not_lt.2 hge)⟩
  next hlt =>
    rw [Nat.not_le] at hlt
    rw [if_pos hlt]
    refine sat_bind.2 ?_
    rw [walkpgdir_eq]
    refine sat_bind.2 (pageDir_sat hd (sat_pure.2 ?_))
    split
    next hsome =>
      refine sat_bind.2 (pageDir_sat hd ?_)
      split
      next hnone => exact ⟨rfl, hsome, nofun, fun h ↦ by simp [hnone] at h⟩
      next e he => exact ⟨rfl, hsome, by simp [he, hlt]⟩
    next hnone => exact hnone

/-- The answer of `uva2ka` depends on the directory alone. -/
theorem uva2ka_answer {m' : Mem} (hd : m.dir d = some pd) (hd' : m'.dir d = some pd) : (uva2ka d va).Sat m
    (fun r _ ↦ (uva2ka d va).run m' = .ok (r, m')) fun e ↦ (uva2ka d va).run m' = .error e := by
  refine ((uva2ka_exact hd).and uva2ka_sat).mono (fun r _ h ↦ ?_) fun e h ↦ ?_
  · obtain ⟨⟨-, hentry, hr⟩, -⟩ := h
    obtain ⟨r', _, hrun, rfl, -, hr'⟩ := ((uva2ka_exact hd').imp_error fun _ h ↦ h hentry).exists_ok
    rw [hrun, Bool.eq_iff_iff.2 (hr'.trans hr.symm)]
  · exact Sat.eq_error (((uva2ka_exact hd').and uva2ka_sat).mono (fun _ _ hr ↦ h.1 hr.1.2.1) fun e' h' ↦
      h'.2.trans h.2.symm)

/-- When the addresses before `va'` can be used, the rest of the range decides. -/
theorem entriesThere_iff {stop stop' : ℕ} (hle : va ≤ va') (hstop : stop = stop' ∨ stop ≤ va' ∧ stop' = va')
    (hfirst : ∀ a, va ≤ a → a < va' → a < stop → pd.Accessible a ∧ pd.HasEntry a) :
    pd.EntriesThere va stop ↔ pd.EntriesThere va' stop' := by
  constructor
  · intro h a hlo hhi hacc
    refine h a (by omega) (by omega) fun b hb hba ↦ ?_
    rcases Nat.lt_or_ge b va' with hlt | hge
    · exact (hfirst b hb hlt (by omega)).1
    · exact hacc b hge hba
  · intro h a hlo hhi hacc
    rcases Nat.lt_or_ge a va' with hlt | hge
    · exact (hfirst a hlo hlt hhi).2
    · exact h a hge (by omega) fun b hb hba ↦ hacc b (by omega) hba

/-- The loop copies, or it finds an address that cannot be used, if the entries are there; and otherwise it stops. -/
theorem copyoutLoop_sat {n : ℕ} (hd : m.dir d = some pd) (hn : buf.length < n) : (copyoutLoop d n va buf).Sat m
    (fun r m' ↦ pd.EntriesThere va (va + buf.length) ∧ pd.CopiedOut va buf m r m')
    fun _ ↦ ¬pd.EntriesThere va (va + buf.length) := by
  induction n generalizing m va buf with
  | zero => exact absurd hn (Nat.not_lt_zero _)
  | succ n ih =>
    rw [copyoutLoop]
    split
    next hpos =>
      have hdown := bounds_PGROUNDDOWN va
      have hva := samePage pd hdown.1 hdown.2
      have hnow : va < va + buf.length := by omega
      refine ((uva2ka_exact hd).imp_error fun _ h hall ↦
        h (hva.2.2.1 (hall va le_rfl hnow fun b _ _ ↦ by omega))).bind ?_
      intro r m₁ hr₁
      obtain ⟨rfl, hentry, hr⟩ := hr₁
      split
      next htrue =>
        obtain ⟨-, e, he, -⟩ := id (hr.1 htrue)
        refine sat_bind.2 (pageDir_sat hd ?_)
        simp only [he]
        -- the bytes that lie in the first page
        obtain ⟨k, hk⟩ : ∃ k, k = min (PGSIZE - (va - PGROUNDDOWN va)) buf.length := ⟨_, rfl⟩
        rw [← hk, sat_modify_bind]
        have hfirst : ∀ a, va ≤ a → a < PGROUNDDOWN va + PGSIZE → a < va + buf.length →
            pd.Accessible a ∧ pd.HasEntry a := by
          intro a hlo hhi _
          have h := samePage pd (hdown.1.trans hlo) hhi
          exact ⟨h.2.1.2 (hr.1 htrue), h.2.2.2 hentry⟩
        have hdrop := List.length_drop (i := k) (l := buf)
        have hstop : va + buf.length = PGROUNDDOWN va + PGSIZE + (buf.drop k).length ∨
            va + buf.length ≤ PGROUNDDOWN va + PGSIZE ∧
              PGROUNDDOWN va + PGSIZE + (buf.drop k).length = PGROUNDDOWN va + PGSIZE := by omega
        rw [entriesThere_iff hdown.2.le hstop hfirst]
        have hd' : ({ m₁ with data := storeAt e.page (va - PGROUNDDOWN va) (buf.take k) m₁.data } : Mem).dir d =
          some pd := hd
        refine (ih hd' (by omega)).imp fun r m' hpost ↦ ⟨hpost.1, ?_⟩
        obtain ⟨-, hpost⟩ := hpost
        cases r with
        | false =>
          obtain ⟨a, hlo, hhi, hnot⟩ := hpost
          exact ⟨a, by omega, by omega, hnot⟩
        | true =>
          obtain ⟨hacc, rfl⟩ := hpost
          refine ⟨fun a hlo hhi ↦ ?_, ?_⟩
          · rcases Nat.lt_or_ge a (PGROUNDDOWN va + PGSIZE) with hlt | hge
            · exact (hfirst a hlo hlt hhi).1
            · exact hacc a hge (by omega)
          · rw [stored_split hk he]
      next hfalse =>
        have hnot : ¬pd.Accessible va := fun h ↦ hfalse (hr.2 (hva.2.1.1 h))
        refine ⟨fun a hlo _ hacc ↦ ?_, va, le_rfl, hnow, hnot⟩
        rcases Nat.eq_or_lt_of_le hlo with rfl | hlt
        · exact hva.2.2.2 hentry
        · exact absurd (hacc va le_rfl hlt) hnot
    next hnil =>
      obtain rfl : buf = [] := List.length_eq_zero_iff.1 (by omega)
      exact ⟨fun a hlo hhi ↦ absurd hhi (Nat.not_lt.2 hlo), fun a hlo hhi ↦ absurd hhi (Nat.not_lt.2 hlo), rfl⟩

theorem copyoutLoop_answer {n : ℕ} {m' : Mem} (hd : m.dir d = some pd) (hd' : m'.dir d = some pd) :
    (copyoutLoop d n va buf).Sat m (fun r _ ↦ (copyoutPages d n va buf.length).run m' = .ok (r, m'))
      fun e ↦ (copyoutPages d n va buf.length).run m' = .error e := by
  induction n generalizing m va buf with
  | zero => rfl
  | succ n ih =>
    rw [copyoutLoop, copyoutPages]
    split
    next hpos =>
      refine (((uva2ka_answer hd hd').and (uva2ka_exact hd)).imp_error fun _ h ↦ run_bind_of_error h.1).bind ?_
      intro r m₁ hpost
      obtain ⟨hrun, rfl, -, hr⟩ := hpost
      rw [run_bind_of_ok hrun]
      split
      next htrue =>
        obtain ⟨-, e, he, -⟩ := hr.1 htrue
        refine sat_bind.2 (pageDir_sat hd ?_)
        simp only [he]
        rw [sat_modify_bind, ← List.length_drop]
        exact ih hd
      next hfalse => rfl
    next hpos => rfl

/-- **`copyout` has one answer**, whether its bytes are followed or not. -/
theorem copyout_answer (hd : m.dir d = some pd) (va : ℕ) (buf : List (BitVec 8)) : (copyoutBytes d va buf).Sat m
    (fun r _ ↦ (copyout d va buf.length).run m = .ok (r, m)) fun e ↦ (copyout d va buf.length).run m = .error e :=
  copyoutLoop_answer hd hd

/-- **What `copyout` does.** It returns, with what it promises, exactly if the first address of the range that the user may
not use, if there is one, has an entry. -/
theorem copyout_total_iff (hd : m.dir d = some pd) (va : ℕ) (buf : List (BitVec 8)) :
    (∃ r m', (copyoutBytes d va buf).run m = .ok (r, m') ∧ pd.CopiedOut va buf m r m') ↔
      pd.EntriesThere va (va + buf.length) := by
  have hsat : (copyoutBytes d va buf).Sat m _ _ := copyoutLoop_sat hd (Nat.lt_succ_self buf.length)
  constructor
  · intro h
    obtain ⟨r, m', hrun, -⟩ := h
    exact (hsat.of_ok hrun).1
  · intro hthere
    obtain ⟨r, m', hrun, -, hpost⟩ := (hsat.imp_error fun _ h ↦ h hthere).exists_ok
    exact ⟨r, m', hrun, hpost⟩

end

/-- A directory that maps the first page of the user to page 5 and has no second page table. -/
def oneUserPage : PageDir :=
  ⟨1, [], fun i ↦ if i = 0 then some ⟨2, fun j ↦ if j = 0 then some ⟨5, true, true⟩ else none⟩ else none⟩

/-- Two bytes, the second of them in the next page, which is not there. -/
theorem copyout_total_two : ∃ m d pd, m.dir d = some pd ∧ pd.EntriesThere 4095 4097 ∧
    ∃ m', (copyoutBytes d 4095 [7, 8]).run m = .ok (false, m') := by
  have hthere : oneUserPage.EntriesThere 4095 4097 := by
    intro a hlo hhi _
    obtain rfl | rfl : a = 4095 ∨ a = 4096 := by omega
    all_goals rfl
  have hdir : Mem.dir ⟨[], 1, fun _ ↦ some oneUserPage, fun _ _ ↦ 0, 0⟩ 0 = some oneUserPage := rfl
  obtain ⟨r, m', hrun, hpost⟩ := (copyout_total_iff hdir 4095 [7, 8]).2 hthere
  cases r with
  | false => exact ⟨_, 0, oneUserPage, hdir, hthere, m', hrun⟩
  | true =>
    obtain ⟨-, e, he, -⟩ := hpost.1 4096 (by decide) (by decide)
    cases he

/-- An address without a page table. -/
theorem copyout_dangles : (copyoutBytes 0 4194304 [7]).run ⟨[], 1, fun _ ↦ some oneUserPage, fun _ _ ↦ 0, 0⟩ =
    .error .dangling := by
  rfl

end Vm

end Xv6
