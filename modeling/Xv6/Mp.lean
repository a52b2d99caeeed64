import Xv6.Block
import Xv6.Lib.Fuel
import Xv6.Panic

/-!
# The table of the processors

`mp.c`: the search for the MP structures in memory, and the loop of `mpinit` over the entries of the configuration table.

For an entry whose type it does not know, the loop sets `ismp` to 0, so that `mpinit` panics after the loop. But the
`break` at this place leaves the `switch` only. The cursor stays where it is and the loop never ends (`mpinit_ends_iff`).

The cursor is an offset into the table: the end of a table that the kernel can read is far from the end of the addresses.
-/

namespace Xv6

namespace Mp

/-- The byte at `P2V(a)`, for each address `a`. -/
abbrev Memory : Type := Word → Byte

/-- `n` bytes of memory. -/
def Memory.bytes (mem : Memory) (a : Word) (n : ℕ) : List Byte := (List.range n).map fun i ↦ mem (a + BitVec.ofNat 32 i)

/-- The number in `n` bytes of memory. -/
def Memory.number (mem : Memory) (a : Word) (n : ℕ) : ℕ := LittleEndian.decode (mem.bytes a n)

/-- `sum`. -/
def sum (mem : Memory) (addr : Word) (len : ℕ) : Byte := (mem.bytes addr len).foldl (· + ·) 0

/-- Look for an MP structure in the `len` bytes at `a`. -/
def mpsearch1 (mem : Memory) (a : Word) (len : ℕ) : Option Word :=
  ((List.range (len / 16)).map fun i ↦ a + BitVec.ofNat 32 (16 * i)).find? fun p ↦
    mem.bytes p 4 = [0x5F, 0x4D, 0x50, 0x5F] ∧ sum mem p 16 = 0

/-- Search for the MP floating pointer structure: in the first KB of the EBDA, or in the last KB of system base memory if
there is no EBDA, and then in the BIOS ROM. -/
def mpsearch (mem : Memory) : Option Word :=
  let p := mem.number 0x40E 2 * 16
  if p ≠ 0 then
    (mpsearch1 mem (BitVec.ofNat 32 p) 1024).or (mpsearch1 mem 0xF0000 0x10000)
  else
    (mpsearch1 mem (BitVec.ofNat 32 (mem.number 0x413 2 * 1024) - 1024) 1024).or (mpsearch1 mem 0xF0000 0x10000)

/-- `conf->length`. -/
def confLength (mem : Memory) (conf : Word) : ℕ := mem.number (conf + 4) 2

/-- Search for an MP configuration table: the addresses of the two structures. -/
def mpconfig (mem : Memory) : Option (Word × Word) := do
  let mp ← mpsearch mem
  let conf := BitVec.ofNat 32 (mem.number (mp + 4) 4)
  if conf = 0 then
    none
  else if mem.bytes conf 4 ≠ [0x50, 0x43, 0x4D, 0x50] then
    none
  else if mem (conf + 6) ≠ 1 ∧ mem (conf + 6) ≠ 4 then
    none
  else if sum mem conf (confLength mem conf) ≠ 0 then
    none
  else
    return (mp, conf)

/-! ### The types of the entries -/

/-- One per processor. -/
def MPPROC : Byte := 0
/-- One per bus. -/
def MPBUS : Byte := 1
/-- One per I/O APIC. -/
def MPIOAPIC : Byte := 2
/-- One per bus interrupt source. -/
def MPIOINTR : Byte := 3
/-- One per system interrupt source. -/
def MPLINTR : Byte := 4

/-! ### `mpinit` -/

/-- The variables of `mpinit`. -/
structure Vars where
  /-- How far `p` is from the beginning of the table. -/
  p : ℕ
  /-- The ids of the processors in `cpus`, `ncpu` of them. -/
  apicids : List Byte
  ioapicid : Byte
  lapic : Word
  ismp : Bool
  /-- External interrupts are masked. -/
  masked : Bool

/-- The `switch` in the loop. -/
def entry (table : ℕ → Byte) (v : Vars) : Vars :=
  let type := table v.p
  if type = MPPROC then
    { v with
      apicids := if v.apicids.length < NCPU then v.apicids ++ [table (v.p + 1)] else v.apicids
      p := v.p + 20 }
  else if type = MPIOAPIC then
    { v with ioapicid := table (v.p + 1), p := v.p + 8 }
  else if type = MPBUS ∨ type = MPIOINTR ∨ type = MPLINTR then
    { v with p := v.p + 8 }
  else
    -- `break` leaves the `switch`
    { v with ismp := false }

/-- The loop, for at most `n` iterations. -/
def entries (table : ℕ → Byte) (e : ℕ) : ℕ → Vars → ExceptT Panic Option Vars
  | 0, _ => none
  | n + 1, v => if v.p < e then entries table e n (entry table v) else return v

/-- The bytes from `conf` on. -/
def tableAt (mem : Memory) (conf : Word) (i : ℕ) : Byte := mem (conf + BitVec.ofNat 32 i)

/-- `mpinit`. The table begins after its header of 44 bytes. -/
def mpinit (mem : Memory) (v : Vars) (n : ℕ) : ExceptT Panic Option Vars :=
  match mpconfig mem with
  | none => throw .mpinitNoTable
  | some (mp, conf) => do
    let lapic := BitVec.ofNat 32 (mem.number (conf + 36) 4)
    let v ← entries (tableAt mem conf) (confLength mem conf) n { v with p := 44, ismp := true, lapic := lapic }
    if v.ismp = false then
      throw .mpinitUnsuitable
    else
      return { v with masked := v.masked || mem (mp + 12) ≠ 0 }

/-! ### Which walks end -/

/-- How long an entry is, if its type is known. -/
def entrySize (type : Byte) : Option ℕ :=
  if type = MPPROC then some 20 else if type ∈ [MPBUS, MPIOAPIC, MPIOINTR, MPLINTR] then some 8 else none

/-- From `p` on, an entry of an unknown type begins before `e`. -/
inductive MeetsUnknown (table : ℕ → Byte) (e : ℕ) : ℕ → Prop
  | here {p : ℕ} (hp : p < e) (hsize : entrySize (table p) = none) : MeetsUnknown table e p
  | later {p k : ℕ} (hp : p < e) (hsize : entrySize (table p) = some k) (h : MeetsUnknown table e (p + k)) :
    MeetsUnknown table e p

/-- The table has an entry of an unknown type. -/
def HasUnknown (mem : Memory) (conf : Word) : Prop := MeetsUnknown (tableAt mem conf) (confLength mem conf) 44

variable {table : ℕ → Byte} {e k : ℕ} {v : Vars}

theorem entrySize_eq_none_iff {type : Byte} : entrySize type = none ↔ type ≠ MPPROC ∧ type ≠ MPIOAPIC ∧
    ¬(type = MPBUS ∨ type = MPIOINTR ∨ type = MPLINTR) := by
  revert type
  decide

/-- An entry of an unknown type is not passed. -/
theorem entry_of_none (h : entrySize (table v.p) = none) : entry table v = { v with ismp := false } := by
  obtain ⟨hproc, hioapic, hrest⟩ := entrySize_eq_none_iff.1 h
  rw [entry, if_neg hproc, if_neg hioapic, if_neg hrest]

theorem entry_of_some (h : entrySize (table v.p) = some k) :
    0 < k ∧ (entry table v).p = v.p + k ∧ (entry table v).ismp = v.ismp := by
  rw [entry]
  split
  next hproc =>
    obtain rfl : 20 = k := by simpa [entrySize, hproc] using h
    exact ⟨by decide, rfl, rfl⟩
  next hproc =>
    obtain rfl : 8 = k := by
      rw [entrySize, if_neg hproc] at h
      split at h
      · exact Option.some.inj h
      · cases h
    split
    · exact ⟨by decide, rfl, rfl⟩
    next hioapic =>
      split
      · exact ⟨by decide, rfl, rfl⟩
      next hrest => exact nomatch h.symm.trans (entrySize_eq_none_iff.2 ⟨hproc, hioapic, hrest⟩)

/-- The loop ends behind the last entry. -/
theorem entries_returns (h : ¬MeetsUnknown table e v.p) :
    ∃ t, Returns (fun n ↦ entries table e n v) (.ok t) ∧ e ≤ t.p ∧ t.ismp = v.ismp := by
  induction hm : e - v.p using Nat.strong_induction_on generalizing v with
  | _ m ih =>
    by_cases hp : v.p < e
    · cases hsize : entrySize (table v.p) with
      | none => exact absurd (.here hp hsize) h
      | some k =>
        obtain ⟨hk, hnext, hismp⟩ := entry_of_some hsize
        obtain ⟨t, ht, hend, heq⟩ := ih _ (by omega) (hnext ▸ fun hlater ↦ h (.later hp hsize hlater)) rfl
        refine ⟨t, .succ ?_, hend, heq.trans hismp⟩
        simpa only [entries, if_pos hp] using ht
    · refine ⟨v, .succ (.of_forall fun n ↦ ?_), Nat.le_of_not_lt hp, rfl⟩
      rw [entries, if_neg hp]
      rfl

/-- The loop does not end at an entry of an unknown type. -/
theorem entries_eq_none {p : ℕ} (h : MeetsUnknown table e p) (hp : v.p = p) (n : ℕ) : entries table e n v = none := by
  induction h generalizing v n with
  | here hlt hsize =>
    -- each iteration leaves the cursor where it is
    induction n generalizing v with
    | zero => rfl
    | succ n ih =>
      subst hp
      rw [entries, if_pos hlt]
      exact ih (by rw [entry_of_none hsize])
  | later hlt hsize _ ih =>
    subst hp
    cases n with
    | zero => rfl
    | succ n =>
      rw [entries, if_pos hlt]
      exact ih (entry_of_some hsize).2.1 n

section

variable {mem : Memory} {mp conf : Word}

theorem mpinit_eq_none (hconf : mpconfig mem = some (mp, conf)) (h : HasUnknown mem conf) (v : Vars) (n : ℕ) :
    (mpinit mem v n).run = none := by
  rw [mpinit, hconf]
  show ExceptT.bind _ _ = none
  rw [entries_eq_none h rfl]
  rfl

/-- **When `mpinit` ends.** Let the table pass the checks of `mpconfig`. The loop ends behind the last entry, or `mpinit`
panics if there is an entry of an unknown type: this holds exactly if there is no such entry. With such an entry the loop
never ends. -/
theorem mpinit_ends_iff (hconf : mpconfig mem = some (mp, conf)) (v : Vars) :
    ((∃ r, Returns (mpinit mem v) r ∧
      (HasUnknown mem conf → r = .error .mpinitUnsuitable) ∧
      (¬HasUnknown mem conf → ∃ t, r = .ok t ∧ confLength mem conf ≤ t.p)) ↔ ¬HasUnknown mem conf) ∧
    (HasUnknown mem conf → ∀ n, (mpinit mem v n).run = none) := by
  refine ⟨⟨fun ⟨r, ⟨n, hr⟩, _⟩ h ↦ ?_, fun h ↦ ?_⟩, fun h ↦ mpinit_eq_none hconf h v⟩
  · exact nomatch (mpinit_eq_none hconf h v n).symm.trans (hr n (Nat.le_refl n))
  · obtain ⟨t, ht, hend, hismp⟩ := entries_returns
      (v := { v with p := 44, ismp := true, lapic := BitVec.ofNat 32 (mem.number (conf + 36) 4) }) h
    refine ⟨.ok { t with masked := t.masked || mem (mp + 12) ≠ 0 }, ?_, fun hmeets ↦ absurd hmeets h,
      fun _ ↦ ⟨_, rfl, hend⟩⟩
    have hmpinit : mpinit mem v = _ := funext fun n ↦ by rw [mpinit, hconf]
    rw [hmpinit]
    refine Returns.bind_ok ht (.of_forall fun n ↦ ?_)
    rw [if_neg (by rw [hismp]; exact nofun)]
    rfl

end

/-- A machine whose table has one entry. -/
def oneEntry (type : Byte) : Memory := fun a ↦
  ([0x5F, 0x4D, 0x50, 0x5F, 0, 0x10, 0, 0, 1, 1, 0x93][(a - 0xF0000).toNat]?.or
    ([0x50, 0x43, 0x4D, 0x50, 52, 0, 1, 0x9B - type] ++ List.replicate 36 0 ++ [type])[(a - 0x1000).toNat]?).getD 0

/-- The walk over an entry for a bus. -/
theorem mpinit_ends_bus : ∃ t, Returns (mpinit (oneEntry MPBUS) ⟨0, [], 0, 0, false, false⟩) (.ok t) ∧ 52 ≤ t.p := by
  have hconf : mpconfig (oneEntry MPBUS) = some (0xF0000, 0x1000) := by decide +kernel
  have hlen : confLength (oneEntry MPBUS) 0x1000 = 52 := by decide +kernel
  have hsize : entrySize (tableAt (oneEntry MPBUS) 0x1000 44) = some 8 := by decide +kernel
  have hknown : ¬HasUnknown (oneEntry MPBUS) 0x1000 := by
    intro h
    cases h with
    | here _ hnone => cases hsize.symm.trans hnone
    | later _ hsome h =>
      obtain rfl := Option.mem_unique hsize hsome
      cases h <;> omega
  obtain ⟨r, hr, -, hok⟩ := (mpinit_ends_iff hconf _).1.2 hknown
  obtain ⟨t, rfl, ht⟩ := hok hknown
  exact ⟨t, hr, hlen ▸ ht⟩

/-- The walk over an entry of type 5 does not end. -/
theorem mpinit_type_five : mpconfig (oneEntry 5) = some (0xF0000, 0x1000) ∧
    ∀ v n, (mpinit (oneEntry 5) v n).run = none := by
  have hconf : mpconfig (oneEntry 5) = some (0xF0000, 0x1000) := by decide +kernel
  exact ⟨hconf, mpinit_eq_none hconf (.here (by decide +kernel) (by decide +kernel))⟩

end Mp

end Xv6
