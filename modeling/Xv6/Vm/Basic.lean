import Mathlib.Logic.Function.Basic
import Mathlib.Data.Int.Notation
import Xv6.Lib.Prog
import Xv6.Panic

/-!
# Pages and page directories

`kalloc.c` and the part of `vm.c` that works on the user half of an address space.

A page directory is kept as the code lays it out: the entry `PDX(va)` of the directory leads to a
page table or is absent, and the entry `PTX(va)` of the table is a present page or not. Each page
taken from `kalloc`, for data, a table or a directory, is recorded where it is used, so that the free
list is the code's own. Three things are left out. What the pages contain is followed through
`kfree`, `allocuvm` and `copyuvm` only, and not through the stores of processes, `copyout`, `loaduvm`
and `inituvm`: what is said of it is said of one call, from any contents. The kernel half is the same
in every directory and never changes, so `setupkvm` only takes the pages of its `KVMTABLES` page
tables. And a directory is named by the number of the `setupkvm` call that made it, not by its page:
the code never compares directories, and after `freevm` the page may be anything. Code that goes on
with a directory that has been freed has no modelled behaviour (`Fault.dangling`).
-/

namespace Xv6

open Function

/-! ### `mmu.h` and `memlayout.h` -/

/-- Bytes mapped by a page. -/
def PGSIZE : ℕ := 4096
/-- First kernel virtual address. -/
def KERNBASE : ℕ := 0x80000000
/-- Top physical memory. -/
def PHYSTOP : ℕ := 0xE000000
/-- Other devices are at high addresses. -/
def DEVSPACE : ℕ := 0xFE000000
/-- Directory entries below `KERNBASE`. -/
def NUPDENTRIES : ℕ := 512
/-- Page tables that `kmap` needs: 56 for `[KERNBASE, KERNBASE + PHYSTOP)` and 8 from `DEVSPACE`. -/
def KVMTABLES : ℕ := 64

/-- Page directory index. -/
def PDX (va : ℕ) : ℕ := va / 4194304 % 1024
/-- Page table index. -/
def PTX (va : ℕ) : ℕ := va / 4096 % 1024
/-- Construct virtual address from indexes and offset. -/
def PGADDR (d t o : ℕ) : ℕ := d * 4194304 + t * 4096 + o
/-- The next page boundary. -/
def PGROUNDUP (sz : ℕ) : ℕ := (sz + PGSIZE - 1) / PGSIZE * PGSIZE
/-- The page an address lies in. -/
def PGROUNDDOWN (a : ℕ) : ℕ := a / PGSIZE * PGSIZE

/-- An integer as a C `uint`. -/
def uint (n : ℤ) : ℕ := Int.toNat (n % (4294967296 : ℤ))

namespace Vm

/-- Why code on page directories does not return. -/
inductive Fault where
  /-- It panics. -/
  | panic (p : Panic)
  /-- It goes on with a page directory that has been freed or was never made, with an entry of a page
  table that is not there, or past the end of the address space. -/
  | dangling
  /-- It returns to the user and holds `ptable.lock`: nobody who needs the lock gets any further. -/
  | lockHeld
  deriving DecidableEq

/-- A page table entry with `PTE_P`. -/
structure Pte where
  /-- `PTE_ADDR`, as a page number. -/
  page : ℕ
  /-- `PTE_W`. -/
  writable : Bool
  /-- `PTE_U`. -/
  user : Bool

/-- A page table. -/
structure PageTable where
  /-- The page it lies in. -/
  page : ℕ
  /-- Its entries; `none` is an entry without `PTE_P`. -/
  pte : ℕ → Option Pte

/-- A page directory. -/
structure PageDir where
  /-- The page it lies in. -/
  page : ℕ
  /-- The pages of the page tables of the kernel half. -/
  kernel : List ℕ
  /-- The page tables of the user half; `none` is an entry without `PTE_P`. -/
  table : ℕ → Option PageTable

/-- Physical memory. -/
structure Mem where
  /-- `kmem.freelist`. -/
  freelist : List ℕ
  /-- How many page directories have been made. -/
  ndirs : ℕ
  /-- The page directories that have not been freed. -/
  dir : ℕ → Option PageDir
  /-- The bytes of the pages. -/
  data : ℕ → ℕ → BitVec 8
  /-- The page in which the kernel ends: the one of the last byte before `end`. -/
  kend : ℕ

/-- Code on page directories. -/
abbrev VM (α : Type) : Type := Prog Mem Fault α

/-! ### Entries -/

/-- The entry for `va`, if there is a page table for it and a page. -/
def PageDir.pte (pd : PageDir) (va : ℕ) : Option Pte :=
  (pd.table (PDX va)).bind fun t ↦ t.pte (PTX va)

/-- Write the entry for `va`, if there is a page table for it. -/
def PageDir.setPte (pd : PageDir) (va : ℕ) (e : Option Pte) : PageDir :=
  { pd with
    table := update pd.table (PDX va)
      ((pd.table (PDX va)).map fun t ↦ { t with pte := update t.pte (PTX va) e }) }

/-- The entry for `va` in directory `d`. -/
def Mem.pte (m : Mem) (d va : ℕ) : Option Pte :=
  (m.dir d).bind fun pd ↦ pd.pte va

/-- The directory `d`. -/
def pageDir (d : ℕ) : VM PageDir := do
  match (← Prog.get).dir d with
  | some pd => return pd
  | none => Prog.fail .dangling

/-- Rewrite the directory `d`. -/
def setDir (d : ℕ) (pd : Option PageDir) : VM Unit :=
  Prog.modify fun m ↦ { m with dir := update m.dir d pd }

/-! ### `kalloc.c` -/

/-- Allocate one 4096-byte page of physical memory. -/
def kalloc : VM (Option ℕ) := do
  match (← Prog.get).freelist with
  | [] => return none
  | r :: next =>
    Prog.modify fun m ↦ { m with freelist := next }
    return some r

/-- `memset` or `memmove` to the page `v`. -/
def fill (v : ℕ) (bytes : ℕ → BitVec 8) : VM Unit :=
  Prog.modify fun m ↦ { m with data := update m.data v bytes }

/-- A page of the allocator: from `end` up to `PHYSTOP`. -/
def Mem.Managed (m : Mem) (v : ℕ) : Prop := m.kend < v ∧ v < PHYSTOP / PGSIZE

instance (m : Mem) (v : ℕ) : Decidable (m.Managed v) := inferInstanceAs (Decidable (_ ∧ _))

/-- Free the page of physical memory `v`. -/
def kfree (v : ℕ) : VM Unit := do
  if (← Prog.get).Managed v then
    -- Fill with junk to catch dangling refs.
    fill v fun _ ↦ 1
    Prog.modify fun m ↦ { m with freelist := v :: m.freelist }
  else
    Prog.fail (.panic .kfree)

/-! ### `vm.c` -/

/-- Whether there is an entry for `va`. With `alloc`, make the page table for it if need be. -/
def walkpgdir (d va : ℕ) (alloc : Bool) : VM Bool := do
  let pd ← pageDir d
  if (pd.table (PDX va)).isSome then
    return true
  else if alloc then
    match ← kalloc with
    | none => return false
    | some pgtab =>
      setDir d (some { pd with
        table := update pd.table (PDX va) (some ⟨pgtab, fun _ ↦ none⟩) })
      return true
  else
    return false

/-- Map the page at `va` to `page`. All callers pass a page boundary and `PGSIZE`, so that the loop
of the code is taken once. It returns `false` where the code returns `-1`. -/
def mappages (d va page : ℕ) (writable user : Bool) : VM Bool := do
  if ← walkpgdir d va true then
    let pd ← pageDir d
    if (pd.pte va).isSome then
      Prog.fail (.panic .remap)
    else
      setDir d (some (pd.setPte va (some ⟨page, writable, user⟩)))
      return true
  else
    return false

/-- Free the page of the entry `e` for `a`, and clear the entry. -/
def freePte (d a : ℕ) (pd : PageDir) (e : Pte) : VM Unit := do
  if e.page = 0 then
    Prog.fail (.panic .kfree)
  else
    kfree e.page
    setDir d (some (pd.setPte a none))

/-- The loop of `deallocuvm` from `a`. It makes at most as many turns as there are pages up to
`oldsz`, which is the first argument, unless the jump wraps around. -/
def deallocPages (d oldsz : ℕ) : ℕ → ℕ → VM Unit
  | 0, _ => Prog.fail .dangling
  | n + 1, a => do
    if a < oldsz then
      let pd ← pageDir d
      match pd.table (PDX a) with
      | none =>
        -- `a = PGADDR(PDX(a) + 1, 0, 0) - PGSIZE`, and the loop adds `PGSIZE`.
        deallocPages d oldsz n (PGADDR (PDX a + 1) 0 0)
      | some t =>
        match t.pte (PTX a) with
        | none => deallocPages d oldsz n (a + PGSIZE)
        | some e =>
          freePte d a pd e
          deallocPages d oldsz n (a + PGSIZE)
    else
      return ()

/-- Deallocate user pages to bring the process size from `oldsz` to `newsz`. -/
def deallocuvm (d oldsz newsz : ℕ) : VM ℕ := do
  if newsz ≥ oldsz then
    return oldsz
  else
    deallocPages d oldsz ((oldsz - PGROUNDUP newsz) / PGSIZE + 2) (PGROUNDUP newsz)
    return newsz

/-- The loop of `allocuvm` over the page boundaries still to come. It returns `0` when it fails. -/
def allocPages (d oldsz newsz : ℕ) : List ℕ → VM ℕ
  | [] => return newsz
  | a :: as => do
    match ← kalloc with
    | none =>
      let _ ← deallocuvm d newsz oldsz
      return 0
    | some mem =>
      fill mem fun _ ↦ 0
      if ← mappages d a mem true true then
        allocPages d oldsz newsz as
      else
        let _ ← deallocuvm d newsz oldsz
        kfree mem
        return 0

/-- The page boundaries from `a` up to `b`, for a page boundary `a`. -/
def pagesFrom (a b : ℕ) : List ℕ :=
  (List.range ((b - a + PGSIZE - 1) / PGSIZE)).map fun i ↦ a + i * PGSIZE

/-- Allocate page tables and physical memory to grow process from `oldsz` to `newsz`. It returns the
new size, or `0` on error. -/
def allocuvm (d oldsz newsz : ℕ) : VM ℕ := do
  if newsz ≥ KERNBASE then
    return 0
  else if newsz < oldsz then
    return oldsz
  else
    allocPages d oldsz newsz (pagesFrom (PGROUNDUP oldsz) newsz)

/-- Free a page table and all the physical memory pages in the user part. -/
def freevm (pgdir : Option ℕ) : VM Unit := do
  match pgdir with
  | none => Prog.fail (.panic .freevmNoPgdir)
  | some d =>
    let _ ← deallocuvm d KERNBASE 0
    let pd ← pageDir d
    Prog.forEach (List.range NUPDENTRIES) fun i ↦
      match pd.table i with
      | some t => kfree t.page
      | none => return ()
    Prog.forEach pd.kernel kfree
    kfree pd.page
    setDir d none

/-- The page tables of the kernel half, of which `n` are still to be made. It returns `false` when a
page is missing. -/
def kernelTables (d : ℕ) : ℕ → VM Bool
  | 0 => return true
  | n + 1 => do
    match ← kalloc with
    | none => return false
    | some pgtab =>
      let pd ← pageDir d
      setDir d (some { pd with kernel := pd.kernel ++ [pgtab] })
      kernelTables d n

/-- Set up kernel part of a page table. -/
def setupkvm : VM (Option ℕ) := do
  match ← kalloc with
  | none => return none
  | some page =>
    let d := (← Prog.get).ndirs
    Prog.modify fun m ↦ { m with ndirs := m.ndirs + 1 }
    setDir d (some ⟨page, [], fun _ ↦ none⟩)
    if ← kernelTables d KVMTABLES then
      return some d
    else
      freevm (some d)
      return none

/-- Clear `PTE_U` on the page of `uva`. An address from `KERNBASE` on, where `p->sz - 2*PGSIZE` has
wrapped around, is mapped without `PTE_U`. -/
def clearpteu (d uva : ℕ) : VM Unit := do
  if uva < KERNBASE then
    if ← walkpgdir d uva false then
      let pd ← pageDir d
      setDir d (some (pd.setPte uva ((pd.pte uva).map fun e ↦ { e with user := false })))
    else
      Prog.fail (.panic .clearpteu)
  else
    let _ ← pageDir d

/-- The loop of `copyuvm` over the page boundaries still to come, copying `pgdir` to `d`. -/
def copyPages (pgdir d : ℕ) : List ℕ → VM (Option ℕ)
  | [] => return some d
  | i :: is => do
    if ← walkpgdir pgdir i false then
      match (← pageDir pgdir).pte i with
      | none => Prog.fail (.panic .copyuvmPageNotPresent)
      | some e =>
        match ← kalloc with
        | none =>
          freevm (some d)
          return none
        | some mem =>
          fill mem ((← Prog.get).data e.page)
          if ← mappages d i mem e.writable e.user then
            copyPages pgdir d is
          else
            kfree mem
            freevm (some d)
            return none
    else
      Prog.fail (.panic .copyuvmPteShouldExist)

/-- Given a parent process's page table, create a copy of it for a child. -/
def copyuvm (pgdir sz : ℕ) : VM (Option ℕ) := do
  match ← setupkvm with
  | none => return none
  | some d => copyPages pgdir d (pagesFrom 0 sz)

/-- Whether a user may use the page of `uva`. `*pte` is read without a check that there is one. In the
kernel half there is none between the end of physical memory and the devices, and the others are
without `PTE_U`. -/
def uva2ka (d uva : ℕ) : VM Bool := do
  if KERNBASE ≤ uva then
    if KERNBASE + PHYSTOP ≤ uva ∧ uva < DEVSPACE then
      Prog.fail .dangling
    else
      return false
  else if ← walkpgdir d uva false then
    match (← pageDir d).pte uva with
    | none => return false
    | some e => return e.user
  else
    Prog.fail .dangling

/-- The loop of `copyout`, for at most `n` turns. -/
def copyoutPages (d : ℕ) : ℕ → ℕ → ℕ → VM Bool
  | 0, _, _ => Prog.fail .dangling
  | n + 1, va, len => do
    if 0 < len then
      let va0 := PGROUNDDOWN va
      if ← uva2ka d va0 then
        copyoutPages d n (va0 + PGSIZE) (len - min (PGSIZE - (va - va0)) len)
      else
        return false
    else
      return true

/-- Whether `len` bytes can be copied to user address `va`. Each turn of the loop copies one at least. It
returns `false` where the code returns `-1`. -/
def copyout (d va len : ℕ) : VM Bool := copyoutPages d (len + 1) va len

end Vm

end Xv6
