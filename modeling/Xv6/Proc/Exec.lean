import Xv6.Proc.Basic

/-!
# `exec`

`exec.c`, with what it finds in the file as data: a `Program` lists the program headers with what the
reads of the file deliver, and the lengths of the arguments. The new address space is built by code
on page directories (`loadProgram`), and only when it is complete does the process change.
-/

namespace Xv6

open Vm

/-- Max exec arguments. -/
def MAXARG : ℕ := 32

/-- What `exec` sees of a program header. The numbers are C `uint`s. -/
structure Segment where
  /-- `readi` delivers the whole header. -/
  read : Bool
  /-- The type is `ELF_PROG_LOAD`. -/
  load : Bool
  /-- Where it goes. -/
  vaddr : ℕ
  /-- Bytes in the file. -/
  filesz : ℕ
  /-- Bytes in memory. -/
  memsz : ℕ
  /-- How many pages `readi` delivers before it falls short. -/
  pages : ℕ
  deriving DecidableEq

/-- What `exec` is called with. -/
structure Program where
  /-- `namei` finds the file. -/
  found : Bool
  /-- `readi` delivers an ELF header with the right magic number. -/
  header : Bool
  /-- The program headers. -/
  segments : List Segment
  /-- The lengths of the arguments. -/
  args : List ℕ
  deriving DecidableEq

namespace Vm

/-- The loop of `loaduvm` over the pages still to come, of which `n` can be read. -/
def loaduvm (d : ℕ) : ℕ → List ℕ → VM Bool
  | _, [] => return true
  | n, a :: as => do
    if ← walkpgdir d a false then
      match n with
      | 0 => return false
      | n + 1 => loaduvm d n as
    else
      Prog.fail (.panic .loaduvmAddress)

/-- Load program into memory. It returns the size, or none where the code goes to `bad`. -/
def loadSegments (d : ℕ) : List Segment → ℕ → VM (Option ℕ)
  | [], sz => return some sz
  | ph :: phs, sz => do
    if !ph.read then
      return none
    else if !ph.load then
      loadSegments d phs sz
    else if ph.memsz < ph.filesz then
      return none
    else if uint (ph.vaddr + ph.memsz) < ph.vaddr then
      return none
    else
      let sz' ← allocuvm d sz (uint (ph.vaddr + ph.memsz))
      if sz' = 0 then
        return none
      else if ph.vaddr % PGSIZE ≠ 0 then
        return none
      else if ← loaduvm d ph.pages (pagesFrom ph.vaddr (ph.vaddr + ph.filesz)) then
        loadSegments d phs sz'
      else
        return none

/-- Push argument strings, for the arguments still to come, of which `argc` have been pushed. It
returns the stack pointer and `argc`, or none where the code goes to `bad`. -/
def pushArgs (d : ℕ) : List ℕ → ℕ → ℕ → VM (Option (ℕ × ℕ))
  | [], argc, sp => return some (sp, argc)
  | len :: lens, argc, sp => do
    if argc ≥ MAXARG then
      return none
    else
      let sp' := uint (sp - (len + 1)) / 4 * 4
      if ← copyout d sp' (len + 1) then
        pushArgs d lens (argc + 1) sp'
      else
        return none

/-- The user stack and the arguments in the new address space. -/
def buildStack (d : ℕ) (args : List ℕ) (sz : ℕ) : VM (Option ℕ) := do
  -- Allocate two pages at the next page boundary.
  let sz' ← allocuvm d (PGROUNDUP sz) (PGROUNDUP sz + 2 * PGSIZE)
  if sz' = 0 then
    return none
  else
    clearpteu d (sz' - 2 * PGSIZE)
    match ← pushArgs d args 0 sz' with
    | none => return none
    | some (sp, argc) =>
      let len := (3 + argc + 1) * 4
      if ← copyout d (uint (sp - len)) len then
        return some sz'
      else
        return none

/-- The new address space: the directory and the size, or none where `exec` returns -1. -/
def loadProgram (prog : Program) : VM (Option (ℕ × ℕ)) := do
  if !prog.found || !prog.header then
    return none
  else
    match ← setupkvm with
    | none => return none
    | some d =>
      match ← loadSegments d prog.segments 0 with
      | none =>
        freevm (some d)
        return none
      | some sz =>
        match ← buildStack d prog.args sz with
        | none =>
          freevm (some d)
          return none
        | some sz' => return some (d, sz')

end Vm

namespace Ptable

/-- Replace the address space of the current process. -/
def exec (c : Slot) (prog : Program) : Kern ℤ := do
  match ← vm (loadProgram prog) with
  | none => return -1
  | some (d, sz) =>
    -- Commit to the user image.
    let oldpgdir := ((← Prog.get).proc c).pgdir
    update c fun q ↦ (q.setPgdir (some d)).setSz sz
    switchuvm c
    vm (freevm oldpgdir)
    return 0

end Ptable

end Xv6
