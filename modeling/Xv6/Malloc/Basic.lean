import Mathlib.Algebra.Group.Nat.Defs
import Xv6.Lib.Fuel
import Xv6.Lib.Regions
import Mathlib.Logic.Function.Basic

/-!
# The memory allocator

`umalloc.c`: the allocator of Kernighan and Ritchie. Its memory is the map `hdr` of the headers at the addresses
of a process, and `base` is the address of the header with which the list of free blocks begins. Numbers are
those of `uint`, and a pointer to a `Header` is counted up by 8.

The search loops take an amount of fuel; that they end is part of `Xv6.Malloc.FreeList`. The kernel is a
parameter: `sbrk` takes the number of bytes as `morecore` computes it and returns an address, or stops in a panic
of type `ε`.
-/

namespace Xv6

open Function

namespace Malloc

/-- `Header`. -/
structure Header where
  /-- `s.ptr` -/
  ptr : ℕ
  /-- `s.size` -/
  size : ℕ
  deriving DecidableEq

/-- The memory of the allocator. -/
structure Heap where
  /-- The header at an address. -/
  hdr : ℕ → Header
  /-- `freep` -/
  freep : ℕ

/-- `p + k`, for a pointer to a header. -/
def plus (p k : ℕ) : ℕ := (p + 8 * k) % 2 ^ 32

/-- `(Header*)ap - 1`. -/
def headerOf (ap : ℕ) : ℕ := (ap + (2 ^ 32 - 8)) % 2 ^ 32

/-- What `sbrk` returns on error. -/
def FAILED : ℕ := 2 ^ 32 - 1

section Free

variable {ε : Type}

/-- The loop of `free`. -/
def freeLoop (hdr : ℕ → Header) (bp : ℕ) : ℕ → ℕ → ExceptT ε Option ℕ
  | 0, _ => none
  | n + 1, p =>
    if bp > p ∧ bp < (hdr p).ptr then
      return p
    else if p ≥ (hdr p).ptr ∧ (bp > p ∨ bp < (hdr p).ptr) then
      return p
    else
      freeLoop hdr bp n (hdr p).ptr

/-- The two `if` statements of `free`: let `b` point to `next`, or join the two if they touch. -/
def join (hdr : ℕ → Header) (b next : ℕ) : ℕ → Header :=
  if plus b (hdr b).size = next then
    update hdr b ⟨(hdr next).ptr, ((hdr b).size + (hdr next).size) % 2 ^ 32⟩
  else
    update hdr b ⟨next, (hdr b).size⟩

/-- `free`. -/
def free (n : ℕ) (h : Heap) (ap : ℕ) : ExceptT ε Option Heap := do
  let bp := headerOf ap
  let p ← freeLoop h.hdr bp n h.freep
  let hdr := join h.hdr bp (h.hdr p).ptr
  let hdr := join hdr p bp
  return ⟨hdr, p⟩

end Free

section Malloc

variable {ε K : Type} (sbrk : K → ℕ → Except ε (ℕ × K))

/-- `morecore`. -/
def morecore (n : ℕ) (h : Heap) (k : K) (nu : ℕ) : ExceptT ε Option (ℕ × Heap × K) := do
  let nu := if nu < 4096 then 4096 else nu
  let (p, k) ← ExceptT.mk (some (sbrk k (nu * 8 % 2 ^ 32)))
  if p = FAILED then
    return (0, h, k)
  else
    let h : Heap := { h with hdr := update h.hdr p ⟨(h.hdr p).ptr, nu⟩ }
    let h ← free n h (plus p 1)
    return (h.freep, h, k)

/-- Allocate the block at `p`, which follows `prevp` in the list. -/
def takeAll (h : Heap) (prevp p : ℕ) : ℕ × Heap :=
  (plus p 1, ⟨update h.hdr prevp ⟨(h.hdr p).ptr, (h.hdr prevp).size⟩, prevp⟩)

/-- Allocate the end of the block at `p`. -/
def takeEnd (h : Heap) (prevp p nunits : ℕ) : ℕ × Heap :=
  let size := (h.hdr p).size - nunits
  let hdr := update h.hdr p ⟨(h.hdr p).ptr, size⟩
  let q := plus p size
  (plus q 1, ⟨update hdr q ⟨(hdr q).ptr, nunits⟩, prevp⟩)

/-- Allocate from the block at `p`, which is large enough. -/
def take (h : Heap) (prevp p nunits : ℕ) : ℕ × Heap :=
  if (h.hdr p).size = nunits then takeAll h prevp p else takeEnd h prevp p nunits

/-- The loop of `malloc`. -/
def mallocLoop (nunits : ℕ) : ℕ → ℕ → ℕ → Heap → K → ExceptT ε Option (ℕ × Heap × K)
  | 0, _, _, _, _ => none
  | n + 1, prevp, p, h, k =>
    if (h.hdr p).size ≥ nunits then
      let r := take h prevp p nunits
      return (r.1, r.2, k)
    else if p = h.freep then do
      let (p, h, k) ← morecore sbrk n h k nunits
      if p = 0 then
        return (0, h, k)
      else
        mallocLoop nunits n p (h.hdr p).ptr h k
    else
      mallocLoop nunits n p (h.hdr p).ptr h k

/-- The units that a request takes. -/
def units (nbytes : ℕ) : ℕ := (nbytes + 8 - 1) % 2 ^ 32 / 8 + 1

/-- `malloc`. -/
def malloc (base n nbytes : ℕ) (h : Heap) (k : K) : ExceptT ε Option (ℕ × Heap × K) :=
  let nunits := units nbytes
  let h : Heap := if h.freep = 0 then ⟨update h.hdr base ⟨base, 0⟩, base⟩ else h
  mallocLoop sbrk nunits n h.freep (h.hdr h.freep).ptr h k

end Malloc

/-! ### Programs -/

/-- A block that the program has got from `malloc`. -/
structure Live where
  /-- The result of `malloc`. -/
  ap : ℕ
  /-- The number of bytes that were asked for. -/
  nbytes : ℕ
  deriving DecidableEq

/-- A process: the memory of its allocator, the kernel, and the blocks it has. -/
structure Process (K : Type) where
  /-- The allocator. -/
  heap : Heap
  /-- The kernel. -/
  kernel : K
  /-- The blocks that have not been freed. -/
  live : List Live

/-- What the program does next. -/
inductive Label where
  /-- It calls `malloc`, with fuel for its loops. -/
  | malloc (nbytes fuel : ℕ)
  /-- It calls `free` for one of its blocks. -/
  | free (v : Live) (fuel : ℕ)
  /-- It stores in a block of its own. What would be the header at address `a`, of which some byte is in the
  block, is then `h`. -/
  | store (v : Live) (a : ℕ) (h : Header)

/-- One step. -/
def Process.step {ε K : Type} (sbrk : K → ℕ → Except ε (ℕ × K)) (base : ℕ) (σ : Process K) :
    Label → Option (Except ε (Process K))
  | .malloc nbytes fuel =>
    (Malloc.malloc sbrk base fuel nbytes σ.heap σ.kernel).run.map fun r ↦ r.map fun (p, h, k) ↦
      ⟨h, k, if p = 0 then σ.live else ⟨p, nbytes⟩ :: σ.live⟩
  | .free v fuel =>
    if v ∈ σ.live then
      (Malloc.free fuel σ.heap v.ap).run.map fun r ↦ r.map fun h ↦ ⟨h, σ.kernel, σ.live.erase v⟩
    else
      none
  | .store v a h =>
    if v ∈ σ.live ∧ v.ap < a + 8 ∧ a < v.ap + v.nbytes then
      some (.ok { σ with heap := { σ.heap with hdr := update σ.heap.hdr a h } })
    else
      none

end Malloc

end Xv6
