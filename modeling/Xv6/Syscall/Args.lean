import Xv6.Fs.File
import Xv6.Vm.Basic

/-!
# Arguments of system calls

`syscall.c`: the arguments lie on the user stack, and `argint`, `argptr` and `argfd` fetch them. The
checks compare `uint`s, and additions in them wrap around; `argptr_eq_some` says that for a process below
`KERNBASE` they mean what they should.

`Caller` is the calling process: its memory, the size that the checks compare with, its stack pointer
and its open files. Every byte that the kernel stores through a pointer of the user is recorded.
-/

namespace Xv6

/-- A process in a system call. -/
structure Caller where
  /-- What the addresses of the process show, the kernel's own ones included. -/
  mem : Word → Byte
  /-- `curproc->sz`. -/
  sz : Word
  /-- `curproc->tf->esp`. -/
  esp : Word
  /-- `curproc->ofile`, as entries of `ftable.file`. -/
  ofile : ℕ → Option ℕ
  /-- The file system. -/
  fs : FsState
  /-- The addresses to which the kernel has stored a byte through a pointer of the user. -/
  stores : List Word

/-- Code of a system call. -/
abbrev Sys (α : Type) : Type := Prog Caller Stop α

namespace Caller

/-! ### Memory -/

/-- `*(int*)a`. -/
def word (u : Caller) (a : Word) : Word :=
  BitVec.ofNat 32 (LittleEndian.decode [u.mem a, u.mem (a + 1), u.mem (a + 2), u.mem (a + 3)])

/-- Store a byte. -/
@[simps -fullyApplied]
def store (u : Caller) (a : Word) (b : Byte) : Caller :=
  { u with mem := Function.update u.mem a b, stores := u.stores ++ [a] }

/-- Store some bytes, as `memmove` does. -/
def storeBytes (u : Caller) (a : Word) : List Byte → Caller
  | [] => u
  | b :: bs => (u.store a b).storeBytes (a + 1) bs

/-- Store an `int`, a `uint` or a pointer. -/
def storeInt (u : Caller) (a w : Word) : Caller := u.storeBytes a (LittleEndian.encode 4 w.toNat)

/-- Store a `short`. -/
def storeShort (u : Caller) (a : Word) (w : BitVec 16) : Caller :=
  u.storeBytes a (LittleEndian.encode 2 w.toNat)

/-! ### Arguments -/

/-- Fetch the int at `addr` from the current process. -/
def fetchint (u : Caller) (addr : Word) : Option Word :=
  if u.sz ≤ addr ∨ u.sz < addr + 4 then none else some (u.word addr)

/-- The loop of `fetchstr` from `s`, with `n` bytes left before `ep`. It returns how many bytes it has passed
when it comes to a 0. -/
def scanStr (u : Caller) (s : Word) : ℕ → Option ℕ
  | 0 => none
  | n + 1 => if u.mem s = 0 then some 0 else (u.scanStr (s + 1) n).map (· + 1)

/-- Fetch the nul-terminated string at `addr` from the current process. It returns the length of the string,
not including nul. -/
def fetchstr (u : Caller) (addr : Word) : Option ℕ :=
  if u.sz ≤ addr then none else u.scanStr addr (u.sz.toNat - addr.toNat)

/-- Fetch the nth 32-bit system call argument. -/
def argint (u : Caller) (n : ℕ) : Option Word := u.fetchint (u.esp + 4 + 4 * BitVec.ofNat 32 n)

/-- Fetch the nth word-sized system call argument as a pointer to a block of memory of `size` bytes. Check
that the pointer lies within the process address space. -/
def argptr (u : Caller) (n : ℕ) (size : Word) : Option Word := do
  let i ← u.argint n
  if size.toInt < 0 ∨ u.sz ≤ i ∨ u.sz < i + size then none else some i

/-- Fetch the nth word-sized system call argument as a file descriptor and return the corresponding
`struct file`. -/
def argfd (u : Caller) (n : ℕ) : Option ℕ := do
  let fd ← u.argint n
  if fd.toInt < 0 ∨ NOFILE ≤ fd.toInt then none else u.ofile fd.toNat

/-- The block of `size` bytes at `p` belongs to the process. -/
def Inside (u : Caller) (p : Word) (size : ℕ) : Prop :=
  p.toNat < u.sz.toNat ∧ p.toNat + size ≤ u.sz.toNat

instance (u : Caller) (p : Word) (size : ℕ) : Decidable (u.Inside p size) :=
  inferInstanceAs (Decidable (_ ∧ _))

variable {n : ℕ}

/-- The check of `argptr` is exact. -/
theorem argptr_eq_some {u : Caller} (hsz : u.sz.toNat < KERNBASE) {size p : Word} : u.argptr n size = some p ↔
      u.argint n = some p ∧ 0 ≤ size.toInt ∧ u.Inside p size.toNat := by
  unfold argptr
  cases hi : u.argint n with
  | none => exact ⟨nofun, nofun⟩
  | some i =>
    have hK : KERNBASE = 2147483648 := rfl
    have hcheck : (size.toInt < 0 ∨ u.sz ≤ i ∨ u.sz < i + size) ↔
        ¬(0 ≤ size.toInt ∧ u.Inside i size.toNat) := by
      have hlt := size.isLt
      have hint := BitVec.toInt_eq_toNat_cond size
      rw [BitVec.le_def, BitVec.lt_def, BitVec.toNat_add, Inside]
      split at hint
      · omega
      · omega
    show (if _ then none else some i) = some p ↔ _
    rw [if_congr hcheck rfl rfl]
    by_cases h : 0 ≤ size.toInt ∧ u.Inside i size.toNat
    · rw [if_neg (not_not.2 h)]
      constructor
      · intro heq
        obtain rfl := Option.some.inj heq
        exact ⟨rfl, h⟩
      · intro heq
        exact heq.1
    · rw [if_pos h]
      refine ⟨nofun, fun heq ↦ ?_⟩
      obtain rfl := Option.some.inj heq.1
      exact absurd heq.2 h

/-- The check of `fetchint` is exact. -/
theorem inside_of_fetchint {u : Caller} (hsz : u.sz.toNat < KERNBASE) {addr w : Word}
    (h : u.fetchint addr = some w) : u.Inside addr 4 := by
  have hK : KERNBASE = 2147483648 := rfl
  rw [fetchint] at h
  split at h
  · cases h
  next hcheck =>
    have hfour : (4 : Word).toNat = 4 := rfl
    rw [BitVec.le_def, BitVec.lt_def, BitVec.toNat_add, hfour] at hcheck
    rw [Inside]
    omega

theorem scanStr_lt {u : Caller} {s : Word} {k : ℕ} (h : u.scanStr s n = some k) : k < n := by
  induction n generalizing s k with
  | zero => cases h
  | succ n ih =>
    rw [scanStr] at h
    split at h
    · obtain rfl := Option.some.inj h
      exact Nat.succ_pos n
    · obtain ⟨j, hj, rfl⟩ := Option.map_eq_some_iff.1 h
      exact Nat.succ_lt_succ (ih hj)

/-- The string and its nul belong to the process. -/
theorem inside_of_fetchstr {u : Caller} {addr : Word} (h : u.fetchstr addr = some n) :
    u.Inside addr (n + 1) := by
  rw [fetchstr] at h
  split at h
  · cases h
  next hcheck =>
    have hlt := scanStr_lt h
    rw [Inside]
    omega

/-! ### What is stored -/

/-- The kernel has stored some bytes, all of them in `A`. -/
structure Wrote (u u' : Caller) (A : Word → Prop) : Prop where
  sz : u'.sz = u.sz
  stores : ∃ l, u'.stores = u.stores ++ l ∧ ∀ a ∈ l, A a
  mem : ∀ a, ¬A a → u'.mem a = u.mem a

variable {u u' u'' : Caller} {A B : Word → Prop}

theorem Wrote.refl (u : Caller) (A : Word → Prop) : Wrote u u A :=
  ⟨rfl, ⟨[], (List.append_nil _).symm, nofun⟩, fun _ _ ↦ rfl⟩

theorem Wrote.trans (h : Wrote u u' A) (h' : Wrote u' u'' A) : Wrote u u'' A := by
  obtain ⟨l, hl, hA⟩ := h.stores
  obtain ⟨l', hl', hA'⟩ := h'.stores
  refine ⟨h'.sz.trans h.sz, ⟨l ++ l', ?_, ?_⟩, fun a ha ↦ (h'.mem a ha).trans (h.mem a ha)⟩
  · rw [hl', hl, List.append_assoc]
  · intro a ha
    rcases List.mem_append.1 ha with ha | ha
    · exact hA a ha
    · exact hA' a ha

theorem Wrote.mono (h : Wrote u u' A) (hAB : ∀ a, A a → B a) : Wrote u u' B := by
  obtain ⟨l, hl, hA⟩ := h.stores
  exact ⟨h.sz, ⟨l, hl, fun a ha ↦ hAB a (hA a ha)⟩, fun a ha ↦ h.mem a fun ha' ↦ ha (hAB a ha')⟩

/-- The block of `n` bytes at `a`, which may wrap around. -/
def Range (a : Word) (n : ℕ) (x : Word) : Prop := ∃ i < n, x = a + BitVec.ofNat 32 i

theorem storeBytes_wrote (u : Caller) (a : Word) (bs : List Byte) :
    Wrote u (u.storeBytes a bs) (Range a bs.length) := by
  induction bs generalizing u a with
  | nil => exact .refl u _
  | cons b bs ih =>
    have hfirst : Wrote u (u.store a b) (Range a (b :: bs).length) := by
      have ha : Range a (b :: bs).length a :=
        ⟨0, Nat.succ_pos _, (BitVec.add_zero a).symm⟩
      refine ⟨rfl, ⟨[a], rfl, ?_⟩, fun x hx ↦ ?_⟩
      · intro x hx
        rw [List.mem_singleton.1 hx]
        exact ha
      · refine Function.update_of_ne ?_ ..
        rintro rfl
        exact hx ha
    refine hfirst.trans ((ih _ _).mono ?_)
    rintro x ⟨i, hi, rfl⟩
    refine ⟨i + 1, Nat.succ_lt_succ hi, ?_⟩
    rw [Nat.add_comm i 1, BitVec.ofNat_add, ← BitVec.add_assoc]
    rfl

theorem storeInt_wrote (u : Caller) (a w : Word) : Wrote u (u.storeInt a w) (Range a 4) := by
  have h := u.storeBytes_wrote a (LittleEndian.encode 4 w.toNat)
  rwa [LittleEndian.length_encode] at h

theorem storeShort_wrote (u : Caller) (a : Word) (w : BitVec 16) :
    Wrote u (u.storeShort a w) (Range a 2) := by
  have h := u.storeBytes_wrote a (LittleEndian.encode 2 w.toNat)
  rwa [LittleEndian.length_encode] at h

/-- A part of a block that does not wrap around. -/
theorem Range.mono {p x : Word} {o m : ℕ} (h : Range (p + BitVec.ofNat 32 o) n x) (hle : o + n ≤ m) :
    Range p m x := by
  obtain ⟨i, hi, rfl⟩ := h
  refine ⟨o + i, by omega, ?_⟩
  rw [BitVec.ofNat_add, BitVec.add_assoc]

/-- An address of a block that belongs to the process. -/
theorem Inside.lt {p x : Word} (h : u.Inside p n) (hx : Range p n x) : x < u.sz := by
  obtain ⟨i, hi, rfl⟩ := hx
  have hlt := u.sz.isLt
  obtain ⟨-, hle⟩ := h
  rw [BitVec.lt_def, BitVec.toNat_add, BitVec.toNat_ofNat]
  omega

end Caller

end Xv6
