import Mathlib.Tactic.Common
import Mathlib.Data.List.Basic
import Mathlib.Algebra.Order.Ring.Nat

/-!
# Little-endian numbers in byte strings

`encode n x` is the low `n` bytes of `x`, least significant first, and `decode` reads a byte string
back. Decoding an encoding keeps the low `n` bytes (`decode_encode`).
-/

namespace LittleEndian

/-- The low `n` bytes of `x`, least significant byte first. -/
def encode : (n : ℕ) → ℕ → List (BitVec 8)
  | 0, _ => []
  | n + 1, x => BitVec.ofNat 8 x :: encode n (x / 256)

/-- The number a byte string denotes, least significant byte first. -/
def decode : List (BitVec 8) → ℕ
  | [] => 0
  | b :: bs => b.toNat + 256 * decode bs

@[simp]
theorem length_encode (n x : ℕ) : (encode n x).length = n := by
  induction n generalizing x with
  | zero => rfl
  | succ n ih => rw [encode, List.length_cons, ih]

/-- Decoding an encoding keeps the bytes that were written. -/
@[simp]
theorem decode_encode (n x : ℕ) : decode (encode n x) = x % 256 ^ n := by
  induction n generalizing x with
  | zero => rw [encode, decode, pow_zero, Nat.mod_one]
  | succ n ih =>
    rw [encode, decode, ih, BitVec.toNat_ofNat, pow_succ' 256 n, Nat.mod_mul]

/-- A string of zero bytes denotes zero. -/
@[simp]
theorem decode_replicate_zero (n : ℕ) : decode (List.replicate n 0#8) = 0 := by
  induction n with
  | zero => rfl
  | succ n ih => rw [List.replicate_succ, decode, ih]; rfl

end LittleEndian
