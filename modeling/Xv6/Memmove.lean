import Mathlib.Algebra.Group.Nat.Defs
import Mathlib.Data.Nat.Notation
import Mathlib.Logic.Function.Basic

/-!
# The two implementations of `memmove`

`memmove` of `string.c`, which the kernel uses, and `memmove` of `ulib.c`, which user programs use. Memory is a
function of the address, and addresses wrap around. The kernel copies backwards when the destination begins within
the source. The user library always copies forwards, so that it reads bytes it has written itself
(`memmove_agree_iff`).
-/

namespace Xv6

namespace Memmove

open Function

/-- The contents of memory. -/
abbrev Memory : Type := BitVec 32 → BitVec 8

/-- `while(n-- > 0) *d++ = *s++;`. -/
def forwards : ℕ → Memory → BitVec 32 → BitVec 32 → Memory
  | 0, m, _, _ => m
  | n + 1, m, d, s => forwards n (update m d (m s)) (d + 1) (s + 1)

/-- `while(n-- > 0) *--d = *--s;`. -/
def backwards : ℕ → Memory → BitVec 32 → BitVec 32 → Memory
  | 0, m, _, _ => m
  | n + 1, m, d, s => backwards n (update m (d - 1) (m (s - 1))) (d - 1) (s - 1)

/-- `memmove` of `string.c`. -/
def kernelMemmove (m : Memory) (dst src n : BitVec 32) : Memory :=
  if src < dst ∧ src + n > dst then
    backwards n.toNat m (dst + n) (src + n)
  else
    forwards n.toNat m dst src

/-- `memmove` of `ulib.c`. Its `n` is an `int`. -/
def userMemmove (m : Memory) (dst src n : BitVec 32) : Memory := forwards n.toInt.toNat m dst src

/-- The destination holds what was in the source, and all else is unchanged. -/
def moved (n : ℕ) (m : Memory) (dst src : BitVec 32) : Memory :=
  fun a ↦ if (a - dst).toNat < n then m (src + (a - dst)) else m a

/-- Where the destination begins within the source, the bytes there are those of the source. Otherwise this says
nothing. -/
def Repeats (n : ℕ) (m : Memory) (dst src : BitVec 32) : Prop :=
  ∀ i, i + (dst - src).toNat < n → m (dst + BitVec.ofNat 32 i) = m (src + BitVec.ofNat 32 i)

/-! ### Forwards -/

section

variable {n k : ℕ} {m : Memory} {d s : BitVec 32}

/-- Copying forwards does not touch what is outside of the destination. -/
theorem forwards_of_le (hn : n < 2 ^ 32) {a : BitVec 32} (ha : n ≤ (a - d).toNat) : forwards n m d s a = m a := by
  induction n generalizing m d s with
  | zero => rfl
  | succ n ih => rw [forwards, ih (by omega) (by bv_omega), update_of_ne (by bv_omega)]

theorem forwards_first (hn : n + 1 < 2 ^ 32) : forwards (n + 1) m d s d = m s := by
  rw [forwards, forwards_of_le (by omega) (by bv_omega), update_self]

/-- The bytes before the destination are copied. -/
theorem forwards_of_lt (hn : n < 2 ^ 32) (hk : k < n) (hd : k < (d - s).toNat) :
    forwards n m d s (d + BitVec.ofNat 32 k) = m (s + BitVec.ofNat 32 k) := by
  induction n generalizing m d s k with
  | zero => omega
  | succ n ih =>
    cases k with
    | zero => rw [BitVec.add_zero, BitVec.add_zero, forwards_first hn]
    | succ k =>
      have h := ih (m := update m d (m s)) (d := d + 1) (s := s + 1) (k := k) (by omega) (by omega) (by bv_omega)
      rw [update_of_ne (by bv_omega)] at h
      rw [forwards, show d + BitVec.ofNat 32 (k + 1) = d + 1 + BitVec.ofNat 32 k by bv_omega, h]
      congr 1
      bv_omega

/-- The bytes from the destination on have been written before they are read. -/
theorem forwards_repeats (hn : n < 2 ^ 32) (hk : k + (d - s).toNat < n) :
    forwards n m d s (d + BitVec.ofNat 32 (k + (d - s).toNat)) = forwards n m d s (d + BitVec.ofNat 32 k) := by
  rcases Nat.eq_zero_or_pos (d - s).toNat with h0 | hpos
  · rw [h0, Nat.add_zero]
  · induction n generalizing m d s k with
    | zero => omega
    | succ n ih =>
      cases k with
      | zero =>
        have h := forwards_of_lt (m := update m d (m s)) (d := d + 1) (s := s + 1) (k := (d - s).toNat - 1)
          (n := n) (by omega) (by omega) (by bv_omega)
        rw [BitVec.add_zero, forwards_first hn, forwards,
          show d + BitVec.ofNat 32 (0 + (d - s).toNat) = d + 1 + BitVec.ofNat 32 ((d - s).toNat - 1) by bv_omega, h,
          show s + 1 + BitVec.ofNat 32 ((d - s).toNat - 1) = d by bv_omega, update_self]
      | succ k =>
        have hsub : (d + 1) - (s + 1) = d - s := by bv_omega
        have h := ih (m := update m d (m s)) (d := d + 1) (s := s + 1) (k := k) (by omega) (by rw [hsub]; omega)
          (by rw [hsub]; exact hpos)
        rw [forwards, show d + BitVec.ofNat 32 (k + 1) = d + 1 + BitVec.ofNat 32 k by bv_omega, ← h]
        congr 1
        bv_omega

/-- Copying forwards moves the bytes exactly if it does not matter that some are read after they have been
written. -/
theorem forwards_eq_moved_iff (hn : n < 2 ^ 32) : forwards n m d s = moved n m d s ↔ Repeats n m d s := by
  constructor
  · intro h i hi
    have hrep := forwards_repeats (m := m) hn hi
    rw [h, moved, moved, if_pos (by bv_omega), if_pos (by bv_omega)] at hrep
    rw [show s + (d + BitVec.ofNat 32 i - d) = s + BitVec.ofNat 32 i by bv_omega,
      show s + (d + BitVec.ofNat 32 (i + (d - s).toNat) - d) = d + BitVec.ofNat 32 i by bv_omega] at hrep
    exact hrep
  · intro h
    induction n generalizing m d s with
    | zero =>
      funext a
      rw [forwards, moved, if_neg (Nat.not_lt_zero _)]
    | succ n ih =>
      have hsub : (d + 1) - (s + 1) = d - s := by bv_omega
      -- If the destination is within the source, then the byte is there already.
      have hsame : (d - s).toNat < n + 1 → update m d (m s) = m := by
        intro hlt
        have h0 := h 0 (by omega)
        rw [BitVec.add_zero, BitVec.add_zero] at h0
        rw [← h0, update_eq_self]
      have hrep : Repeats n (update m d (m s)) (d + 1) (s + 1) := by
        intro i hi
        rw [hsub] at hi
        rw [hsame (by omega), show d + 1 + BitVec.ofNat 32 i = d + BitVec.ofNat 32 (i + 1) by bv_omega,
          show s + 1 + BitVec.ofNat 32 i = s + BitVec.ofNat 32 (i + 1) by bv_omega]
        exact h (i + 1) (by omega)
      rw [forwards, ih (by omega) hrep]
      funext a
      rw [moved, moved]
      rcases eq_or_ne a d with rfl | hne
      · rw [if_neg (by bv_omega), if_pos (by bv_omega), update_self, BitVec.sub_self, BitVec.add_zero]
      · rw [update_of_ne hne, show s + 1 + (a - (d + 1)) = s + (a - d) by bv_omega]
        by_cases ha : (a - d).toNat < n + 1
        · rw [if_pos (by bv_omega), if_pos ha]
          rcases eq_or_ne (s + (a - d)) d with heq | hne'
          · rw [hsame (by bv_omega)]
          · rw [update_of_ne hne']
        · rw [if_neg (by bv_omega), if_neg ha]

/-- Copying backwards moves the bytes if the destination is not before the source. -/
theorem backwards_eq_moved (hd : d.toNat + n ≤ 2 ^ 32) (hs : s.toNat + n ≤ 2 ^ 32) (hlt : s < d) :
    backwards n m (d + BitVec.ofNat 32 n) (s + BitVec.ofNat 32 n) = moved n m d s := by
  induction n generalizing m with
  | zero =>
    funext a
    rw [backwards, moved, if_neg (Nat.not_lt_zero _)]
  | succ n ih =>
    rw [backwards, show d + BitVec.ofNat 32 (n + 1) - 1 = d + BitVec.ofNat 32 n by bv_omega,
      show s + BitVec.ofNat 32 (n + 1) - 1 = s + BitVec.ofNat 32 n by bv_omega, ih (by omega) (by omega)]
    funext a
    rw [moved, moved]
    rcases eq_or_ne a (d + BitVec.ofNat 32 n) with rfl | hne
    · rw [if_neg (by bv_omega), if_pos (by bv_omega), update_self,
        show s + (d + BitVec.ofNat 32 n - d) = s + BitVec.ofNat 32 n by bv_omega]
    · rw [update_of_ne hne]
      by_cases ha : (a - d).toNat < n
      · rw [if_pos ha, if_pos (by omega), update_of_ne (by bv_omega)]
      · rw [if_neg ha, if_neg (by bv_omega)]

end

/-! ### The two implementations -/

section

variable {dst src n : BitVec 32} (m : Memory)

/-- The kernel moves the bytes. -/
theorem kernelMemmove_eq (hdst : dst.toNat + n.toNat ≤ 2 ^ 32) (hsrc : src.toNat + n.toNat ≤ 2 ^ 32) :
    kernelMemmove m dst src n = moved n.toNat m dst src := by
  rw [kernelMemmove]
  split
  next h =>
    have hback := backwards_eq_moved (m := m) hdst hsrc h.1
    rwa [BitVec.ofNat_toNat, BitVec.setWidth_eq] at hback
  next h =>
    rw [forwards_eq_moved_iff n.isLt]
    intro i hi
    -- The destination is not within the source, unless the two are the same.
    have heq : dst = src := by bv_omega
    rw [heq]

/-- **The user library agrees with the kernel**, and both move the bytes, exactly if the destination does not begin
within the source or the bytes of the source repeat themselves at that distance. -/
theorem memmove_agree_iff (hn : n.toNat < 2 ^ 31) (hdst : dst.toNat + n.toNat ≤ 2 ^ 32)
    (hsrc : src.toNat + n.toNat ≤ 2 ^ 32) :
    (userMemmove m dst src n = kernelMemmove m dst src n ∧ kernelMemmove m dst src n = moved n.toNat m dst src) ↔
      Repeats n.toNat m dst src := by
  have hint : n.toInt.toNat = n.toNat := by rw [BitVec.toInt_eq_toNat_of_lt (by omega), Int.toNat_natCast]
  rw [userMemmove, hint, kernelMemmove_eq m hdst hsrc, forwards_eq_moved_iff n.isLt]
  exact and_iff_left rfl

end

/-- A destination that begins before the source, as in `grep`, which moves the rest of its buffer to the front. -/
theorem memmove_agree_iff_toFront :
    userMemmove (BitVec.setWidth 8) 0 1 5 = kernelMemmove (BitVec.setWidth 8) 0 1 5 ∧
      kernelMemmove (BitVec.setWidth 8) 0 1 5 = moved 5 (BitVec.setWidth 8) 0 1 := by
  refine (memmove_agree_iff _ (by decide) (by decide) (by decide)).2 ?_
  intro i hi
  exact absurd hi (by change ¬i + 4294967295 < 5; omega)

/-- Moving two bytes up by one. The user library copies the first byte twice. -/
theorem memmove_differ :
    userMemmove (BitVec.setWidth 8) 1 0 2 ≠ kernelMemmove (BitVec.setWidth 8) 1 0 2 := by
  intro h
  have h2 : userMemmove (BitVec.setWidth 8) 1 0 2 2 = kernelMemmove (BitVec.setWidth 8) 1 0 2 2 := by rw [h]
  revert h2
  decide

end Memmove

end Xv6
