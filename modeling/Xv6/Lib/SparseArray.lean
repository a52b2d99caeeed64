import Mathlib.Tactic.Common
import Mathlib.Data.List.Basic

/-!
# Arrays with holes

A sparse array has a value at each index and a size. A patch sets the values of a range, wherever it is, and makes
the array longer if it ends behind the end. After any list of patches the value at an index is the one that was
written there last, and the old one if none was (`get_foldl_patch`). Patches one behind the other are one patch
(`patch_patch`).

An implementation keeps only the values below some limit; `AgreeBelow` compares arrays in this way.
-/

/-- A value for each index, and the number of values that count. -/
structure SparseArray (α : Type) where
  /-- The value at an index. -/
  get : ℕ → α
  /-- The end of the array. -/
  size : ℕ

namespace SparseArray

variable {α : Type} {f g h : SparseArray α} {N : ℕ}

/-- The values `src` for the range of `n` indices from `off` on. -/
structure Patch (α : Type) where
  off : ℕ
  n : ℕ
  src : ℕ → α

/-- What a patch writes at an index. -/
def Patch.value (w : Patch α) (x : ℕ) : Option α :=
  if w.off ≤ x ∧ x < w.off + w.n then some (w.src (x - w.off)) else none

/-- The array with a patch. -/
def patch (f : SparseArray α) (w : Patch α) : SparseArray α where
  get x := (w.value x).getD (f.get x)
  size := if 0 < w.n then max f.size (w.off + w.n) else f.size

/-- The values of a range, as far as the array goes. -/
def read (f : SparseArray α) (off n : ℕ) : List α :=
  (List.range (min n (f.size - off))).map fun j ↦ f.get (off + j)

/-- What has been written last at an index. -/
def lastWritten : List (Patch α) → ℕ → Option α
  | [], _ => none
  | w :: ws, x => (lastWritten ws x).or (w.value x)

theorem get_foldl_patch (f : SparseArray α) (ws : List (Patch α)) (x : ℕ) :
    (ws.foldl patch f).get x = (lastWritten ws x).getD (f.get x) := by
  induction ws generalizing f with
  | nil => rfl
  | cons w ws ih =>
    rw [List.foldl_cons, ih, lastWritten]
    cases lastWritten ws x with
    | none | some v => rfl

/-- An empty patch changes nothing. -/
theorem patch_of_empty {w : Patch α} (hw : w.n = 0) : f.patch w = f := by
  have hvalue (x : ℕ) : w.value x = none := if_neg (by omega)
  rw [patch, if_neg (by omega)]
  simp only [hvalue, Option.getD_none]

/-- A patch and the one that goes on behind it are one patch. -/
theorem patch_patch (f : SparseArray α) (off m n : ℕ) (src : ℕ → α) :
    (f.patch ⟨off, m, src⟩).patch ⟨off + m, n, fun j ↦ src (m + j)⟩ = f.patch ⟨off, m + n, src⟩ := by
  have hget (x : ℕ) : ((Patch.mk (off + m) n fun j ↦ src (m + j)).value x).getD
      (((Patch.mk off m src).value x).getD (f.get x)) =
      ((Patch.mk off (m + n) src).value x).getD (f.get x) := by
    simp only [Patch.value]
    by_cases hlow : off ≤ x ∧ x < off + m
    · rw [if_neg (by omega), if_pos hlow, if_pos (by omega)]
      rfl
    · rw [if_neg hlow]
      by_cases hhigh : off + m ≤ x ∧ x < off + m + n
      · rw [if_pos hhigh, if_pos (by omega), show m + (x - (off + m)) = x - off by omega]
        rfl
      · rw [if_neg hhigh, if_neg (by omega)]
        rfl
  simp only [patch, hget]
  congr 1
  split <;> split <;> split <;> omega

/-- Two arrays of one size with the same values at the indices below `N`. -/
def AgreeBelow (N : ℕ) (f g : SparseArray α) : Prop :=
  f.size = g.size ∧ ∀ x < N, f.get x = g.get x

theorem AgreeBelow.refl (N : ℕ) (f : SparseArray α) : AgreeBelow N f f :=
  ⟨rfl, fun _ _ ↦ rfl⟩

theorem AgreeBelow.trans (hfg : AgreeBelow N f g) (hgh : AgreeBelow N g h) : AgreeBelow N f h :=
  ⟨hfg.1.trans hgh.1, fun x hx ↦ (hfg.2 x hx).trans (hgh.2 x hx)⟩

/-- Arrays that agree still agree after the same patch. -/
theorem AgreeBelow.patch (hfg : AgreeBelow N f g) (w : Patch α) :
    AgreeBelow N (f.patch w) (g.patch w) := by
  refine ⟨?_, fun x hx ↦ ?_⟩
  · rw [SparseArray.patch, SparseArray.patch, hfg.1]
  · show (w.value x).getD (f.get x) = (w.value x).getD (g.get x)
    rw [hfg.2 x hx]

end SparseArray
