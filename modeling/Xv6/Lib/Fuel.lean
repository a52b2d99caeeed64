import Mathlib.Data.Nat.Notation

/-!
# Computations with fuel

A recursion whose end has to be proved is modelled by a function of the fuel that it may use, without a
result when the fuel does not suffice. `Returns x r` says that `x` comes to its end with the result `r`:
with some amount of fuel, and with any larger one.

The computations may also fail with an error of type `ε`; such a failure is a result like any other.
-/

namespace Xv6

/-- With enough fuel the result is `r`. -/
def Returns {ε α : Type} (x : ℕ → ExceptT ε Option α) (r : Except ε α) : Prop :=
  ∃ n, ∀ m, n ≤ m → (x m).run = some r

namespace Returns

variable {α β ε : Type}

/-- A computation that needs no fuel. -/
theorem of_forall {x : ℕ → ExceptT ε Option α} {r : Except ε α} (h : ∀ n, (x n).run = some r) :
    Returns x r :=
  ⟨0, fun m _ ↦ h m⟩

/-- A call uses one unit of fuel. -/
theorem succ {x : ℕ → ExceptT ε Option α} {r : Except ε α} (h : Returns (fun n ↦ x (n + 1)) r) :
    Returns x r := by
  obtain ⟨n, hn⟩ := h
  refine ⟨n + 1, fun m hm ↦ ?_⟩
  obtain ⟨k, rfl⟩ := Nat.exists_eq_add_of_le' (Nat.one_le_of_lt hm)
  exact hn k (Nat.le_of_succ_le_succ hm)

/-- The first of two computations returns, and the second one goes on with what it returns. -/
theorem bind_ok {x : ℕ → ExceptT ε Option α} {f : ℕ → α → ExceptT ε Option β} {a : α}
    {r : Except ε β} (hx : Returns x (.ok a)) (hf : Returns (fun n ↦ f n a) r) :
    Returns (fun n ↦ x n >>= f n) r := by
  obtain ⟨n₁, h₁⟩ := hx
  obtain ⟨n₂, h₂⟩ := hf
  refine ⟨max n₁ n₂, fun m hm ↦ ?_⟩
  have hx : x m = some (.ok a) := h₁ m (Nat.le_trans (Nat.le_max_left _ _) hm)
  show ExceptT.bind (x m) (f m) = some r
  rw [hx]
  exact h₂ m (Nat.le_trans (Nat.le_max_right _ _) hm)

/-- The first of two computations fails. -/
theorem bind_error {x : ℕ → ExceptT ε Option α} {f : ℕ → α → ExceptT ε Option β} {e : ε}
    (hx : Returns x (.error e)) : Returns (fun n ↦ x n >>= f n) (.error e) := by
  obtain ⟨n, hn⟩ := hx
  refine ⟨n, fun m hm ↦ ?_⟩
  have hx : x m = some (.error e) := hn m hm
  show ExceptT.bind (x m) (f m) = some (.error e)
  rw [hx]
  rfl

theorem unique {x : ℕ → ExceptT ε Option α} {r r' : Except ε α} (h : Returns x r) (h' : Returns x r') : r = r' := by
  obtain ⟨n, hn⟩ := h
  obtain ⟨m, hm⟩ := h'
  exact Option.some.inj ((hn _ (Nat.le_max_left n m)).symm.trans (hm _ (Nat.le_max_right n m)))

end Returns

/-- Where `x` has a result, it is the result of `y`. -/
def Extends {ε α : Type} (x y : ExceptT ε Option α) : Prop := ∀ r, x.run = some r → y.run = some r

namespace Extends

variable {α β ε : Type}

theorem refl (x : ExceptT ε Option α) : Extends x x := fun _ h ↦ h

/-- Without fuel there is no result. -/
theorem none (y : ExceptT ε Option α) : Extends (Option.none : Option (Except ε α)) y := nofun

theorem ite {p : Prop} [Decidable p] {x x' y y' : ExceptT ε Option α} (hx : Extends x x')
    (hy : Extends y y') : Extends (if p then x else y) (if p then x' else y') := by
  split
  · exact hx
  · exact hy

theorem bind {x x' : ExceptT ε Option α} {f f' : α → ExceptT ε Option β} (hx : Extends x x')
    (hf : ∀ a, Extends (f a) (f' a)) : Extends (x >>= f) (x' >>= f') := by
  intro r h
  change ExceptT.bind x f = some r at h
  show ExceptT.bind x' f' = some r
  rcases hxn : x.run with - | a
  · rw [ExceptT.bind, ExceptT.mk, show x = Option.none from hxn] at h
    cases h
  · rw [ExceptT.bind, ExceptT.mk, show x = some a from hxn] at h
    rw [ExceptT.bind, ExceptT.mk, show x' = some a from hx a hxn]
    cases a with
    | error e => exact h
    | ok a => exact hf a r h

end Extends

/-- A result with some amount of fuel is the result, if more fuel does not change it. -/
theorem Returns.eq_of_run {α ε : Type} {x : ℕ → ExceptT ε Option α} {r r' : Except ε α}
    (hr : Returns x r') (hx : ∀ n, Extends (x n) (x (n + 1))) {n : ℕ} (h : (x n).run = some r) :
    r = r' := by
  have hle : ∀ m, n ≤ m → (x m).run = some r := by
    intro m hm
    induction hm with
    | refl => exact h
    | step _ ih => exact hx _ _ ih
  obtain ⟨m, hm⟩ := hr
  have h₁ := hle (max n m) (Nat.le_max_left _ _)
  have h₂ := hm (max n m) (Nat.le_max_right _ _)
  exact Option.mem_unique h₁ h₂

end Xv6
