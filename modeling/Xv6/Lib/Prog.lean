import Mathlib.Tactic.Common
import Mathlib.Data.List.Basic
import Mathlib.Order.Defs.Unbundled

/-!
# Programs over a state that may stop

`Prog σ ε α` is a program that reads and rewrites a state `σ`, and either returns a value in `α`
or stops for a reason in `ε`. A stopped program has no final state: this is how a kernel panic
behaves, and it is what distinguishes `Prog` from a program that returns an error code.

A specification is a triple: `m.Sat s Q E` says that `m`, started in `s`, either returns a value and
a state satisfying `Q`, or stops for a reason satisfying `E`. It says both what a program achieves
and how it can fail, so that a program that always stops satisfies no interesting `E`. Programs are
verified with the rules for `Sat` and not by unfolding: `Sat.bind` for a sequence, `Sat.forEach` for
a loop over a list, and one rule for each atom.

What a program leaves alone is a relation between the state it starts in and the state it returns
in, whatever that state is: `m.Keeps r`. For a preorder `r` this passes from the parts of a program
to the whole.

What a program does not look at is a change `φ` of the state that it commutes with: `m.Commutes φ`. The
program then does the same in the changed state, stops for the same reasons, and the change is still
there at the end.
-/

/-- A program over the state `σ` that returns an `α` or stops with an `ε`. -/
structure Prog (σ ε α : Type) : Type where
  /-- Run the program from a state. -/
  run : σ → Except ε (α × σ)

namespace Prog

variable {σ ε α β : Type}

instance : Monad (Prog σ ε) where
  pure a := ⟨fun s ↦ .ok (a, s)⟩
  bind x f := ⟨fun s ↦
    match x.run s with
    | .ok (a, s') => (f a).run s'
    | .error e => .error e⟩

/-- Read the state. -/
def get : Prog σ ε σ := ⟨fun s ↦ .ok (s, s)⟩

/-- Rewrite the state. -/
def modify (f : σ → σ) : Prog σ ε Unit := ⟨fun s ↦ .ok ((), f s)⟩

/-- Stop. -/
def fail (e : ε) : Prog σ ε α := ⟨fun _ ↦ .error e⟩

/-- Run a program for each member of a list, in order. -/
def forEach : List β → (β → Prog σ ε Unit) → Prog σ ε Unit
  | [], _ => pure ()
  | b :: l, f => do
    f b
    forEach l f

/-! ### The atoms -/

theorem run_get {s : σ} : (get : Prog σ ε σ).run s = .ok (s, s) := rfl

theorem run_bind_of_ok {x : Prog σ ε α} {f : α → Prog σ ε β} {s t : σ} {a : α}
    (h : x.run s = .ok (a, t)) : (x >>= f).run s = (f a).run t := by
  show (match x.run s with | .ok (a, t) => (f a).run t | .error e => .error e) = _
  rw [h]

theorem run_bind_of_error {x : Prog σ ε α} {f : α → Prog σ ε β} {s : σ} {e : ε}
    (h : x.run s = .error e) : (x >>= f).run s = .error e := by
  show (match x.run s with | .ok (a, t) => (f a).run t | .error e => .error e) = _
  rw [h]

theorem run_bind_congr {x y : Prog σ ε α} {s : σ} (h : x.run s = y.run s) (f : α → Prog σ ε β) :
    (x >>= f).run s = (y >>= f).run s := by
  show (match x.run s with | .ok (a, t) => (f a).run t | .error e => .error e) = _
  rw [h]
  rfl

theorem bind_pure (m : Prog σ ε α) : (m >>= pure) = m := by
  cases m with
  | mk run =>
    show (⟨fun s ↦ match run s with | .ok (a, t) => .ok (a, t) | .error e => .error e⟩ :
      Prog σ ε α) = ⟨run⟩
    congr 1
    funext s
    split
    next h => exact h.symm
    next h => exact h.symm

theorem pure_bind (a : α) (f : α → Prog σ ε β) : pure a >>= f = f a := rfl

theorem bind_assoc {γ : Type} (x : Prog σ ε α) (f : α → Prog σ ε β) (g : β → Prog σ ε γ) :
    x >>= f >>= g = x >>= fun a ↦ f a >>= g := by
  refine congrArg mk (funext fun s ↦ ?_)
  cases h : x.run s with
  | error e => rw [run_bind_of_error h]
  | ok p =>
    rw [run_bind_of_ok h]
    rfl

/-! ### Triples -/

/-- Started in `s`, the program returns with `Q` or stops with `E`. -/
def Sat (m : Prog σ ε α) (s : σ) (Q : α → σ → Prop) (E : ε → Prop) : Prop :=
  match m.run s with
  | .ok (a, t) => Q a t
  | .error e => E e

variable {Q Q' : α → σ → Prop} {E E' : ε → Prop} {s t : σ} {m : Prog σ ε α}

theorem sat_iff : m.Sat s Q E ↔
    (∀ a t, m.run s = .ok (a, t) → Q a t) ∧ ∀ e, m.run s = .error e → E e := by
  unfold Sat
  cases m.run s with
  | error e => simp
  | ok p =>
    obtain ⟨a, t⟩ := p
    simp

theorem Sat.of_ok {a : α} (h : m.Sat s Q E) (hrun : m.run s = .ok (a, t)) : Q a t :=
  (sat_iff.1 h).1 a t hrun

theorem Sat.of_error {e : ε} (h : m.Sat s Q E) (hrun : m.run s = .error e) : E e :=
  (sat_iff.1 h).2 e hrun

/-- A program that stops for no reason returns. -/
theorem Sat.exists_ok (h : m.Sat s Q fun _ ↦ False) : ∃ a t, m.run s = .ok (a, t) ∧ Q a t := by
  unfold Sat at h
  split at h
  next a t hrun => exact ⟨a, t, hrun, h⟩
  · exact h.elim

/-- Run from `s`, the program returns and the check succeeds. -/
def returns (m : Prog σ ε α) (s : σ) (f : α → σ → Bool) : Bool :=
  match m.run s with
  | .ok (a, t) => f a t
  | .error _ => false

/-- A program that has been run. -/
theorem sat_of_returns {f : α → σ → Bool} (h : m.returns s f = true) :
    m.Sat s (fun a t ↦ f a t = true) fun _ ↦ False := by
  unfold Sat
  unfold returns at h
  split at h
  · exact h
  · cases h

/-- Run from `s`, the program stops with `e`. -/
def stops [DecidableEq ε] (m : Prog σ ε α) (s : σ) (e : ε) : Bool :=
  match m.run s with
  | .ok _ => false
  | .error e' => e' = e

theorem run_of_stops [DecidableEq ε] {e : ε} (h : m.stops s e = true) : m.run s = .error e := by
  unfold stops at h
  split at h
  · cases h
  next e' hrun => rw [hrun, of_decide_eq_true h]

/-- A program that cannot return, and can stop for one reason only. -/
theorem Sat.eq_error {e : ε} (h : m.Sat s (fun _ _ ↦ False) fun e' ↦ e' = e) : m.run s = .error e := by
  unfold Sat at h
  split at h
  · exact h.elim
  next e' hrun => rw [hrun, h]

/-- The state in which a program returns. -/
def exec (m : Prog σ ε α) (s : σ) : Except ε σ :=
  match m.run s with
  | .ok (_, t) => .ok t
  | .error e => .error e

theorem Sat.exec (h : m.Sat s Q E) :
    (∃ a t, m.exec s = .ok t ∧ Q a t) ∨ ∃ e, m.exec s = .error e ∧ E e := by
  unfold Sat at h
  unfold Prog.exec
  split at h
  next a t hrun => exact .inl ⟨a, t, rfl, h⟩
  next e hrun => exact .inr ⟨e, rfl, h⟩

theorem Sat.of_exec_ok (h : m.Sat s Q E) (hexec : m.exec s = .ok t) : ∃ a, Q a t := by
  rcases h.exec with ⟨a, u, hu, hQ⟩ | ⟨e, he, -⟩
  · rw [hexec] at hu
    exact ⟨a, Except.ok.inj hu ▸ hQ⟩
  · rw [hexec] at he
    cases he

theorem Sat.of_exec_error {e : ε} (h : m.Sat s Q E) (hexec : m.exec s = .error e) : E e := by
  rcases h.exec with ⟨a, u, hu, -⟩ | ⟨e', he, hE⟩
  · rw [hexec] at hu
    cases hu
  · rw [hexec] at he
    exact Except.error.inj he ▸ hE

/-- Every program returns something or stops. -/
theorem sat_true (m : Prog σ ε α) (s : σ) : m.Sat s (fun _ _ ↦ True) fun _ ↦ True := by
  unfold Sat
  split <;> trivial

theorem Sat.mono (h : m.Sat s Q E) (hQ : ∀ a t, Q a t → Q' a t) (hE : ∀ e, E e → E' e) :
    m.Sat s Q' E' := by
  obtain ⟨hok, herr⟩ := sat_iff.1 h
  exact sat_iff.2 ⟨fun a t hrun ↦ hQ a t (hok a t hrun), fun e hrun ↦ hE e (herr e hrun)⟩

theorem Sat.and (h : m.Sat s Q E) (h' : m.Sat s Q' E') :
    m.Sat s (fun a t ↦ Q a t ∧ Q' a t) fun e ↦ E e ∧ E' e := by
  obtain ⟨hok, herr⟩ := sat_iff.1 h
  obtain ⟨hok', herr'⟩ := sat_iff.1 h'
  exact sat_iff.2 ⟨fun a t hrun ↦ ⟨hok a t hrun, hok' a t hrun⟩,
    fun e hrun ↦ ⟨herr e hrun, herr' e hrun⟩⟩

theorem Sat.imp (h : m.Sat s Q E) (hQ : ∀ a t, Q a t → Q' a t) : m.Sat s Q' E :=
  h.mono hQ fun _ he ↦ he

theorem Sat.imp_error (h : m.Sat s Q E) (hE : ∀ e, E e → E' e) : m.Sat s Q E' :=
  h.mono (fun _ _ hQ ↦ hQ) hE

@[simp]
theorem sat_pure {a : α} : (pure a : Prog σ ε α).Sat s Q E ↔ Q a s := Iff.rfl

@[simp]
theorem sat_modify {f : σ → σ} {Q : Unit → σ → Prop} :
    (modify f : Prog σ ε Unit).Sat s Q E ↔ Q () (f s) := Iff.rfl

@[simp]
theorem sat_fail {e : ε} : (fail e : Prog σ ε α).Sat s Q E ↔ E e := Iff.rfl

/-- The rule for a sequence. -/
theorem sat_bind {x : Prog σ ε β} {f : β → Prog σ ε α} :
    (x >>= f).Sat s Q E ↔ x.Sat s (fun b t ↦ (f b).Sat t Q E) E := by
  unfold Sat
  show (match (match x.run s with | .ok (b, t) => (f b).run t | .error e => .error e) with
    | .ok (a, t) => Q a t
    | .error e => E e) ↔ _
  cases x.run s with
  | error e | ok p => rfl

theorem Sat.bind {x : Prog σ ε β} {f : β → Prog σ ε α} {P : β → σ → Prop} (hx : x.Sat s P E)
    (hf : ∀ b t, P b t → (f b).Sat t Q E) : (x >>= f).Sat s Q E :=
  sat_bind.2 (hx.imp hf)

/-- The rule for a sequence whose first part always returns. -/
theorem Sat.bind_returns {x : Prog σ ε β} {f : β → Prog σ ε α} {P : β → σ → Prop}
    (hx : x.Sat s P fun _ ↦ False) (hf : ∀ b t, P b t → (f b).Sat t Q E) : (x >>= f).Sat s Q E :=
  (hx.imp_error fun _ he ↦ he.elim).bind hf

/-- The rule for a sequence if it does not matter how it stops. -/
theorem Sat.bind_true {x : Prog σ ε β} {f : β → Prog σ ε α} {P : β → σ → Prop} (hx : x.Sat s P E)
    (hf : ∀ b t, P b t → (f b).Sat t Q fun _ ↦ True) : (x >>= f).Sat s Q fun _ ↦ True :=
  (hx.imp_error fun _ _ ↦ trivial).bind hf

@[simp]
theorem sat_get_bind {f : σ → Prog σ ε α} :
    ((get : Prog σ ε σ) >>= f).Sat s Q E ↔ (f s).Sat s Q E := Iff.rfl

@[simp]
theorem sat_modify_bind {g : σ → σ} {f : Unit → Prog σ ε α} :
    ((modify g : Prog σ ε Unit) >>= f).Sat s Q E ↔ (f ()).Sat (g s) Q E := Iff.rfl

/-! ### Programs on a part of the state -/

/-- A program on a part of the state, found by `get` and put back by `put`. -/
def zoom {τ : Type} (get : σ → τ) (put : σ → τ → σ) (m : Prog τ ε α) : Prog σ ε α := ⟨fun s ↦
  match m.run (get s) with
  | .ok (a, t) => .ok (a, put s t)
  | .error e => .error e⟩

theorem sat_zoom {τ : Type} {get : σ → τ} {put : σ → τ → σ} {m : Prog τ ε α} :
    (zoom get put m).Sat s Q E ↔ m.Sat (get s) (fun a t ↦ Q a (put s t)) E := by
  unfold Sat
  show (match (match m.run (get s) with
      | .ok (a, t) => Except.ok (a, put s t)
      | .error e => .error e) with
    | .ok (a, t) => Q a t
    | .error e => E e) ↔ _
  cases m.run (get s) with
  | error e | ok p => rfl

/-! ### Loops over a list -/

theorem forEach_cons (b : β) (l : List β) (f : β → Prog σ ε Unit) :
    forEach (b :: l) f = (f b >>= fun _ ↦ forEach l f) := rfl

theorem run_forEach_of_ok {f : β → Prog σ ε Unit} {b : β} (l : List β) (h : (f b).run s = .ok ((), t)) :
    (forEach (b :: l) f).run s = (forEach l f).run t := by
  rw [forEach_cons, run_bind_of_ok h]

theorem run_forEach_of_error {f : β → Prog σ ε Unit} {b : β} (l : List β) {e : ε} (h : (f b).run s = .error e) :
    (forEach (b :: l) f).run s = .error e := by
  rw [forEach_cons, run_bind_of_error h]

/-- The rule for a loop: `P l` is what holds when the members `l` of the list are still to come. -/
theorem Sat.forEach {f : β → Prog σ ε Unit} {P : List β → σ → Prop} {l : List β} (h : P l s)
    (step : ∀ b l t, P (b :: l) t → (f b).Sat t (fun _ u ↦ P l u) E) :
    (Prog.forEach l f).Sat s (fun _ t ↦ P [] t) E := by
  induction l generalizing s with
  | nil => exact h
  | cons b l ih =>
    exact (step b l s h).bind fun _ t ht ↦ ih ht

/-! ### What a program leaves alone -/

/-- Wherever it starts, when the program returns then the two states are related. -/
def Keeps (r : σ → σ → Prop) (m : Prog σ ε α) : Prop :=
  ∀ s, m.Sat s (fun _ t ↦ r s t) fun _ ↦ True

namespace Keeps

variable {r : σ → σ → Prop}

theorem fail (e : ε) : (Prog.fail e : Prog σ ε α).Keeps r := fun _ ↦ trivial

theorem ite {c : Prop} [Decidable c] {x y : Prog σ ε α} (hx : x.Keeps r) (hy : y.Keeps r) :
    (if c then x else y).Keeps r := by
  split
  · exact hx
  · exact hy

theorem get_bind {f : σ → Prog σ ε α} (hf : ∀ s, (f s).Keeps r) :
    (Prog.get >>= f : Prog σ ε α).Keeps r :=
  fun s ↦ hf s s

variable [IsPreorder σ r]

theorem pure (a : α) : (Pure.pure a : Prog σ ε α).Keeps r := fun s ↦ refl s

theorem bind {x : Prog σ ε β} {f : β → Prog σ ε α} (hx : x.Keeps r) (hf : ∀ b, (f b).Keeps r) :
    (x >>= f).Keeps r :=
  fun s ↦ (hx s).bind fun b t ht ↦ (hf b t).imp fun _ _ hu ↦ IsTrans.trans _ _ _ ht hu

end Keeps

/-! ### Two programs side by side -/

/-- The two programs, each in its own state, return the same value and related states, or they stop for the same
reason. -/
def Alike (m : Prog σ ε α) (s : σ) (m' : Prog σ ε α) (s' : σ) (R : α → σ → σ → Prop) : Prop :=
  match m.run s, m'.run s' with
  | .ok (a, t), .ok (a', t') => a = a' ∧ R a t t'
  | .error e, .error e' => e = e'
  | _, _ => False

section Alike

variable {m' : Prog σ ε α} {s' : σ} {r : α → σ → σ → Prop}

theorem Alike.pure {a : α} (h : r a s s') : (Pure.pure a : Prog σ ε α).Alike s (Pure.pure a) s' r :=
  ⟨rfl, h⟩

theorem Alike.fail (e : ε) : (Prog.fail e : Prog σ ε α).Alike s (Prog.fail e) s' r :=
  rfl

/-- The rule for two sequences. -/
theorem Alike.bind {x x' : Prog σ ε β} {f f' : β → Prog σ ε α} {q : β → σ → σ → Prop}
    (hx : x.Alike s x' s' q) (hf : ∀ b t t', q b t t' → (f b).Alike t (f' b) t' r) :
    (x >>= f).Alike s (x' >>= f') s' r := by
  unfold Alike at hx
  split at hx
  next b t b' t' hrun hrun' =>
    obtain ⟨rfl, hq⟩ := hx
    rw [Alike, run_bind_of_ok hrun, run_bind_of_ok hrun']
    exact hf b t t' hq
  next e e' hrun hrun' =>
    rw [Alike, run_bind_of_error hrun, run_bind_of_error hrun']
    exact hx
  · exact hx.elim

/-- What is known about the first program can be used for the relation. -/
theorem Alike.imp_left {q : α → σ → σ → Prop} (h : m.Alike s m' s' r) (hs : m.Sat s Q E)
    (himp : ∀ a t t', r a t t' → Q a t → q a t t') : m.Alike s m' s' q := by
  unfold Alike at h ⊢
  split at h
  next a t a' t' hrun hrun' =>
    obtain ⟨rfl, hr⟩ := h
    exact ⟨rfl, himp a t t' hr (hs.of_ok hrun)⟩
  · exact h
  · exact h.elim

end Alike

/-! ### What a program does not look at -/

/-- In the changed state the program does the same, and the change is there at the end. -/
def Commutes (φ : σ → σ) (m : Prog σ ε α) : Prop :=
  ∀ s, m.Alike s m (φ s) fun _ t t' ↦ t' = φ t

namespace Commutes

variable {φ : σ → σ}

theorem pure (a : α) : (Pure.pure a : Prog σ ε α).Commutes φ := fun _ ↦ .pure rfl

theorem fail (e : ε) : (Prog.fail e : Prog σ ε α).Commutes φ := fun _ ↦ .fail e

theorem bind {x : Prog σ ε β} {f : β → Prog σ ε α} (hx : x.Commutes φ)
    (hf : ∀ b, (f b).Commutes φ) : (x >>= f).Commutes φ :=
  fun s ↦ (hx s).bind fun b t _ ht ↦ ht ▸ hf b t

/-- A program that reads the state, but not what changes. -/
theorem get_bind {f : σ → Prog σ ε α} (hf : ∀ s, (f s).Commutes φ) (hsame : ∀ s, f (φ s) = f s) :
    (Prog.get >>= f : Prog σ ε α).Commutes φ := by
  intro s
  show (f s).Alike s (f (φ s)) (φ s) _
  rw [hsame]
  exact hf s s

theorem modify {g : σ → σ} (hg : ∀ s, g (φ s) = φ (g s)) : (Prog.modify g : Prog σ ε Unit).Commutes φ :=
  fun s ↦ ⟨rfl, hg s⟩

theorem ite {c : Prop} [Decidable c] {x y : Prog σ ε α} (hx : x.Commutes φ) (hy : y.Commutes φ) :
    (if c then x else y).Commutes φ := by
  split
  · exact hx
  · exact hy

end Commutes

end Prog
