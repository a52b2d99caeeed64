import Mathlib.Tactic.Common
import Mathlib.Logic.Function.Basic
import Mathlib.Data.List.Basic

/-!
# Lists of writes laid over a store

A store maps addresses to values. `overlay ws d` is the store `d` after the writes `ws`, in order.
This is the algebra that a redo log rests on: an address that some write names has a value that no
longer depends on the store underneath (`overlay_congr`), so replaying a list of writes over a store
in which some of them have already been carried out gives the same store again
(`overlay_update_mem`), and replaying it over a store in which all of them have been carried out
does nothing (`overlay_eq_self`).
-/

open Function

variable {κ β : Type} [DecidableEq κ]

/-- The store `d` after the writes `ws`, first to last. -/
def overlay : List (κ × β) → (κ → β) → κ → β
  | [], d => d
  | w :: ws, d => overlay ws (update d w.1 w.2)

namespace Overlay

@[simp]
theorem overlay_nil (d : κ → β) : overlay [] d = d := rfl

theorem overlay_cons (w : κ × β) (ws : List (κ × β)) (d : κ → β) :
    overlay (w :: ws) d = overlay ws (update d w.1 w.2) := rfl

theorem overlay_append (ws vs : List (κ × β)) (d : κ → β) :
    overlay (ws ++ vs) d = overlay vs (overlay ws d) := by
  induction ws generalizing d with
  | nil => rfl
  | cons w ws ih => rw [List.cons_append, overlay_cons, overlay_cons, ih]

/-- One more write is one more update. -/
theorem overlay_concat (ws : List (κ × β)) (w : κ × β) (d : κ → β) :
    overlay (ws ++ [w]) d = update (overlay ws d) w.1 w.2 := by
  rw [overlay_append]
  rfl

/-- At an address that some write names, or at which two stores agree, they agree after the
writes. -/
theorem overlay_congr {ws : List (κ × β)} {c d : κ → β} {x : κ}
    (h : (∃ w ∈ ws, w.1 = x) ∨ c x = d x) : overlay ws c x = overlay ws d x := by
  induction ws generalizing c d with
  | nil =>
    rcases h with ⟨w, hw, -⟩ | h
    · cases hw
    · exact h
  | cons v ws ih =>
    apply ih
    by_cases hv : v.1 = x
    · exact .inr (by rw [← hv, update_self, update_self])
    · rcases h with ⟨w, hw, hx⟩ | h
      · rcases List.mem_cons.1 hw with rfl | hw
        · exact absurd hx hv
        · exact .inl ⟨w, hw, hx⟩
      · refine .inr ?_
        rw [update_of_ne (Ne.symm hv), update_of_ne (Ne.symm hv), h]

/-- An address that no write names keeps its value. -/
theorem overlay_of_not_mem {ws : List (κ × β)} {d : κ → β} {x : κ} (h : ∀ w ∈ ws, w.1 ≠ x) :
    overlay ws d x = d x := by
  induction ws generalizing d with
  | nil => rfl
  | cons v ws ih =>
    rw [overlay_cons, ih fun w hw ↦ h w (List.mem_cons_of_mem _ hw),
      update_of_ne (Ne.symm (h v List.mem_cons_self))]

/-- Carrying out one of the writes beforehand changes nothing. -/
theorem overlay_update_mem {ws : List (κ × β)} {w : κ × β} (hw : w ∈ ws) (d : κ → β) (v : β) :
    overlay ws (update d w.1 v) = overlay ws d := by
  funext x
  apply overlay_congr
  by_cases hx : w.1 = x
  · exact .inl ⟨w, hw, hx⟩
  · exact .inr (update_of_ne (Ne.symm hx) _ _)

/-- Writes that have all been carried out already do nothing. -/
theorem overlay_eq_self {ws : List (κ × β)} {d : κ → β} (h : ∀ w ∈ ws, d w.1 = w.2) :
    overlay ws d = d := by
  induction ws with
  | nil => rfl
  | cons v ws ih =>
    rw [overlay_cons, ← h v List.mem_cons_self, update_eq_self,
      ih fun w hw ↦ h w (List.mem_cons_of_mem _ hw)]

/-- When all the writes to an address agree, that is its value afterwards. -/
theorem overlay_of_mem {ws : List (κ × β)} {d : κ → β} {w : κ × β} (hw : w ∈ ws)
    (h : ∀ v ∈ ws, v.1 = w.1 → v.2 = w.2) : overlay ws d w.1 = w.2 := by
  induction ws generalizing d w with
  | nil => cases hw
  | cons v ws ih =>
    rw [overlay_cons]
    by_cases hin : ∃ u ∈ ws, u.1 = w.1
    · obtain ⟨u, hu, hux⟩ := hin
      have hu2 : u.2 = w.2 := h u (List.mem_cons_of_mem _ hu) hux
      rw [← hux, ← hu2]
      refine ih hu fun t ht htu ↦ ?_
      rw [h t (List.mem_cons_of_mem _ ht) (htu.trans hux), hu2]
    · rw [overlay_of_not_mem fun u hu hux ↦ hin ⟨u, hu, hux⟩]
      rcases List.mem_cons.1 hw with rfl | hw
      · exact update_self ..
      · exact absurd ⟨w, hw, rfl⟩ hin

end Overlay
