import Mathlib.Data.List.Chain
import Mathlib.Data.Nat.Notation

/-!
# Regions of memory

A region is a range of addresses. Lists of regions are compared by how often they cover an address: two lists
that cover every address equally often take up the same memory, and a list whose regions are disjoint covers
no address twice.

`link` puts a region in front of a list and joins it with the first one of the list if there is nothing
between them. It covers the same memory (`cover_link`), and keeps the regions apart from each other
(`isChain_link`).
-/

namespace Xv6

/-- A range of addresses. -/
@[ext]
structure Region where
  /-- The first address. -/
  addr : ℕ
  /-- The number of addresses. -/
  len : ℕ
  deriving DecidableEq

namespace Region

/-- Behind the last address. -/
def stop (b : Region) : ℕ := b.addr + b.len

/-- The address is in the region. -/
def Has (b : Region) (x : ℕ) : Prop := b.addr ≤ x ∧ x < b.stop

instance (b : Region) (x : ℕ) : Decidable (b.Has x) :=
  inferInstanceAs (Decidable (b.addr ≤ x ∧ x < b.stop))

/-- There is a gap between the end of one region and the next one. -/
def Apart (a b : Region) : Prop := a.stop < b.addr

theorem Apart.addr_lt {a b : Region} (h : Apart a b) : a.addr < b.addr :=
  (Nat.le_add_right a.addr a.len).trans_lt h

theorem Apart.trans {a b c : Region} (hab : Apart a b) (hbc : Apart b c) : Apart a c :=
  Nat.lt_trans hab hbc.addr_lt

/-- How many regions of a list have the address. -/
def cover (x : ℕ) (l : List Region) : ℕ := l.countP fun b ↦ b.Has x

theorem cover_cons (x : ℕ) (b : Region) (l : List Region) :
    cover x (b :: l) = cover x l + if b.Has x then 1 else 0 := by
  rw [cover, List.countP_cons, cover]
  simp only [decide_eq_true_eq]

theorem cover_append (x : ℕ) (l m : List Region) : cover x (l ++ m) = cover x l + cover x m :=
  List.countP_append

variable {l : List Region}

theorem cover_perm {m : List Region} (h : l.Perm m) (x : ℕ) : cover x l = cover x m :=
  h.countP_eq _

theorem cover_pos {x : ℕ} : 0 < cover x l ↔ ∃ b ∈ l, b.Has x := by
  rw [cover, List.countP_pos_iff]
  simp only [decide_eq_true_eq]

/-- Two regions of a list that covers nothing twice are disjoint. -/
theorem disjoint_of_cover {a b : Region} (h : ∀ x, cover x (a :: l) ≤ 1) (hb : b ∈ l) (ha : 0 < a.len)
    (hlen : 0 < b.len) : a.stop ≤ b.addr ∨ b.stop ≤ a.addr := by
  -- otherwise the larger one of the first addresses is in both
  refine Decidable.or_iff_not_imp_left.2 fun hab ↦ Nat.le_of_not_lt fun hba ↦ ?_
  have hcover := h (max a.addr b.addr)
  have hpos : 0 < cover (max a.addr b.addr) l := by
    refine cover_pos.2 ⟨b, hb, Nat.le_max_right _ _, ?_⟩
    rw [stop] at hba ⊢
    omega
  have hhas : a.Has (max a.addr b.addr) := by
    refine ⟨Nat.le_max_left _ _, ?_⟩
    rw [stop] at hab ⊢
    omega
  rw [cover_cons, if_pos hhas] at hcover
  omega

/-- The regions of such a list are disjoint. -/
theorem pairwise_of_cover (h : ∀ x, cover x l ≤ 1) (hpos : ∀ b ∈ l, 0 < b.len) :
    l.Pairwise fun a b ↦ a.stop ≤ b.addr ∨ b.stop ≤ a.addr := by
  induction l with
  | nil => exact .nil
  | cons a l ih =>
    have hl : ∀ x, cover x l ≤ 1 := by
      intro x
      have hx := h x
      rw [cover_cons] at hx
      omega
    refine .cons (fun b hb ↦ ?_) (ih hl fun b hb ↦ hpos b (List.mem_cons_of_mem _ hb))
    exact disjoint_of_cover h hb (hpos a List.mem_cons_self) (hpos b (List.mem_cons_of_mem _ hb))

/-! ### Joining -/

/-- A region in front of a list, joined with the first one if they touch. -/
def link (b : Region) : List Region → List Region
  | [] => [b]
  | c :: l => if b.stop = c.addr then ⟨b.addr, b.len + c.len⟩ :: l else b :: c :: l

theorem cover_link (x : ℕ) (b : Region) (l : List Region) : cover x (link b l) = cover x (b :: l) := by
  cases l with
  | nil => rfl
  | cons c l =>
    rw [link]
    split
    next h =>
      have hor : Has ⟨b.addr, b.len + c.len⟩ x ↔ c.Has x ∨ b.Has x := by
        simp only [Has, stop] at h ⊢
        omega
      have hnot : c.Has x → ¬b.Has x := by
        simp only [Has, stop] at h ⊢
        omega
      rw [cover_cons, cover_cons, cover_cons, Nat.add_assoc]
      by_cases hc : c.Has x
      · rw [if_pos (hor.2 (.inl hc)), if_pos hc, if_neg (hnot hc)]
      · by_cases hb : b.Has x
        · rw [if_pos (hor.2 (.inr hb)), if_neg hc, if_pos hb]
        · rw [if_neg fun h ↦ (hor.1 h).elim hc hb, if_neg hc, if_neg hb]
    · rfl

/-- The first region stays where it is. -/
theorem head_link (b : Region) (l : List Region) : ∃ c m, link b l = c :: m ∧ c.addr = b.addr ∧
    b.stop ≤ c.stop := by
  cases l with
  | nil => exact ⟨b, [], rfl, rfl, Nat.le_refl _⟩
  | cons c l =>
    rw [link]
    split
    · refine ⟨_, _, rfl, rfl, ?_⟩
      show b.addr + b.len ≤ b.addr + (b.len + c.len)
      omega
    · exact ⟨b, _, rfl, rfl, Nat.le_refl _⟩

/-- Blocks that are apart from each other are so after joining. -/
theorem isChain_link {b : Region} (h : l.IsChain Apart) (hb : ∀ c ∈ l.head?, b.stop ≤ c.addr) :
    (link b l).IsChain Apart := by
  cases l with
  | nil => exact List.isChain_singleton b
  | cons c l =>
    rw [link]
    split
    next heq =>
      rw [List.isChain_cons] at h ⊢
      refine ⟨fun d hd ↦ ?_, h.2⟩
      have hcd := h.1 d hd
      simp only [Apart, stop] at hcd heq ⊢
      omega
    next hne =>
      rw [List.isChain_cons_cons]
      exact ⟨Nat.lt_of_le_of_ne (hb c rfl) hne, h⟩

/-- The regions of the result begin and end where regions did before. -/
theorem mem_link {b d : Region} (h : d ∈ link b l) :
    (∃ c ∈ b :: l, d.addr = c.addr ∧ c.len ≤ d.len) ∧ ∃ c ∈ b :: l, d.stop = c.stop := by
  cases l with
  | nil => exact ⟨⟨d, h, rfl, Nat.le_refl _⟩, d, h, rfl⟩
  | cons c l =>
    rw [link] at h
    split at h
    next heq =>
      rcases List.mem_cons.1 h with rfl | h
      · refine ⟨⟨b, List.mem_cons_self, rfl, Nat.le_add_right _ _⟩, c, ?_, ?_⟩
        · exact List.mem_cons_of_mem _ List.mem_cons_self
        · rw [stop, stop, ← heq, stop, Nat.add_assoc]
      · have hd : d ∈ b :: c :: l := List.mem_cons_of_mem _ (List.mem_cons_of_mem _ h)
        exact ⟨⟨d, hd, rfl, Nat.le_refl _⟩, d, hd, rfl⟩
    · exact ⟨⟨d, h, rfl, Nat.le_refl _⟩, d, h, rfl⟩

/-- No region gets smaller. -/
theorem exists_mem_link {b c : Region} (h : c ∈ b :: l) : ∃ d ∈ link b l, c.len ≤ d.len := by
  cases l with
  | nil => exact ⟨c, h, Nat.le_refl _⟩
  | cons e l =>
    rw [link]
    split
    · rcases List.mem_cons.1 h with rfl | h
      · exact ⟨_, List.mem_cons_self, Nat.le_add_right _ _⟩
      · rcases List.mem_cons.1 h with rfl | h
        · exact ⟨_, List.mem_cons_self, Nat.le_add_left _ _⟩
        · exact ⟨c, List.mem_cons_of_mem _ h, Nat.le_refl _⟩
    · exact ⟨c, h, Nat.le_refl _⟩

end Region

end Xv6
