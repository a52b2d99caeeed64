import Mathlib.Tactic.Common
import Mathlib.Data.List.Basic
import Mathlib.Data.List.Nodup

/-!
# Trees of pointers in a heap

A heap gives each node `a` the pointers `heap a i` to its children, `0` being the null pointer. A
*forest* adds root pointers, and its *shape* says how deep each root's tree may be and how many
children a node has. A *position* is a root and a path below it; `ptr` is the pointer found there,
null as soon as a null pointer is met on the way.

A forest is *injective* if no pointer occurs at two positions. This is what makes local changes
local, and it is the hypothesis of the three facts proved here:

* `ptr_congr`: two forests that agree on what is met on the way to a position have the same pointer
  there;
* `ptr_graft_root`, `ptr_graft_entry`: storing a pointer to a fresh empty node in a null cell
  changes the pointer at the position of that cell and at no other;
* `nodup_nodes`: listing a tree in post-order lists each node once.
-/

namespace PointerTree

variable {α : Type} [Zero α] [DecidableEq α] (heap : α → ℕ → α)

/-- The pointer reached from `a` along a path. -/
def follow : α → List ℕ → α
  | a, [] => a
  | a, i :: path => if a = 0 then 0 else follow (heap a i) path

@[simp]
theorem follow_nil (a : α) : follow heap a [] = a := rfl

@[simp]
theorem follow_zero (path : List ℕ) : follow heap 0 path = 0 := by
  cases path with
  | nil => rfl
  | cons i path => rw [follow, if_pos rfl]

theorem follow_append (a : α) (p q : List ℕ) :
    follow heap a (p ++ q) = follow heap (follow heap a p) q := by
  induction p generalizing a with
  | nil => rfl
  | cons i p ih =>
    rw [List.cons_append, follow, follow]
    split
    · rw [follow_zero]
    · exact ih _

variable {p : List ℕ}

theorem follow_concat {a : α} (h : follow heap a p ≠ 0) (i : ℕ) :
    follow heap a (p ++ [i]) = heap (follow heap a p) i := by
  rw [follow_append, follow, if_neg h, follow]

/-- A path that starts behind a null pointer ends in one. -/
theorem follow_append_eq_zero {a : α} (h : follow heap a p = 0) (q : List ℕ) :
    follow heap a (p ++ q) = 0 := by
  rw [follow_append, h, follow_zero]

variable {heap}

/-- Two heaps that agree on the cells met on a path lead to the same pointer. -/
theorem follow_congr {heap' : α → ℕ → α} {a : α} {path : List ℕ}
    (h : ∀ p i q, path = p ++ i :: q → follow heap a p ≠ 0 →
      heap' (follow heap a p) i = heap (follow heap a p) i) :
    follow heap' a path = follow heap a path := by
  induction path generalizing a with
  | nil => rfl
  | cons i path ih =>
    rw [follow, follow]
    split
    · rfl
    next ha =>
      have hcell : heap' a i = heap a i := h [] i path rfl ha
      rw [hcell]
      refine ih fun p j q hpath hne ↦ ?_
      have hfollow : follow heap a (i :: p) = follow heap (heap a i) p := by
        rw [follow, if_neg ha]
      have hj := h (i :: p) j q (by rw [hpath, List.cons_append])
      rw [hfollow] at hj
      exact hj hne

/-! ### Forests -/

/-- How deep the tree below each root is, and how many children a node has. -/
structure Shape (κ : Type) where
  /-- The length of the paths below a root. -/
  depth : κ → ℕ
  /-- The number of children of a node. -/
  arity : ℕ

/-- A root and a path below it. -/
structure Shape.Pos {κ : Type} (S : Shape κ) (p : κ × List ℕ) : Prop where
  length_le : p.2.length ≤ S.depth p.1
  lt_arity : ∀ i ∈ p.2, i < S.arity

/-- Root pointers and a heap. -/
structure Forest (κ α : Type) where
  /-- The root pointers. -/
  root : κ → α
  /-- The pointers in the nodes. -/
  heap : α → ℕ → α

variable {κ : Type} {S : Shape κ} {F F' : Forest κ α}

theorem Shape.Pos.of_append {k : κ} {q : List ℕ} (h : S.Pos (k, p ++ q)) : S.Pos (k, p) where
  length_le := by
    have hlen : (p ++ q).length ≤ S.depth k := h.length_le
    rw [List.length_append] at hlen
    exact Nat.le_trans (Nat.le_add_right _ _) hlen
  lt_arity := fun i hi ↦ h.lt_arity i (List.mem_append_left q hi)

theorem Shape.Pos.root (k : κ) : S.Pos (k, []) where
  length_le := Nat.zero_le _
  lt_arity := nofun

namespace Forest

/-- The pointer at a position. -/
def ptr (F : Forest κ α) (p : κ × List ℕ) : α :=
  follow F.heap (F.root p.1) p.2

/-- No pointer occurs at two positions. -/
def Injective (S : Shape κ) (F : Forest κ α) : Prop :=
  ∀ p q, S.Pos p → S.Pos q → F.ptr p ≠ 0 → F.ptr p = F.ptr q → p = q

/-- Two forests with the same root, that agree on the cells met on the way to a position, have the
same pointer there. -/
theorem ptr_congr {k : κ} {path : List ℕ} (hroot : F'.root k = F.root k)
    (h : ∀ p i q, path = p ++ i :: q → F.ptr (k, p) ≠ 0 →
      F'.heap (F.ptr (k, p)) i = F.heap (F.ptr (k, p)) i) : F'.ptr (k, path) = F.ptr (k, path) := by
  rw [ptr, ptr, hroot]
  exact follow_congr h

theorem ptr_eq_zero_of_prefix {k : κ} {p q : List ℕ} (h : F.ptr (k, p) = 0) : F.ptr (k, p ++ q) = 0 :=
  follow_append_eq_zero F.heap h q

theorem ptr_concat {k : κ} {p : List ℕ} (h : F.ptr (k, p) ≠ 0) (i : ℕ) :
    F.ptr (k, p ++ [i]) = F.heap (F.ptr (k, p)) i :=
  follow_concat F.heap h i

/-- Behind a fresh node whose cells are null there are only null pointers. -/
theorem ptr_behind_fresh {k : κ} {p q : List ℕ} {i : ℕ} {b : α} (hb : F.ptr (k, p) = b)
    (hzero : ∀ i, F.heap b i = 0) : F.ptr (k, p ++ i :: q) = 0 := by
  have hstep : F.ptr (k, p ++ [i]) = 0 := by
    by_cases h0 : F.ptr (k, p) = 0
    · exact ptr_eq_zero_of_prefix h0
    · rw [ptr_concat h0, hb, hzero]
  have hrest := ptr_eq_zero_of_prefix (q := q) hstep
  rwa [List.append_assoc, List.singleton_append] at hrest

/-- Storing a pointer to a fresh empty node in a null root changes that root's pointer only. -/
theorem ptr_graft_root [DecidableEq κ] {k : κ} {b : α} (hnull : F.root k = 0)
    (hroot : ∀ k', F'.root k' = if k' = k then b else F.root k') (hzero : ∀ i, F'.heap b i = 0)
    (hheap : ∀ p i, S.Pos p → F.ptr p ≠ 0 → i < S.arity → F'.heap (F.ptr p) i = F.heap (F.ptr p) i)
    {p : κ × List ℕ} (hp : S.Pos p) : F'.ptr p = if p = (k, []) then b else F.ptr p := by
  obtain ⟨k', path⟩ := p
  by_cases hk : k' = k
  · rw [hk]
    have hkroot : F'.ptr (k, []) = b := by
      rw [ptr, follow_nil, hroot, if_pos rfl]
    cases path with
    | nil => rw [if_pos rfl, hkroot]
    | cons i path =>
      have hold : F.ptr (k, [] ++ i :: path) = 0 := ptr_eq_zero_of_prefix hnull
      rw [if_neg (by simp)]
      exact (ptr_behind_fresh (p := []) hkroot hzero).trans hold.symm
  · rw [if_neg (fun h ↦ hk (congrArg Prod.fst h))]
    refine ptr_congr ?_ fun p i q hpath hne ↦ ?_
    · rw [hroot, if_neg hk]
    · subst hpath
      exact hheap (k', p) i hp.of_append hne (hp.lt_arity i (by simp))

/-- Storing a pointer to a fresh empty node in a null cell changes the pointer at the position of
that cell only. -/
theorem ptr_graft_entry [DecidableEq κ] {k : κ} {path : List ℕ} {i : ℕ} {b : α}
    (hpos : S.Pos (k, path ++ [i])) (hparent : F.ptr (k, path) ≠ 0)
    (hnull : F.heap (F.ptr (k, path)) i = 0) (hroot : F'.root = F.root) (hzero : ∀ i, F'.heap b i = 0)
    (hcell : F'.heap (F.ptr (k, path)) i = b)
    (hheap : ∀ p j, S.Pos p → F.ptr p ≠ 0 → j < S.arity → (p, j) ≠ ((k, path), i) →
      F'.heap (F.ptr p) j = F.heap (F.ptr p) j)
    {p : κ × List ℕ} (hp : S.Pos p) : F'.ptr p = if p = (k, path ++ [i]) then b else F.ptr p := by
  have hold : F.ptr (k, path ++ [i]) = 0 := by rw [ptr_concat hparent, hnull]
  -- the way to the parent does not use the cell
  have hway : F'.ptr (k, path) = F.ptr (k, path) := by
    refine ptr_congr (by rw [hroot]) fun p j q hpath hne ↦ ?_
    have hpp : S.Pos (k, p) := by
      have hpos' := hpos.of_append
      rw [hpath] at hpos'
      exact hpos'.of_append
    refine hheap (k, p) j hpp hne (hpos.lt_arity j (by simp [hpath])) fun h ↦ ?_
    have hsame : p = path := congrArg (fun x ↦ x.1.2) h
    rw [← hsame] at hpath
    simp at hpath
  have hnew : F'.ptr (k, path ++ [i]) = b := by
    rw [ptr_concat (hway ▸ hparent), hway, hcell]
  obtain ⟨k', path'⟩ := p
  by_cases hbelow : k' = k ∧ ∃ r, path' = path ++ [i] ++ r
  · obtain ⟨rfl, r, rfl⟩ := hbelow
    cases r with
    | nil => rw [List.append_nil, if_pos rfl, hnew]
    | cons j r =>
      rw [if_neg (by simp), ptr_eq_zero_of_prefix hold]
      exact ptr_behind_fresh hnew hzero
  · rw [if_neg (fun h ↦ hbelow ⟨congrArg Prod.fst h, [], by simpa using congrArg Prod.snd h⟩)]
    refine ptr_congr (by rw [hroot]) fun p j q hpath hne ↦ ?_
    subst hpath
    refine hheap (k', p) j hp.of_append hne (hp.lt_arity j (by simp)) fun h ↦ ?_
    obtain ⟨⟨rfl, rfl⟩, rfl⟩ : (k' = k ∧ p = path) ∧ j = i := by simpa using h
    exact hbelow ⟨rfl, q, by rw [List.append_assoc, List.singleton_append]⟩

/-- A forest that gains a fresh pointer at one position stays injective. -/
theorem Injective.graft [DecidableEq κ] (hinj : F.Injective S) {p₀ : κ × List ℕ} {b : α}
    (hfresh : ∀ p, S.Pos p → F.ptr p ≠ b)
    (hptr : ∀ p, S.Pos p → F'.ptr p = if p = p₀ then b else F.ptr p) : F'.Injective S := by
  intro p q hp hq hne heq
  rw [hptr p hp] at hne heq
  rw [hptr q hq] at heq
  split at heq
  next hpp =>
    split at heq
    next hqp => rw [hpp, hqp]
    · exact absurd heq.symm (hfresh q hq)
  next hpp =>
    rw [if_neg hpp] at hne
    split at heq
    · exact absurd heq (hfresh p hp)
    · exact hinj p q hp hq hne heq

end Forest

/-! ### The nodes of a tree -/

variable (heap)

/-- The nodes of a tree of the given depth, children before parents. -/
def nodes (arity : ℕ) : ℕ → α → List α
  | 0, a => if a = 0 then [] else [a]
  | depth + 1, a =>
    if a = 0 then [] else (List.range arity).flatMap (fun i ↦ nodes arity depth (heap a i)) ++ [a]

/-- The nodes below the root of a tree of the given depth. -/
def below (arity : ℕ) : ℕ → α → List α
  | 0, _ => []
  | depth + 1, a => (List.range arity).flatMap fun i ↦ nodes heap arity depth (heap a i)

theorem nodes_eq_below (arity depth : ℕ) (a : α) :
    nodes heap arity depth a = if a = 0 then [] else below heap arity depth a ++ [a] := by
  cases depth with
  | zero | succ depth => rfl

variable {heap} {arity : ℕ}

theorem mem_nodes {depth : ℕ} {a b : α} : b ∈ nodes heap arity depth a ↔
      b ≠ 0 ∧ ∃ path : List ℕ, path.length ≤ depth ∧ (∀ i ∈ path, i < arity) ∧
        follow heap a path = b := by
  induction depth generalizing a with
  | zero =>
    rw [nodes]
    constructor
    · intro h
      split at h
      · cases h
      next ha =>
        rw [List.mem_singleton] at h
        exact ⟨h ▸ ha, [], Nat.le_refl 0, by simp, h.symm⟩
    · rintro ⟨hb, path, hlen, -, rfl⟩
      rw [List.eq_nil_of_length_eq_zero (Nat.le_zero.1 hlen), follow] at hb ⊢
      rw [if_neg hb]
      exact List.mem_singleton_self a
  | succ depth ih =>
    rw [nodes]
    constructor
    · intro h
      split at h
      · cases h
      next ha =>
        rcases List.mem_append.1 h with h | h
        · obtain ⟨i, hi, h⟩ := List.mem_flatMap.1 h
          obtain ⟨hb, path, hlen, hlt, hpath⟩ := ih.1 h
          refine ⟨hb, i :: path, by simpa using hlen, ?_, by rw [follow, if_neg ha, hpath]⟩
          rw [List.forall_mem_cons]
          exact ⟨List.mem_range.1 hi, hlt⟩
        · rw [List.mem_singleton] at h
          exact ⟨h ▸ ha, [], Nat.zero_le _, by simp, h.symm⟩
    · rintro ⟨hb, path, hlen, hlt, rfl⟩
      cases path with
      | nil =>
        rw [follow] at hb ⊢
        rw [if_neg hb]
        exact List.mem_append_right _ (List.mem_singleton_self a)
      | cons i path =>
        have ha : a ≠ 0 := fun ha ↦ hb (by rw [ha, follow_zero])
        have hcons : follow heap a (i :: path) = follow heap (heap a i) path := by
          rw [follow, if_neg ha]
        rw [List.forall_mem_cons] at hlt
        rw [if_neg ha]
        refine List.mem_append_left _ (List.mem_flatMap.2 ⟨i, List.mem_range.2 hlt.1, ?_⟩)
        exact ih.2 ⟨hb, path, by simpa using hlen, hlt.2, hcons.symm⟩

/-- In a tree where no pointer occurs at two positions, no node is listed twice. -/
theorem nodup_nodes {depth : ℕ} {a : α}
    (hinj : ∀ p q : List ℕ, p.length ≤ depth → q.length ≤ depth → (∀ i ∈ p, i < arity) →
      (∀ i ∈ q, i < arity) → follow heap a p ≠ 0 → follow heap a p = follow heap a q → p = q) :
    (nodes heap arity depth a).Nodup := by
  induction depth generalizing a with
  | zero =>
    rw [nodes]
    split
    · exact List.nodup_nil
    · exact List.nodup_singleton a
  | succ depth ih =>
    rw [nodes]
    split
    · exact List.nodup_nil
    next ha =>
      have hcons (i : ℕ) (p : List ℕ) : follow heap a (i :: p) = follow heap (heap a i) p := by
        rw [follow, if_neg ha]
      have hchild : ∀ i < arity, ∀ p q : List ℕ, p.length ≤ depth → q.length ≤ depth →
          (∀ i ∈ p, i < arity) → (∀ i ∈ q, i < arity) → follow heap (heap a i) p ≠ 0 →
          follow heap (heap a i) p = follow heap (heap a i) q → p = q := by
        intro i hi p q hp hq hpa hqa hne heq
        rw [← hcons] at hne
        rw [← hcons, ← hcons] at heq
        have h := hinj (i :: p) (i :: q) (by simpa using hp) (by simpa using hq)
          (List.forall_mem_cons.2 ⟨hi, hpa⟩) (List.forall_mem_cons.2 ⟨hi, hqa⟩) hne heq
        exact (List.cons.inj h).2
      refine List.Nodup.append ?_ (List.nodup_singleton a) ?_
      · refine List.nodup_flatMap.2 ⟨fun i hi ↦ ih (hchild i (List.mem_range.1 hi)), ?_⟩
        -- the trees below two children are disjoint
        refine List.Pairwise.imp_of_mem ?_ List.pairwise_lt_range
        intro i j hi hj hij b hbi hbj
        obtain ⟨hb, p, hp, hpa, hpb⟩ := mem_nodes.1 hbi
        obtain ⟨-, q, hq, hqa, hqb⟩ := mem_nodes.1 hbj
        rw [← hcons] at hpb hqb
        have h := hinj (i :: p) (j :: q) (by simpa using hp) (by simpa using hq)
          (List.forall_mem_cons.2 ⟨List.mem_range.1 hi, hpa⟩)
          (List.forall_mem_cons.2 ⟨List.mem_range.1 hj, hqa⟩) (hpb ▸ hb) (hpb.trans hqb.symm)
        exact absurd (List.cons.inj h).1 (Nat.ne_of_lt hij)
      · -- the node itself is not below one of its children
        intro b hb hba
        rw [List.mem_singleton] at hba
        obtain ⟨i, hi, hb⟩ := List.mem_flatMap.1 hb
        obtain ⟨hb, p, hp, hpa, hpb⟩ := mem_nodes.1 hb
        rw [← hcons, hba] at hpb
        have h := hinj (i :: p) [] (by simpa using hp) (Nat.zero_le _)
          (List.forall_mem_cons.2 ⟨List.mem_range.1 hi, hpa⟩) (by simp) (by rwa [hpb]) hpb
        exact absurd h (List.cons_ne_nil _ _)

end PointerTree
