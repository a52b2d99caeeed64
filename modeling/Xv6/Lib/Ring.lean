import Mathlib.Data.List.Induction
import Mathlib.Data.List.Nodup
import Mathlib.Logic.Function.Basic

/-!
# Doubly linked rings

Cells of a type `α` with the links `next` and `prev`. `IsRing L h l` says that the links go from `h`
through the cells of `l`, in this order, and back to `h`, and that no cell is met twice. Unlinking a
cell and linking it in after `h` are done by single assignments, as a program does them, and are seen
to delete a member of the list and to add one at its front. A loop along the links (`walk`) goes
through the list, or through its reverse, and ends.
-/

/-- The links of the cells. -/
structure Links (α : Type) where
  /-- The next cell. -/
  next : α → α
  /-- The previous cell. -/
  prev : α → α

namespace Links

open Function

variable {α : Type}

/-! ### Paths -/

/-- The links lead from `a` through `l` to `z`, and back. -/
def Path (L : Links α) (a : α) : List α → α → Prop
  | [], z => L.next a = z ∧ L.prev z = a
  | x :: l, z => (L.next a = x ∧ L.prev x = a) ∧ L.Path x l z

variable {L M : Links α} {a h x z : α} {l m : List α}

theorem path_append : L.Path a (l ++ x :: m) z ↔ L.Path a l x ∧ L.Path x m z := by
  induction l generalizing a with
  | nil => exact Iff.rfl
  | cons y l ih => rw [List.cons_append, Path, Path, ih, and_assoc (b := L.Path y l x)]

/-- A path that keeps its links is still one. -/
theorem Path.congr (hp : L.Path a l z) (hnext : ∀ y ∈ a :: l, M.next y = L.next y)
    (hprev : ∀ y ∈ l ++ [z], M.prev y = L.prev y) : M.Path a l z := by
  induction l generalizing a with
  | nil =>
    exact ⟨(hnext a List.mem_cons_self).trans hp.1, (hprev z List.mem_cons_self).trans hp.2⟩
  | cons y l ih =>
    obtain ⟨⟨hn, hb⟩, hp⟩ := hp
    refine ⟨⟨(hnext a List.mem_cons_self).trans hn, (hprev y List.mem_cons_self).trans hb⟩, ?_⟩
    exact ih hp (fun w hw ↦ hnext w (List.mem_cons_of_mem _ hw))
      fun w hw ↦ hprev w (List.mem_cons_of_mem _ hw)

/-- The first link leads into the path or to its end. -/
theorem Path.next_mem (hp : L.Path a l z) : L.next a ∈ l ++ [z] := by
  cases l with
  | nil => exact List.mem_singleton.2 hp.1
  | cons y l => exact List.mem_append_left _ (hp.1.1 ▸ List.mem_cons_self)

/-- The last link leads back into the path or to its start. -/
theorem Path.prev_mem (hp : L.Path a l z) : L.prev z ∈ a :: l := by
  induction l generalizing a with
  | nil => exact List.mem_singleton.2 hp.2
  | cons y l ih => exact List.mem_cons_of_mem _ (ih hp.2)

/-- The links form a ring of `h` and the cells of `l`, in this order. -/
structure IsRing (L : Links α) (h : α) (l : List α) : Prop where
  path : L.Path h l h
  nodup : (h :: l).Nodup

variable [DecidableEq α]

/-! ### Taking a cell out and putting one in -/

/-- `x->next = y`. -/
def setNext (L : Links α) (x y : α) : Links α := { L with next := update L.next x y }

/-- `x->prev = y`. -/
def setPrev (L : Links α) (x y : α) : Links α := { L with prev := update L.prev x y }

/-- Take `x` out: `x->next->prev = x->prev; x->prev->next = x->next;` -/
def unlink (L : Links α) (x : α) : Links α :=
  let L := L.setPrev (L.next x) (L.prev x)
  L.setNext (L.prev x) (L.next x)

/-- Put `x` in after `h`:
`x->next = h->next; x->prev = h; h->next->prev = x; h->next = x;` -/
def insertAfter (L : Links α) (h x : α) : Links α :=
  let L := L.setNext x (L.next h)
  let L := L.setPrev x h
  let L := L.setPrev (L.next h) x
  L.setNext h x

/-- A ring of one cell: `h->prev = h; h->next = h;` -/
theorem isRing_single (L : Links α) (h : α) : ((L.setPrev h h).setNext h h).IsRing h [] where
  path := by
    constructor
    · show update L.next h h h = h
      rw [update_self]
    · show update L.prev h h h = h
      rw [update_self]
  nodup := List.nodup_singleton h

theorem prev_unlink (y : α) : (L.unlink x).prev y = if y = L.next x then L.prev x else L.prev y :=
  update_apply ..

theorem next_unlink (hx : L.next x ≠ x) (y : α) :
    (L.unlink x).next y = if y = L.prev x then L.next x else L.next y := by
  have hprev : update L.prev (L.next x) (L.prev x) x = L.prev x :=
    update_of_ne hx.symm ..
  show update L.next (update L.prev (L.next x) (L.prev x) x) (L.next x) y = _
  rw [hprev, update_apply]

theorem Path.unlink (hp : L.Path a (l ++ x :: m) z) (hnodup : (a :: (l ++ x :: m)).Nodup)
    (hz : z ∉ l ++ x :: m) : (L.unlink x).Path a (l ++ m) z := by
  obtain ⟨hl, hm⟩ := path_append.1 hp
  have hbefore := hl.prev_mem
  have hafter := hm.next_mem
  rw [← List.cons_append, List.nodup_append] at hnodup
  obtain ⟨hnl, hnm, hdisj⟩ := hnodup
  rw [List.nodup_cons] at hnm
  rw [List.mem_append, List.mem_cons, not_or, not_or] at hz
  have hx : L.next x ≠ x := by
    intro heq
    rw [heq, List.mem_append, List.mem_singleton] at hafter
    rcases hafter with hmem | rfl
    · exact hnm.1 hmem
    · exact hz.2.1 rfl
  induction l generalizing a with
  | nil =>
    have hprev : L.prev x = a := hl.2
    cases m with
    | nil =>
      have hnext : L.next x = z := hm.1
      refine ⟨?_, ?_⟩
      · rw [next_unlink hx, if_pos hprev.symm, hnext]
      · rw [prev_unlink, if_pos hnext.symm, hprev]
    | cons y m =>
      obtain ⟨⟨hnext, hback⟩, hm⟩ := hm
      rw [List.nodup_cons] at hnm
      refine ⟨⟨?_, ?_⟩, hm.congr (fun w hw ↦ ?_) fun w hw ↦ ?_⟩
      · rw [next_unlink hx, if_pos hprev.symm, hnext]
      · rw [prev_unlink, if_pos hnext.symm, hprev]
      · rw [next_unlink hx, if_neg]
        rintro rfl
        exact hdisj _ List.mem_cons_self _ (List.mem_cons_of_mem _ hw) hprev.symm
      · rw [prev_unlink, if_neg]
        rintro rfl
        rw [hnext, List.mem_append, List.mem_singleton] at hw
        rcases hw with hw | rfl
        · exact hnm.2.1 hw
        · exact hz.2.2 List.mem_cons_self
  | cons w l ih =>
    obtain ⟨⟨hnext, hback⟩, hl'⟩ := hl
    rw [List.nodup_cons] at hnl
    have hwl : w ∉ x :: m := fun hw ↦ hdisj w (List.mem_cons_of_mem _ List.mem_cons_self) w hw rfl
    refine ⟨⟨?_, ?_⟩, ih (path_append.2 ⟨hl', hm⟩)
      ⟨fun hmem ↦ hz.1 (List.mem_cons_of_mem _ hmem), hz.2⟩ hl' hl'.prev_mem hnl.2
      fun y hy ↦ hdisj y (List.mem_cons_of_mem _ hy)⟩
    · rw [next_unlink hx, if_neg, hnext]
      rintro rfl
      exact hnl.1 hl'.prev_mem
    · rw [prev_unlink, if_neg, hback]
      rintro rfl
      rw [List.mem_append, List.mem_singleton] at hafter
      rcases hafter with hmem | heq
      · exact hwl (List.mem_cons_of_mem _ hmem)
      · exact hz.1 (heq ▸ List.mem_cons_self)

/-- Taking a cell out of a ring. -/
theorem IsRing.unlink (hr : L.IsRing h (l ++ x :: m)) : (L.unlink x).IsRing h (l ++ m) where
  path := hr.path.unlink hr.nodup (List.nodup_cons.1 hr.nodup).1
  nodup := hr.nodup.sublist
    (List.cons_sublist_cons.2 ((List.sublist_cons_self x m).append_left l))

/-- Putting a cell into a ring. -/
theorem IsRing.insertAfter (hr : L.IsRing h l) (hx : x ∉ h :: l) :
    (L.insertAfter h x).IsRing h (x :: l) := by
  obtain ⟨hpath, hnodup⟩ := hr
  have hxh : x ≠ h := fun heq ↦ hx (heq ▸ List.mem_cons_self)
  have hnh : update L.next x (L.next h) h = L.next h := update_of_ne hxh.symm ..
  -- the links afterwards
  have hnext (y : α) : (L.insertAfter h x).next y =
      if y = h then x else if y = x then L.next h else L.next y := by
    show update (update L.next x (L.next h)) h x y = _
    rw [update_apply, update_apply]
  have hprev (y : α) : (L.insertAfter h x).prev y =
      if y = L.next h then x else if y = x then h else L.prev y := by
    show update (update L.prev x h)
      (update L.next x (L.next h) h) x y = _
    rw [hnh, update_apply, update_apply]
  have hmem := hpath.next_mem
  have hxn : x ≠ L.next h := by
    rintro rfl
    rw [List.mem_append, List.mem_singleton] at hmem
    exact hx (List.mem_cons.2 hmem.symm)
  have hfirst : (L.insertAfter h x).next h = x ∧ (L.insertAfter h x).prev x = h := by
    rw [hnext, if_pos rfl, hprev, if_neg hxn, if_pos rfl]
    exact ⟨rfl, rfl⟩
  refine ⟨⟨hfirst, ?_⟩, ?_⟩
  · cases l with
    | nil =>
      have hn : L.next h = h := hpath.1
      refine ⟨?_, ?_⟩
      · rw [hnext, if_neg hxh, if_pos rfl, hn]
      · rw [hprev, if_pos hn.symm]
    | cons y l =>
      obtain ⟨⟨hn, -⟩, hpath⟩ := hpath
      rw [List.nodup_cons, List.nodup_cons] at hnodup
      refine ⟨⟨?_, ?_⟩, hpath.congr (fun w hw ↦ ?_) fun w hw ↦ ?_⟩
      · rw [hnext, if_neg hxh, if_pos rfl, hn]
      · rw [hprev, if_pos hn.symm]
      · have hwh : w ≠ h := fun heq ↦ hnodup.1 (heq ▸ hw)
        have hwx : w ≠ x := fun heq ↦ hx (List.mem_cons_of_mem _ (heq ▸ hw))
        rw [hnext, if_neg hwh, if_neg hwx]
      · rw [List.mem_append, List.mem_singleton] at hw
        rw [hprev, hn, if_neg, if_neg]
        · rintro rfl
          rcases hw with hw | heq
          · exact hx (List.mem_cons_of_mem _ (List.mem_cons_of_mem _ hw))
          · exact hxh heq
        · rintro rfl
          rcases hw with hw | heq
          · exact hnodup.2.1 hw
          · exact hnodup.1 (heq ▸ List.mem_cons_self)
  · rw [List.nodup_cons] at hnodup ⊢
    rw [List.mem_cons, not_or, List.nodup_cons]
    exact ⟨⟨hxh.symm, hnodup.1⟩, fun hmem ↦ hx (List.mem_cons_of_mem _ hmem), hnodup.2⟩

/-! ### Loops along the links -/

/-- A loop along the links, from `b` until it meets `stop` or finds a cell: `none` when it has not
ended after so many turns. -/
def walk (link : α → α) (stop : α) (p : α → Bool) : ℕ → α → Option (Option α)
  | 0, _ => none
  | n + 1, b =>
    if b = stop then some none
    else if p b then some (some b)
    else walk link stop p n (link b)

variable (p : α → Bool)

variable {n : ℕ}

theorem Path.walk_next (hp : L.Path a l z) (hz : z ∉ l) (hn : l.length < n) :
    walk L.next z p n (L.next a) = some (l.find? p) := by
  induction l generalizing a n with
  | nil =>
    obtain ⟨n, rfl⟩ := Nat.exists_eq_add_of_lt hn
    rw [hp.1, walk, if_pos rfl, List.find?_nil]
  | cons y l ih =>
    obtain ⟨⟨hnext, -⟩, hp⟩ := hp
    rw [List.mem_cons, not_or] at hz
    cases n with
    | zero => exact absurd hn (Nat.not_lt_zero _)
    | succ n =>
      rw [hnext, walk, if_neg (Ne.symm hz.1), List.find?_cons]
      split
      next hpy => rw [hpy]
      next hpy =>
        rw [Bool.eq_false_iff.2 hpy]
        exact ih hp hz.2 (Nat.lt_of_succ_lt_succ hn)

theorem Path.walk_prev (hp : L.Path a l z) (ha : a ∉ l) (hn : l.length < n) :
    walk L.prev a p n (L.prev z) = some (l.reverse.find? p) := by
  induction l using List.reverseRecOn generalizing z n with
  | nil =>
    obtain ⟨n, rfl⟩ := Nat.exists_eq_add_of_lt hn
    rw [hp.2, walk, if_pos rfl, List.reverse_nil, List.find?_nil]
  | append_singleton l y ih =>
    obtain ⟨hp, hlast⟩ := path_append.1 hp
    rw [List.mem_append, List.mem_singleton, not_or] at ha
    rw [List.length_append, List.length_singleton] at hn
    cases n with
    | zero => exact absurd hn (Nat.not_lt_zero _)
    | succ n =>
      rw [hlast.2, walk, if_neg (Ne.symm ha.2), List.reverse_append, List.reverse_singleton,
        List.singleton_append, List.find?_cons]
      split
      next hpy => rw [hpy]
      next hpy =>
        rw [Bool.eq_false_iff.2 hpy]
        exact ih hp ha.1 (Nat.lt_of_succ_lt_succ hn)

/-- The loop forward through a ring. -/
theorem IsRing.walk_next (hr : L.IsRing h l) (hn : l.length < n) :
    walk L.next h p n (L.next h) = some (l.find? p) :=
  hr.path.walk_next p (List.nodup_cons.1 hr.nodup).1 hn

/-- The loop backward. -/
theorem IsRing.walk_prev (hr : L.IsRing h l) (hn : l.length < n) :
    walk L.prev h p n (L.prev h) = some (l.reverse.find? p) :=
  hr.path.walk_prev p (List.nodup_cons.1 hr.nodup).1 hn

end Links
