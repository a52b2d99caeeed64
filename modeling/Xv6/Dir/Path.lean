import Mathlib.Data.List.TakeWhile
import Xv6.Dir.Calls

/-!
# How a path is split

`namex` calls `skipelem` until it returns 0. The calls give the nonempty parts of the path between slashes, one after the
other, each cut to `DIRSIZ` bytes, and leave the empty string exactly after the last one (`skipelems_eq`). So `namex` follows
these parts, and with `nameiparent` it stops before the last one (`namex_components`).
-/

namespace Xv6

namespace Dirs

/-- The nonempty parts of a path between slashes. -/
def components (path : PathName) : List PathName := (path.splitOnP (· = slash)).filter (· ≠ [])

/-- The array `name` after `skipelem` has copied `elem` into it, the first `DIRSIZ` bytes of an element. -/
def nameArray (elem : Name) (name : List Byte) : List Byte :=
  if DIRSIZ ≤ elem.length then elem ++ name.drop DIRSIZ else elem ++ 0 :: name.drop (elem.length + 1)

/-- The loop `while((path = skipelem(path, name)) != 0)`, if it ends within `n` calls: the path and the array after each
call but the last one. -/
def skipelems : ℕ → PathName → List Byte → Option (List (PathName × List Byte))
  | 0, _, _ => none
  | n + 1, path, name =>
    match skipelem path with
    | none => some []
    | some (rest, elem) => (skipelems n rest (nameArray elem name)).map ((rest, nameArray elem name) :: ·)

/-- The array begins with the component, cut to `DIRSIZ` bytes, and with a zero after it if it is shorter. -/
def InArray (c : PathName) (name : List Byte) : Prop :=
  (if c.length < DIRSIZ then c ++ [0] else c.take DIRSIZ) <+: name

variable {path p : PathName} {b : Byte}

theorem components_slash_cons (path : PathName) : components (slash :: path) = components path := by
  have h := @List.splitOnP_append_cons _ (· = slash) [] path slash (decide_eq_true rfl)
  rw [List.nil_append] at h
  rw [components, h, List.filter_append]
  rfl

/-- Slashes at the beginning do not count. -/
theorem components_dropWhile (path : PathName) : components (path.dropWhile (· = slash)) = components path := by
  induction path with
  | nil => rfl
  | cons b path ih =>
    by_cases hb : b = slash
    · rw [List.dropWhile_cons_of_pos (by simpa using hb), ih, hb, components_slash_cons]
    · rw [List.dropWhile_cons_of_neg (by simpa using hb)]

theorem of_dropWhile_eq {f : Byte → Bool} (h : path.dropWhile f = b :: p) : f b = false := by
  have hhead := List.head?_dropWhile_not f path
  rwa [h] at hhead

/-- A path that does not begin with a slash begins with a component. -/
theorem components_cons (hb : decide (b = slash) = false) : components (b :: p) = (b :: p).takeWhile (· ≠ slash) ::
    components (((b :: p).dropWhile (· ≠ slash)).dropWhile (· = slash)) := by
  obtain ⟨w, hw⟩ : ∃ w, w = (b :: p).takeWhile (· ≠ slash) := ⟨_, rfl⟩
  have hne : w ≠ [] := by simp [hw, of_decide_eq_false hb]
  have hall : ∀ x ∈ w, decide (x = slash) = false := by
    intro x hx
    rw [hw] at hx
    simpa using List.mem_takeWhile_imp hx
  have hsplit := List.takeWhile_append_dropWhile (p := (· ≠ slash)) (l := b :: p)
  rw [components_dropWhile, ← hw]
  rw [← hw] at hsplit
  cases hr : (b :: p).dropWhile (· ≠ slash) with
  | nil =>
    rw [hr, List.append_nil] at hsplit
    rw [← hsplit, components, List.splitOnP_eq_singleton hall]
    simp [hne, components]
  | cons a r =>
    have ha : a = slash := by simpa using of_dropWhile_eq hr
    rw [hr, ha] at hsplit
    rw [ha, components_slash_cons, ← hsplit, components,
      List.splitOnP_append_cons_of_forall_mem hall slash (decide_eq_true rfl)]
    simp [hne, components]

/-- One call of `skipelem`. -/
theorem skipelem_cases (path : PathName) : (skipelem path = none ∧ components path = []) ∨
    ∃ rest c, skipelem path = some (rest, c.take DIRSIZ) ∧ components path = c :: components rest ∧
      rest.length < path.length ∧ (rest = [] ↔ components rest = []) := by
  have hlen (rest : PathName) (name : Name) : skipelem path = some (rest, name) → rest.length < path.length := length_skipelem
  rw [skipelem, ← components_dropWhile path]
  rw [skipelem] at hlen
  cases h : path.dropWhile (· = slash) with
  | nil => exact .inl ⟨rfl, rfl⟩
  | cons b p =>
    have hb := of_dropWhile_eq h
    rw [h] at hlen
    refine .inr ⟨_, _, rfl, components_cons hb, hlen _ _ rfl, fun hnil ↦ by rw [hnil]; rfl, fun hnil ↦ ?_⟩
    cases hr : ((b :: p).dropWhile (· ≠ slash)).dropWhile (· = slash) with
    | nil => rfl
    | cons b' p' =>
      rw [hr, components_cons (of_dropWhile_eq hr)] at hnil
      cases hnil

/-- A component that is too long is cut off. -/
theorem inArray_nameArray (c : PathName) (name : List Byte) : InArray c (nameArray (c.take DIRSIZ) name) := by
  rw [InArray, nameArray, List.length_take]
  by_cases h : c.length < DIRSIZ
  · rw [if_pos h, if_neg (by omega), List.take_of_length_le h.le]
    simp
  · rw [if_neg h, if_pos (by omega)]
    exact List.prefix_append ..

/-- The loop ends, and goes through the components. -/
theorem skipelems_eq {n : ℕ} (hn : path.length < n) (name : List Byte) : ∃ l, skipelems n path name = some l ∧
    List.Forall₂ (fun c x ↦ InArray c x.2) (components path) l ∧
    ∀ k x, l[k]? = some x → (x.1 = [] ↔ k + 1 = l.length) := by
  induction n generalizing path name with
  | zero => exact absurd hn (Nat.not_lt_zero _)
  | succ n ih =>
    rw [skipelems]
    rcases skipelem_cases path with ⟨hnone, hnil⟩ | ⟨rest, c, hsome, hcons, hlt, hlast⟩
    · rw [hnone, hnil]
      exact ⟨[], rfl, .nil, nofun⟩
    · obtain ⟨l, hl, hall, hrest⟩ := ih (Nat.lt_of_lt_of_le hlt (Nat.le_of_lt_succ hn)) (nameArray (c.take DIRSIZ) name)
      rw [hsome, hcons]
      refine ⟨_ :: l, congrArg (Option.map _) hl, .cons (inArray_nameArray c name) hall, fun k x hx ↦ ?_⟩
      rw [List.length_cons, Nat.add_right_cancel_iff]
      cases k with
      | zero =>
        obtain rfl := Option.some.inj hx
        rw [hlast, ← List.length_eq_zero_iff, hall.length_eq]
        exact eq_comm
      | succ k => exact hrest k x hx

/-- The elements of a path are its components, cut off. -/
theorem elementsIn_eq {n : ℕ} (hn : path.length ≤ n) : elementsIn n path = (components path).map (List.take DIRSIZ) := by
  induction n generalizing path with
  | zero =>
    rw [List.length_eq_zero_iff.1 (Nat.le_zero.1 hn)]
    rfl
  | succ n ih =>
    rw [elementsIn]
    rcases skipelem_cases path with ⟨hnone, hnil⟩ | ⟨rest, c, hsome, hcons, hlt, -⟩
    · rw [hnone, hnil]
      rfl
    · rw [hsome, hcons, List.map_cons, ← ih (by omega)]

/-- **How `namex` splits a path.** The loop over `skipelem` ends; it goes through the nonempty components in order, each
cut to `DIRSIZ` bytes and followed by a zero if it is shorter, and what is left of the path is empty exactly at the last
one. So `namex` returns the inode that the components lead to, and with `nameiparent` the directory that all but the last
one lead to, if there is one. It panics only at an entry for a free inode. -/
theorem namex_components {s : Dirs} {cwd : ℕ} (hrest : s.AtRest) (hkept : s.Kept) (hcwd : 0 < s.ref cwd) (path : PathName) :
    (∀ name n, path.length < n → ∃ l, skipelems n path name = some l ∧
      List.Forall₂ (fun c x ↦ InArray c x.2) (components path) l ∧
      ∀ k x, l[k]? = some x → (x.1 = [] ↔ k + 1 = l.length)) ∧
    ∀ b, (namex cwd path b).Sat s
      (fun r _ ↦ r = target s.disk b ((components path).map (List.take DIRSIZ)) (start cwd path))
      fun e ↦ e = .panic .ilockNoType ∧
        MeetsFree s.disk ((components path).map (List.take DIRSIZ)) (start cwd path) := by
  refine ⟨fun name n hn ↦ skipelems_eq hn name, fun b ↦ ?_⟩
  have helements : elements path = _ := elementsIn_eq (Nat.le_succ _)
  rw [← helements]
  exact ((hrest.holds hkept).namex (hkept.keptBy 0) hcwd path b).mono (fun _ _ h ↦ h.2) fun _ h ↦ h

/-- The parent of `//x/`, where `x` is a name in the root directory. -/
theorem namex_components_parent : (namex 1 (slash :: slash :: nthName 0 ++ [slash]) true).Sat (links 0)
    (fun r _ ↦ r = some (1, nthName 0)) fun e ↦ e = .panic .ilockNoType := by
  refine ((namex_components (links_atRest 0) links_kept (by decide) _).2 true).mono (fun r _ h ↦ ?_) fun _ h ↦ h.1
  rw [h]
  decide

end Dirs

end Xv6
