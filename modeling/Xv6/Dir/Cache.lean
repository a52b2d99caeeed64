import Mathlib.Data.List.DropRight
import Mathlib.Data.Multiset.Count
import Xv6.Dir.Basic

/-!
# References and locks during a call

While a call on names is under way it has references of its own, next to those of the open files and the current
directories, and it has locked some inodes. `Holds x s m k t` describes its state `t` by the state `s` without the call:
the inodes on disk are those of `s`, the call has the references `m` and the locks `k`, what the cache has read is what
is on disk, and an allocated inode without links is in use, except for `x`, which the call has just allocated. Each
function of the cache is specified by what it does to `m` and `k`; when a call changes an inode, it is `s` that changes.

That a walk along a path frees nothing rests on one fact: somebody else, or the call itself, refers to each allocated
inode without links (`KeptBy`). What the walk finds is what the entries on disk say (`resolve`).
-/

namespace Xv6

open Function Multiset

namespace Dirs

/-- An inode during a call that has `n` references to it and has locked it if `l`. There are `r` other references, of
somebody who had read it before if `v`. -/
structure Entry (r : ℕ) (v : Bool) (n : ℕ) (l new : Prop) (mem disk : DirNode) (ref : ℕ) (valid locked : Bool) : Prop where
  ref_eq : ref = r + n
  locked_iff : locked = true ↔ l
  stays : 0 < r → v = true → valid = true
  same : 0 < ref → valid = true → mem = disk ∧ disk.type ≠ 0
  read : l → 0 < ref ∧ valid = true
  /-- An allocated inode without links is in use by somebody who has read it, unless it is new. -/
  kept : ¬new → disk.type ≠ 0 → disk.nlink = 0 → 0 < ref ∧ valid = true

/-- The inode `i` during a call that has the references `m` and the locks `k`, and has allocated the inode `x`. -/
@[simp]
abbrev Has (x : Option ℕ) (s : Dirs) (m k : Multiset ℕ) (t : Dirs) (i : ℕ) : Prop :=
  Entry (s.ref i) (s.valid i) (m.count i) (i ∈ k) (i ∈ x) (t.mem i) (s.disk i) (t.ref i) (t.valid i) (t.locked i)

/-- The call has the references `m` and the locks `k`, and has allocated the inode `x`. -/
structure Holds (x : Option ℕ) (s : Dirs) (m k : Multiset ℕ) (t : Dirs) : Prop where
  disk : t.disk = s.disk
  ops : t.ops = s.ops
  nodup : k.Nodup
  entry : ∀ i, Has x s m k t i

/-- An allocated inode without links is in use by somebody who has read it. The disk has no inode that a crash has left
without links: nobody would free it. -/
def Kept (s : Dirs) : Prop :=
  ∀ i, (s.disk i).type ≠ 0 → (s.disk i).nlink = 0 → 0 < s.ref i ∧ s.valid i = true

/-- An allocated inode without links is in use, possibly by a call that has the references `m`. -/
def KeptBy (s : Dirs) (m : Multiset ℕ) : Prop :=
  ∀ i, (s.disk i).type ≠ 0 → (s.disk i).nlink = 0 → 0 < s.ref i + m.count i

theorem Kept.keptBy {s : Dirs} (h : s.Kept) (m : Multiset ℕ) : s.KeptBy m := by
  intro i htype hnlink
  have := (h i htype hnlink).1
  omega

theorem KeptBy.cons {s : Dirs} {m : Multiset ℕ} (h : s.KeptBy m) (j : ℕ) : s.KeptBy (j ::ₘ m) := by
  intro i htype hnlink
  have hpos := h i htype hnlink
  have hle := count_le_count_cons i j m
  omega

/-- The inode that the entries on disk give for a path, from the inode `ip`. -/
def resolve (disk : ℕ → DirNode) : List Name → ℕ → Option ℕ
  | [], ip => some ip
  | name :: names, ip =>
    if (disk ip).type = T_DIR then
      ((disk ip).lookup name).bind fun found ↦ resolve disk names found.1
    else
      none

namespace Holds

variable {x : Option ℕ} {s t u : Dirs} {m k : Multiset ℕ} {i : ℕ}

/-- An inode that the call holds is in use. -/
theorem mem_ref (h : Holds x s (i ::ₘ m) k t) : 0 < t.ref i := by
  rw [(h.entry i).ref_eq, count_cons_self]
  omega

/-- A locked inode as the call sees it. -/
theorem mem_locked (h : Holds x s m k t) (hi : i ∈ k) : t.mem i = s.disk i := by
  obtain ⟨hpos, hv⟩ := (h.entry i).read hi
  exact ((h.entry i).same hpos hv).1

/-- The references of a call in another order. -/
theorem swap {j : ℕ} (h : Holds x s (i ::ₘ j ::ₘ m) k t) : Holds x s (j ::ₘ i ::ₘ m) k t :=
  cons_swap i j m ▸ h

theorem beginOp (h : Holds x s m k u) :
    Dirs.beginOp.Sat u (fun _ t ↦ Holds x (s.addOp .begin) m k t) fun _ ↦ False :=
  ⟨h.disk, congrArg (· ++ [LogOp.begin]) h.ops, h.nodup, h.entry⟩

theorem endOp (h : Holds x s m k u) : Dirs.endOp.Sat u (fun _ t ↦ Holds x (s.addOp .end) m k t) fun _ ↦ False :=
  ⟨h.disk, congrArg (· ++ [LogOp.end]) h.ops, h.nodup, h.entry⟩

/-- A step that changes the inode `i` only, for `s` as for `u`. -/
theorem change (h : Holds x s m k u) (i : ℕ) {x' : Option ℕ} {s' : Dirs} {m' k' : Multiset ℕ} (hdisk : t.disk = s'.disk)
    (hops : t.ops = s'.ops) (hnodup : k'.Nodup) (hi : Has x' s' m' k' t i)
    (hother : ∀ j, j ≠ i → Has x s m k u j → Has x' s' m' k' t j) : Holds x' s' m' k' t := by
  refine ⟨hdisk, hops, hnodup, fun j ↦ ?_⟩
  rcases eq_or_ne j i with rfl | hj
  · exact hi
  · exact hother j hj (h.entry j)

/-- `iget` adds a reference. -/
theorem iget (h : Holds x s m k u) : (Dirs.iget i).Sat u (fun _ t ↦ Holds x s (i ::ₘ m) k t) fun _ ↦ False := by
  obtain ⟨href, hlocked, hstays, hsame, hread, hkept⟩ := h.entry i
  show Holds x s (i ::ₘ m) k (if 0 < u.ref i then u.setRef i (u.ref i + 1) else (u.setRef i 1).setValid i false)
  split
  · exact h.change i h.disk h.ops h.nodup (by constructor <;> simp_all; omega) fun j hj hold ↦ by simpa [hj] using hold
  · -- nobody refers to the inode, so nothing is forgotten with the old entry
    exact h.change i h.disk h.ops h.nodup (by constructor <;> simp_all) fun j hj hold ↦ by simpa [hj] using hold

/-- A reference more to an inode that is in the cache is what `iget` gives. -/
theorem idup (h : Holds x s m k u) (hpos : 0 < u.ref i) :
    (Dirs.idup i).Sat u (fun _ t ↦ Holds x s (i ::ₘ m) k t) fun _ ↦ False := by
  have hget : Holds x s (i ::ₘ m) k
      (if 0 < u.ref i then u.setRef i (u.ref i + 1) else (u.setRef i 1).setValid i false) := h.iget
  rw [if_pos hpos] at hget
  exact hget

/-- `ilock` reads the inode if need be, and panics if it is free. -/
theorem ilock (h : Holds x s (i ::ₘ m) k u) (hk : i ∉ k) :
    (Dirs.ilock i).Sat u (fun _ t ↦ Holds x s (i ::ₘ m) (i ::ₘ k) t ∧ (s.disk i).type ≠ 0)
      fun e ↦ e = .panic .ilockNoType ∧ (s.disk i).type = 0 := by
  have hpos := h.mem_ref
  have hnodup : (i ::ₘ k).Nodup := nodup_cons.2 ⟨hk, h.nodup⟩
  obtain ⟨href, hlocked, hstays, hsame, hread, hkept⟩ := h.entry i
  rw [Dirs.ilock, Prog.sat_get_bind, if_neg (by omega), if_neg (mt hlocked.1 hk)]
  split
  next hv =>
    exact ⟨h.change i h.disk h.ops hnodup (by constructor <;> simp_all) fun j hj hold ↦ by simpa [hj] using hold,
      (hsame hpos hv).2⟩
  next hv =>
    have hdisk := congrFun h.disk i
    rw [hdisk]
    split
    next htype => exact ⟨rfl, htype⟩
    next htype =>
      exact ⟨h.change i h.disk h.ops hnodup (by constructor <;> simp_all) fun j hj hold ↦ by simpa [hj] using hold, htype⟩

/-- `iunlock` leaves the inode in the cache. -/
theorem iunlock (h : Holds x s m (i ::ₘ k) u) :
    (Dirs.iunlock i).Sat u (fun _ t ↦ Holds x s m k t) fun _ ↦ False := by
  obtain ⟨hi, hnodup⟩ := nodup_cons.1 h.nodup
  obtain ⟨href, hlocked, hstays, hsame, hread, hkept⟩ := h.entry i
  have hself := mem_cons_self i k
  obtain ⟨hpos, hv⟩ := hread hself
  rw [Dirs.iunlock, Prog.sat_get_bind, if_neg (not_or.2 ⟨ne_false_of_eq_true (hlocked.2 hself), by omega⟩)]
  exact h.change i h.disk h.ops hnodup (by constructor <;> simp_all) fun j hj hold ↦ by simpa [hj] using hold

/-- The last reference to an inode with links, or not the last one, is dropped. -/
theorem iput (h : Holds x s (i ::ₘ m) k u) (hk : i ∉ k)
    (hkept : (s.disk i).type ≠ 0 → (s.disk i).nlink = 0 → 0 < s.ref i + m.count i) :
    (Dirs.iput i).Sat u (fun _ t ↦ Holds x s m k t) fun _ ↦ False := by
  obtain ⟨href, hlocked, hstays, hsame, hread, hkept'⟩ := h.entry i
  rw [count_cons_self] at href
  rw [Dirs.iput, Prog.sat_get_bind, if_neg (mt hlocked.1 hk), if_neg (by
    intro hfree
    obtain ⟨hv, hn, hone⟩ := hfree
    obtain ⟨hmem, htype⟩ := hsame (by omega) hv
    have := hkept htype (hmem ▸ hn)
    omega)]
  refine h.change i h.disk h.ops h.nodup ?_ fun j hj hold ↦ by simpa [hj] using hold
  simp only [Has, setRef_ref, setRef_mem, setRef_valid, setRef_locked, update_self]
  refine ⟨by omega, hlocked, hstays, fun hpos ↦ hsame (by omega), fun hi ↦ absurd hi hk, fun hx htype hn ↦ ?_⟩
  have := hkept htype hn
  exact ⟨by omega, (hkept' hx htype hn).2⟩

/-- A locked inode is changed in memory and on disk. -/
theorem updateNode (h : Holds x s m k u) (hi : i ∈ k) {f : DirNode → DirNode} (hf : (f (s.disk i)).type ≠ 0) :
    (Dirs.updateNode i f).Sat u (fun _ t ↦ Holds x (s.setDisk i (f (s.disk i))) m k t) fun _ ↦ False := by
  have hmem := h.mem_locked hi
  obtain ⟨href, hlocked, hstays, hsame, hread, hkept⟩ := h.entry i
  refine h.change i ?_ h.ops h.nodup (by constructor <;> simp_all) fun j hj hold ↦ by simpa [hj] using hold
  show update u.disk i (update u.mem i (f (u.mem i)) i) = update s.disk i (f (s.disk i))
  rw [update_self, hmem, h.disk]

/-- `iunlockput`, where it does not free the inode. -/
theorem iunlockput (h : Holds x s (i ::ₘ m) (i ::ₘ k) u)
    (hkept : (s.disk i).type ≠ 0 → (s.disk i).nlink = 0 → 0 < s.ref i + m.count i) :
    (Dirs.iunlockput i).Sat u (fun _ t ↦ Holds x s m k t) fun _ ↦ False :=
  h.iunlock.bind fun _ _ hv ↦ hv.iput (nodup_cons.1 h.nodup).1 hkept

end Holds

/-! ### Directories -/

namespace Holds

variable {x : Option ℕ} {s t u : Dirs} {m k : Multiset ℕ} {dp : ℕ} {name : Name}

/-- `dirlookup` for a name that is not there. -/
theorem dirlookup_none (h : Holds x s m k u) (hk : dp ∈ k) (hdir : (s.disk dp).type = T_DIR)
    (hl : (s.disk dp).lookup name = none) :
    (Dirs.dirlookup dp name).Sat u (fun r t ↦ r = none ∧ Holds x s m k t) fun _ ↦ False := by
  rw [Dirs.dirlookup, Prog.sat_get_bind, h.mem_locked hk, if_neg (not_not.2 hdir), hl]
  exact ⟨rfl, h⟩

variable {i j : ℕ}

/-- For one that is there, it takes a reference. -/
theorem dirlookup_some (h : Holds x s m k u) (hk : dp ∈ k) (hdir : (s.disk dp).type = T_DIR)
    (hl : (s.disk dp).lookup name = some (i, j)) :
    (Dirs.dirlookup dp name).Sat u (fun r t ↦ r = some (i, j) ∧ Holds x s (i ::ₘ m) k t) fun _ ↦ False := by
  rw [Dirs.dirlookup, Prog.sat_get_bind, h.mem_locked hk, if_neg (not_not.2 hdir), hl]
  exact h.iget.bind fun _ t ht ↦ ⟨rfl, ht⟩

/-- If the name is present, then nothing is written. If it stands for an inode that the caller has locked, then `iput`
waits for ever. -/
theorem dirlink (h : Holds x s m k u) (hk : dp ∈ k) (hdir : (s.disk dp).type = T_DIR) (hkept : s.KeptBy m) :
    (Dirs.dirlink dp name i).Sat u (fun r t ↦ r = false → Holds x s m k t) fun _ ↦ True := by
  rw [Dirs.dirlink]
  cases hl : (s.disk dp).lookup name with
  | none =>
    refine (h.dirlookup_none hk hdir hl).bind_returns fun r v hv ↦ ?_
    obtain ⟨rfl, -⟩ := hv
    exact (Prog.sat_true _ _).bind fun _ _ _ ↦ (Prog.sat_true _ _).bind fun _ _ _ h ↦ nomatch h
  | some found =>
    refine (h.dirlookup_some hk hdir hl).bind_returns fun r v hv ↦ ?_
    obtain ⟨rfl, hv⟩ := hv
    by_cases hj : found.1 ∈ k
    · refine Prog.sat_bind.2 ?_
      rw [Dirs.iput, Prog.sat_get_bind, if_pos ((hv.entry _).locked_iff.2 hj)]
      trivial
    · exact (hv.iput hj (hkept _)).bind_returns fun _ t ht _ ↦ ht

end Holds

/-! ### Path names -/

/-- Where the walk along a path starts. -/
def start (cwd : ℕ) (path : PathName) : ℕ := if path.head? = some slash then ROOTINO else cwd

/-- What the entries on disk give for `namex`: the inode of all names, or with `nameiparent` the directory of all names
but the last one, and that name. -/
def target (disk : ℕ → DirNode) (nameiparent : Bool) (names : List Name) (ip : ℕ) : Option (ℕ × Name) :=
  if nameiparent then
    (resolve disk names.dropLast ip).bind fun i ↦
      if (disk i).type = T_DIR then names.getLast?.map fun name ↦ (i, name) else none
  else
    (resolve disk names ip).map fun i ↦ (i, [])

/-- One turn of the loop of `namex`. -/
theorem target_cons {disk : ℕ → DirNode} {b : Bool} {name : Name} {names : List Name} {ip : ℕ} :
    target disk b (name :: names) ip = if (disk ip).type = T_DIR then
        if b ∧ names = [] then some (ip, name)
        else ((disk ip).lookup name).bind fun found ↦ target disk b names found.1 else none := by
  cases b with
  | false => by_cases h : (disk ip).type = T_DIR <;> simp [target, resolve, h, Option.map_bind]
  | true => cases names <;> by_cases h : (disk ip).type = T_DIR <;> simp [target, resolve, h, Option.bind_assoc]

/-- The walk comes to an inode that is free. -/
def MeetsFree (disk : ℕ → DirNode) (names : List Name) (ip : ℕ) : Prop :=
  ∃ k < names.length, ∃ i, resolve disk (names.take k) ip = some i ∧ (disk i).type = 0

/-- `skipelem` goes on in the path. -/
theorem length_skipelem {path rest : PathName} {name : Name} (h : skipelem path = some (rest, name)) :
    rest.length < path.length := by
  rw [skipelem] at h
  have hle := (List.dropWhile_suffix (· = slash) (l := path)).length_le
  cases hpath : path.dropWhile (· = slash) with
  | nil =>
    rw [hpath] at h
    cases h
  | cons b p =>
    have hb : b ≠ slash := by simpa [hpath] using List.head?_dropWhile_not (· = slash) path
    rw [hpath] at h hle
    obtain ⟨rfl, -⟩ := Prod.mk.inj (Option.some.inj h)
    rw [List.dropWhile_cons_of_pos (by simpa using hb)]
    exact ((List.dropWhile_suffix _).trans (List.dropWhile_suffix (· ≠ slash) (l := p))).length_le.trans_lt hle

/-- What is left of a path after an element is empty if there are no more elements. -/
theorem elementsIn_eq_nil {path rest : PathName} {name : Name} (h : skipelem path = some (rest, name)) {n : ℕ}
    (hn : 0 < n) : elementsIn n rest = [] ↔ rest = [] := by
  have hdrop : rest.dropWhile (· = slash) = rest := by
    rw [skipelem] at h
    split at h
    · cases h
    · obtain ⟨rfl, -⟩ := Prod.mk.inj (Option.some.inj h)
      exact List.dropWhile_idempotent _ _
  obtain ⟨n, rfl⟩ : ∃ k, n = k + 1 := ⟨n - 1, by omega⟩
  rw [elementsIn, skipelem, hdrop]
  cases rest <;> simp

/-- What `namex` does: it frees nothing, and has a reference to what it returns. -/
def Walks (x : Option ℕ) (s : Dirs) (m : Multiset ℕ) (b : Bool) (r : Option (ℕ × Name)) (t : Dirs) : Prop :=
  (r = none ∧ Holds x s m 0 t) ∨
    ∃ i name, r = some (i, name) ∧ Holds x s (i ::ₘ m) 0 t ∧ (b = true → (s.disk i).type = T_DIR)

namespace Holds

variable {x : Option ℕ} {s t u : Dirs} {m : Multiset ℕ}

/-- The loop of `namex` goes through the elements of the path. -/
theorem namexLoop (hkept : s.KeptBy m) (b : Bool) {n : ℕ} {path : PathName} (hn : path.length < n) {ip : ℕ}
    (h : Holds x s (ip ::ₘ m) 0 u) : (Dirs.namexLoop b n path ip).Sat u
      (fun r t ↦ Walks x s m b r t ∧ r = target s.disk b (elementsIn n path) ip)
      fun e ↦ e = .panic .ilockNoType ∧ MeetsFree s.disk (elementsIn n path) ip := by
  induction n generalizing path ip u with
  | zero => exact absurd hn (Nat.not_lt_zero _)
  | succ n ih =>
  rw [Dirs.namexLoop, elementsIn]
  cases hskip : skipelem path with
  | none =>
    dsimp only
    rw [target]
    split
    · exact (h.iput (notMem_zero _) (hkept ip)).bind_returns fun _ t ht ↦ ⟨Or.inl ⟨rfl, ht⟩, by simp [resolve]⟩
    next hb => exact ⟨Or.inr ⟨ip, [], rfl, h, fun hb' ↦ absurd hb' hb⟩, rfl⟩
  | some found =>
    obtain ⟨rest, name⟩ := found
    have hrest := length_skipelem hskip
    obtain ⟨names, hnames⟩ : ∃ names, names = elementsIn n rest := ⟨_, rfl⟩
    have hnil : names = [] ↔ rest = [] := hnames ▸ elementsIn_eq_nil hskip (by omega)
    have hself := mem_singleton_self ip
    dsimp only
    rw [← hnames, target_cons]
    simp only [hnil]
    refine ((h.ilock (notMem_zero _)).imp_error fun _ he ↦
      ⟨he.1, 0, Nat.succ_pos _, ip, rfl, he.2⟩).bind fun _ v hv ↦ ?_
    obtain ⟨hv, htype⟩ := hv
    rw [Prog.sat_get_bind, hv.mem_locked hself]
    split
    · exact (hv.iunlockput (hkept ip)).bind_returns fun _ t ht ↦ ⟨Or.inl ⟨rfl, ht⟩, rfl⟩
    next hdir =>
      rw [not_not] at hdir
      split
      · exact hv.iunlock.bind_returns fun _ t ht ↦ ⟨Or.inr ⟨ip, name, rfl, ht, fun _ ↦ hdir⟩, rfl⟩
      · cases hl : (s.disk ip).lookup name with
        | none =>
          refine (hv.dirlookup_none hself hdir hl).bind_returns fun r w hw ↦ ?_
          obtain ⟨rfl, hw⟩ := hw
          exact (hw.iunlockput (hkept ip)).bind_returns fun _ t ht ↦ ⟨Or.inl ⟨rfl, ht⟩, rfl⟩
        | some found =>
          obtain ⟨next, j⟩ := found
          have hresolve (names : List Name) : resolve s.disk (name :: names) ip = resolve s.disk names next := by
            rw [resolve, if_pos hdir, hl]
            rfl
          refine (hv.dirlookup_some hself hdir hl).bind_returns fun r w hw ↦ ?_
          obtain ⟨rfl, hw⟩ := hw
          refine (hw.swap.iunlockput (hkept.cons next ip)).bind_returns fun _ t ht ↦ ?_
          rw [hnames]
          refine (ih (by omega) ht).imp_error fun e he ↦ ?_
          obtain ⟨he, k, hk, i, hi, htype⟩ := he
          exact ⟨he, k + 1, Nat.succ_lt_succ hk, i, (hresolve _).trans hi, htype⟩

/-- `namex` finds what the entries on disk say, and drops what it held on the way. -/
theorem namex (hkept : s.KeptBy m) {cwd : ℕ} (hcwd : 0 < s.ref cwd) (path : PathName) (b : Bool)
    (h : Holds x s m 0 u) : (Dirs.namex cwd path b).Sat u (fun r t ↦
        Walks x s m b r t ∧ r = target s.disk b (elements path) (start cwd path))
      fun e ↦ e = .panic .ilockNoType ∧ MeetsFree s.disk (elements path) (start cwd path) := by
  rw [Dirs.namex, start]
  split
  · exact h.iget.bind_returns fun _ t ht ↦ ht.namexLoop hkept b (Nat.lt_succ_self _)
  · have hpos : 0 < u.ref cwd := by
      rw [(h.entry cwd).ref_eq]
      omega
    exact (h.idup hpos).bind_returns fun _ t ht ↦ ht.namexLoop hkept b (Nat.lt_succ_self _)

end Holds

end Dirs

end Xv6
