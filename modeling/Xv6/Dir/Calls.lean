import Xv6.Dir.Cache

/-!
# The system calls on names, and how they fail

Each call is reduced to the part in which it changes something. After an exit before that part the references, the locks
and the inodes are what they were (`Holds`), and the operation has been ended; so a call that returns -1 has changed
nothing (`failed_call`). After the other exits inodes have changed, but the cache is in order (`Left`): the call has
unlocked what it has locked, and has freed an inode without links with the last reference to it. So what `failed_call`
asks of the state, which holds after `mkfs`, is kept by all calls (`run_atRest`).
-/

namespace Xv6

open Function Prog Multiset

namespace Dirs

/-- No call is under way: nobody has locked an inode, and what the cache has read is what is on disk. -/
structure AtRest (s : Dirs) : Prop where
  locked : ∀ i, s.locked i = false
  same : ∀ i, 0 < s.ref i → s.valid i = true → s.mem i = s.disk i ∧ (s.disk i).type ≠ 0

/-- A call that has the references `m`, next to `r`, and the locks `k` has left the cache in order. -/
def Left (r : ℕ → ℕ) (m k : Multiset ℕ) (t : Dirs) : Prop := ∃ s, s.ref = r ∧ Holds none s m k t

/-- An operation has begun and ended. -/
def inOp (s : Dirs) : Dirs := (s.addOp .begin).addOp .end

variable {s u : Dirs} {m k : Multiset ℕ} {r : ℕ → ℕ} {cwd i dp : ℕ}

theorem AtRest.holds (h : s.AtRest) (hkept : s.Kept) : Holds none s 0 0 s :=
  ⟨rfl, rfl, nodup_zero, fun i ↦ ⟨rfl, by simp [h.locked i], fun _ h ↦ h, h.same i, nofun, fun _ ↦ hkept i⟩⟩

/-- The end of a call that keeps the references `m`. -/
theorem Left.atRest (h : Left r m 0 u) : u.AtRest ∧ u.Kept ∧ ∀ i, u.ref i = r i + m.count i := by
  obtain ⟨s, rfl, h⟩ := h
  refine ⟨⟨fun i ↦ ?_, fun i ↦ h.disk ▸ (h.entry i).same⟩, fun i ↦ h.disk ▸ (h.entry i).kept nofun,
    fun i ↦ (h.entry i).ref_eq⟩
  exact Bool.eq_false_iff.2 fun hl ↦ notMem_zero i ((h.entry i).locked_iff.1 hl)

/-- `link` takes back the link that it has counted. -/
theorem addLinks_cancel (nd : DirNode) : (nd.addLinks 1).addLinks (-1) = nd := by
  obtain ⟨type, major, minor, nlink, ents⟩ := nd
  rw [DirNode.addLinks, DirNode.addLinks, BitVec.add_assoc, show (1 : Short) + -1 = 0#16 by decide, BitVec.add_zero]

theorem setDisk_setDisk (s : Dirs) (i : ℕ) (nd nd' : DirNode) :
    (s.setDisk i nd).setDisk i nd' = s.setDisk i nd' := by
  rw [setDisk, setDisk, setDisk, update_idem]

/-- The rollback of `link`. -/
theorem setDisk_addLinks_cancel (s : Dirs) (i : ℕ) : (s.setDisk i ((s.disk i).addLinks 1)).setDisk i
      (((s.setDisk i ((s.disk i).addLinks 1)).disk i).addLinks (-1)) = s := by
  rw [setDisk_disk, update_self, addLinks_cancel, setDisk_setDisk, setDisk, update_eq_self]

/-! ### The cache in order -/

/-- The call has left the cache in order, and if the result is -1, then nothing has changed. -/
def Ended (s : Dirs) (n : ℤ) (t : Dirs) : Prop :=
  (n = -1 → Holds none s 0 0 t ∨ Holds none s.inOp 0 0 t) ∧ Left s.ref 0 0 t

namespace Left

/-- The exit of a call that has done its work. -/
theorem done (h : Left r 0 0 u) (hr : r = s.ref) :
    (do Dirs.endOp; return 0 : Naming ℤ).Sat u (Ended s) fun _ ↦ True := by
  obtain ⟨s', hs', h⟩ := h
  exact h.endOp.bind_returns fun _ t ht ↦ ⟨fun hn ↦ absurd hn (by decide), s'.addOp .end, hs'.trans hr, ht⟩

theorem swap {j : ℕ} (h : Left r (i ::ₘ j ::ₘ m) (i ::ₘ j ::ₘ k) u) : Left r (j ::ₘ i ::ₘ m) (j ::ₘ i ::ₘ k) u := by
  rwa [cons_swap i j m, cons_swap i j k] at h

/-- The last reference to an inode without links is dropped with the inode. -/
theorem iput (h : Left r (i ::ₘ m) k u) : (Dirs.iput i).Sat u (fun _ t ↦ Left r m k t) fun _ ↦ True := by
  obtain ⟨s, rfl, h⟩ := h
  obtain ⟨href, hlocked, hstays, hsame, hread, hkept⟩ := h.entry i
  rw [count_cons_self] at href
  by_cases hk : i ∈ k
  · rw [Dirs.iput, sat_get_bind, if_pos (hlocked.2 hk)]
    trivial
  by_cases hlast : (s.disk i).type ≠ 0 → (s.disk i).nlink = 0 → 0 < s.ref i + m.count i
  · exact (h.iput hk hlast).mono (fun _ t ht ↦ ⟨s, rfl, ht⟩) fun _ _ ↦ trivial
  · simp only [Classical.not_imp] at hlast
    obtain ⟨htype, hnlink, hzero⟩ := hlast
    obtain ⟨hpos, hv⟩ := hkept (Option.not_mem_none i) htype hnlink
    have hmem := (hsame hpos hv).1
    rw [Dirs.iput, sat_get_bind, if_neg (mt hlocked.1 hk), if_pos ⟨hv, hmem ▸ hnlink, by omega⟩]
    refine ⟨s.setDisk i (s.disk i).freed, rfl, h.change i ?_ h.ops h.nodup ?_ fun j hj hold ↦ by simpa [hj] using hold⟩
    · show update u.disk i (update u.mem i (u.mem i).freed i) = _
      rw [update_self, hmem, h.disk]
      rfl
    · constructor <;> simp_all

theorem iunlockput (h : Left r (i ::ₘ m) (i ::ₘ k) u) :
    (Dirs.iunlockput i).Sat u (fun _ t ↦ Left r m k t) fun _ ↦ True := by
  obtain ⟨s, rfl, h⟩ := h
  exact h.iunlock.bind_returns fun _ t ht ↦ iput ⟨s, rfl, ht⟩

theorem updateNode (h : Left r m k u) (hi : i ∈ k) {f : DirNode → DirNode} (hf : ∀ nd, (f nd).type = nd.type) :
    (Dirs.updateNode i f).Sat u (fun _ t ↦ Left r m k t) fun _ ↦ True := by
  obtain ⟨s, rfl, h⟩ := h
  obtain ⟨hpos, hv⟩ := (h.entry i).read hi
  have htype : (f (s.disk i)).type ≠ 0 := by
    rw [hf]
    exact ((h.entry i).same hpos hv).2
  exact (h.updateNode hi htype).mono (fun _ t ht ↦ ⟨s.setDisk i _, rfl, ht⟩) fun _ _ ↦ trivial

theorem addLinks (h : Left r m k u) (hi : i ∈ k) (d : Short) :
    (Dirs.updateNode i fun nd ↦ nd.addLinks d).Sat u (fun _ t ↦ Left r m k t) fun _ ↦ True :=
  h.updateNode hi fun _ ↦ rfl

theorem writeEntry (h : Left r m k u) (hi : dp ∈ k) (p : Panic) (n : ℕ) (e : Dirent) :
    (Dirs.writeEntry p dp n e).Sat u (fun _ t ↦ Left r m k t) fun _ ↦ True := by
  rw [Dirs.writeEntry]
  split
  · trivial
  · exact h.updateNode hi fun _ ↦ rfl

theorem dirlink (h : Left r m k u) (hi : dp ∈ k) (name : Name) :
    (Dirs.dirlink dp name i).Sat u (fun _ t ↦ Left r m k t) fun _ ↦ True := by
  rw [Dirs.dirlink, sat_bind, dirlookup, sat_get_bind]
  split
  · trivial
  split
  · rw [sat_pure, sat_get_bind]
    exact (h.writeEntry hi ..).bind fun _ t ht ↦ ht
  · obtain ⟨s, rfl, h⟩ := h
    refine h.iget.bind_returns fun _ t ht ↦ ?_
    exact (iput ⟨s, rfl, ht⟩).bind fun _ t ht ↦ ht

/-- The entry is removed, by the rest of `removeEntry`. -/
theorem removed (h : Left r (i ::ₘ {dp}) (i ::ₘ {dp}) u) (hr : r = s.ref) (n : ℕ) (dir : Prop) [Decidable dir] : (do
    Dirs.writeEntry .unlinkWritei dp n .zero
    if dir then
      Dirs.updateNode dp fun nd ↦ nd.addLinks (-1)
    Dirs.iunlockput dp
    Dirs.updateNode i fun nd ↦ nd.addLinks (-1)
    Dirs.iunlockput i
    Dirs.endOp
    return 0 : Naming ℤ).Sat u (Ended s) fun _ ↦ True := by
  have hdp : dp ∈ i ::ₘ {dp} := by simp
  have hdone : ∀ {t}, Left r (i ::ₘ {dp}) (i ::ₘ {dp}) t → (do
      Dirs.iunlockput dp
      Dirs.updateNode i fun nd ↦ nd.addLinks (-1)
      Dirs.iunlockput i
      Dirs.endOp
      return 0 : Naming ℤ).Sat t (Ended s) fun _ ↦ True := fun ht ↦
    ht.swap.iunlockput.bind fun _ t ht ↦ (ht.addLinks (mem_cons_self ..) _).bind fun _ t ht ↦
      ht.iunlockput.bind fun _ t ht ↦ ht.done hr
  refine (h.writeEntry hdp ..).bind fun _ t ht ↦ ?_
  split
  · exact (ht.addLinks hdp _).bind fun _ t ht ↦ hdone ht
  · exact hdone ht

theorem createDots (h : Left r m k u) (hdp : dp ∈ k) (hi : i ∈ k) :
    (Dirs.createDots dp i).Sat u (fun _ t ↦ Left r m k t) fun _ ↦ True := by
  refine (h.addLinks hdp _).bind fun _ t ht ↦ (ht.dirlink hi dot).bind fun b t ht ↦ ?_
  split
  · refine (ht.dirlink hi dotdot).bind fun b t ht ↦ ?_
    split
    · exact ht
    · trivial
  · trivial

/-- A new inode that has got a link. -/
theorem of_new {s : Dirs} (h : Holds (some i) s m k u) (hi : (s.disk i).nlink ≠ 0) : Left s.ref m k u := by
  refine ⟨s, rfl, h.disk, h.ops, h.nodup, fun j ↦ ?_⟩
  rcases eq_or_ne j i with rfl | hj
  · exact { h.entry j with kept := fun _ _ hn ↦ absurd hn hi }
  · simpa [hj.symm] using h.entry j

/-- `create` takes an inode that nobody has read, and gives it a link. -/
theorem createNew (h : Left r (dp ::ₘ m) (dp ::ₘ k) u) (sb : Superblock) (name : Name) (type major minor : Short) :
    (Dirs.createNew sb dp name type major minor).Sat u (fun y t ↦ ∃ i, y = some i ∧ Left r (i ::ₘ m) (i ::ₘ k) t)
      fun _ ↦ True := by
  obtain ⟨s, rfl, h⟩ := h
  rw [Dirs.createNew, sat_bind, ialloc, sat_get_bind]
  split
  · trivial
  next i hi =>
    have hfree := List.find?_some hi
    have htype : (s.disk i).type = 0 := h.disk ▸ (of_decide_eq_true hfree).2
    obtain ⟨href, hlocked, hstays, hsame, hread, hkept⟩ := h.entry i
    have hk : i ∉ dp ::ₘ k := fun hi ↦ (hsame (hread hi).1 (hread hi).2).2 htype
    have hnew : Holds (some i) (s.setDisk i (.fresh type)) (dp ::ₘ m) (dp ::ₘ k) (u.setDisk i (.fresh type)) :=
      h.change i (congrArg (update · i _) h.disk) h.ops h.nodup (by constructor <;> simp_all) fun j hj hold ↦ by
        simpa [hj, hj.symm] using hold
    rw [sat_modify_bind]
    refine hnew.iget.bind_returns fun _ t ht ↦ (ht.ilock hk).bind_true fun _ t ht ↦ ?_
    have hdp : dp ∈ i ::ₘ dp ::ₘ k := by simp
    have hdone : ∀ {t}, Left s.ref (i ::ₘ dp ::ₘ m) (i ::ₘ dp ::ₘ k) t → (do
        if ← Dirs.dirlink dp name i then
          Dirs.iunlockput dp
          return some i
        else
          fail (.panic .createDirlink) : Naming (Option ℕ)).Sat t
        (fun y t ↦ ∃ i, y = some i ∧ Left s.ref (i ::ₘ m) (i ::ₘ k) t) fun _ ↦ True := by
      refine fun ht ↦ (ht.dirlink hdp name).bind fun b t ht ↦ ?_
      split
      · exact ht.swap.iunlockput.bind fun _ t ht ↦ ⟨i, rfl, ht⟩
      · trivial
    refine (ht.1.updateNode (mem_cons_self ..) ht.2).bind_returns fun _ t ht ↦ ?_
    have hleft := of_new ht (by simp)
    split
    · exact (hleft.createDots hdp (mem_cons_self ..)).bind fun _ t ht ↦ hdone ht
    · exact hdone hleft

end Left

/-! ### Calls that fail -/

/-- A call on names. -/
inductive DirCall where
  /-- `link(old, new)` -/
  | link (old new : Option PathName)
  /-- `unlink(path)` -/
  | unlink (path : Option PathName)
  /-- `mkdir(path)` -/
  | mkdir (path : Option PathName)
  /-- `mknod(path, major, minor)` -/
  | mknod (path : Option PathName) (major minor : Option Word)
  /-- `chdir(path)` -/
  | chdir (path : Option PathName)

/-- The call, by a process with the current directory `cwd`. Returns the current directory with the result. -/
def DirCall.run (sb : Superblock) (cwd : ℕ) : DirCall → Naming (ℤ × ℕ)
  | link old new => do return (← Dirs.link cwd old new, cwd)
  | unlink path => do return (← Dirs.unlink cwd path, cwd)
  | mkdir path => do return (← Dirs.mkdir sb cwd path, cwd)
  | mknod path major minor => do return (← Dirs.mknod sb cwd path major minor, cwd)
  | chdir path => Dirs.chdir cwd path

/-- The exit of a call that has given back what it had. -/
theorem failed_endOp {t : Dirs} (h : Holds none (s.addOp .begin) 0 0 t) :
    (do endOp; return -1 : Naming ℤ).Sat t (Ended s) fun _ ↦ True :=
  h.endOp.bind_returns fun _ _ ht ↦ ⟨fun _ ↦ Or.inr ht, s.inOp, rfl, ht⟩

/-- The second half of `link`. -/
theorem Holds.linkAt {ip : ℕ} (hkept : s.KeptBy m) (hcwd : 0 < s.ref cwd) (h : Holds none s m 0 u) (new : PathName) :
    (Dirs.linkAt cwd new ip).Sat u (fun r t ↦ Left s.ref m 0 t ∧ (r = false → Holds none s m 0 t)) fun _ ↦ True := by
  rw [Dirs.linkAt]
  refine (h.namex hkept hcwd new true).bind_true fun r v hwalk ↦ ?_
  rcases hwalk.1 with ⟨rfl, hv⟩ | ⟨dp, name, rfl, hv, hdir⟩
  · exact ⟨⟨s, rfl, hv⟩, fun _ ↦ hv⟩
  · refine (hv.ilock (notMem_zero _)).bind_true fun _ w hw ↦ ?_
    have hself := mem_singleton_self dp
    have hleft : Left s.ref (dp ::ₘ m) {dp} w := ⟨s, rfl, hw.1⟩
    refine ((hleft.dirlink hself name).and (hw.1.dirlink hself (hdir rfl) (hkept.cons dp))).bind_true fun made x hx ↦ ?_
    cases made with
    | true => exact hx.1.iunlockput.bind fun _ t ht ↦ ⟨ht, nofun⟩
    | false => exact ((hx.2 rfl).iunlockput (hkept dp)).bind_returns fun _ t ht ↦ ⟨⟨s, rfl, ht⟩, fun _ ↦ ht⟩

/-- `create` returns a locked inode, or nothing has been made. -/
theorem Holds.create {sb : Superblock} {type major minor : Short} (hkept : s.KeptBy m) (hcwd : 0 < s.ref cwd)
    (h : Holds none s m 0 u) (path : PathName) : (Dirs.create sb cwd path type major minor).Sat u
      (fun y t ↦ (∃ i, y = some i ∧ Left s.ref (i ::ₘ m) {i} t) ∨ y = none ∧ Holds none s m 0 t) fun _ ↦ True := by
  rw [Dirs.create]
  refine (h.namex hkept hcwd path true).bind_true fun r u₂ hwalk ↦ ?_
  rcases hwalk.1 with ⟨rfl, h₂⟩ | ⟨dp, name, rfl, h₂, hdir⟩
  · exact .inr ⟨rfl, h₂⟩
  · have hself := mem_singleton_self dp
    refine (h₂.ilock (notMem_zero _)).bind_true fun _ u₃ h₃ ↦ ?_
    cases hl : (s.disk dp).lookup name with
    | none =>
      refine (h₃.1.dirlookup_none hself (hdir rfl) hl).bind_returns fun r u₄ h₄ ↦ ?_
      obtain ⟨rfl, h₄⟩ := h₄
      have hleft : Left s.ref (dp ::ₘ m) {dp} u₄ := ⟨s, rfl, h₄⟩
      exact (hleft.createNew sb name type major minor).imp fun _ _ ↦ .inl
    | some found =>
      refine (h₃.1.dirlookup_some hself (hdir rfl) hl).bind_returns fun r u₄ h₄ ↦ ?_
      obtain ⟨rfl, h₄⟩ := h₄
      refine (h₄.swap.iunlockput (hkept.cons _ dp)).bind_returns fun _ u₅ h₅ ↦ ?_
      refine (h₅.ilock (notMem_zero _)).bind_true fun _ u₆ h₆ ↦ ?_
      rw [sat_get_bind]
      split
      · exact .inl ⟨_, rfl, s, rfl, h₆.1⟩
      · exact (h₆.1.iunlockput (hkept _)).bind_returns fun _ t ht ↦ .inr ⟨rfl, ht⟩

/-- The reference of the caller to its current directory becomes one of the call. -/
theorem Holds.disown (h : Holds none s m k u) (hpos : 0 < s.ref i) : Left (update s.ref i (s.ref i - 1)) (i ::ₘ m) k u := by
  obtain ⟨href, hlocked, hstays, hsame, hread, hkept⟩ := h.entry i
  refine ⟨s.setRef i (s.ref i - 1), rfl, h.change i h.disk h.ops h.nodup ?_ fun j hj hold ↦ by simpa [hj] using hold⟩
  constructor <;> simp_all; omega

/-- After a call that returns, and with it the current directory. -/
structure Finished (s : Dirs) (cwd : ℕ) (y : ℤ × ℕ) (t : Dirs) : Prop where
  failed : y.1 = -1 → y.2 = cwd ∧ (Holds none s 0 0 t ∨ Holds none s.inOp 0 0 t)
  atRest : t.AtRest
  kept : t.Kept
  /-- Only the reference to the current directory moves. -/
  ref : ∀ i, t.ref i + ({cwd} : Multiset ℕ).count i = s.ref i + ({y.2} : Multiset ℕ).count i

theorem Ended.finished {n : ℤ} {t : Dirs} (h : Ended s n t) : Finished s cwd (n, cwd) t := by
  obtain ⟨hrest, hkept, href⟩ := h.2.atRest
  exact ⟨fun hn ↦ ⟨rfl, h.1 hn⟩, hrest, hkept, fun i ↦ congrArg (· + _) (href i)⟩

section AtRest

variable (hholds : Holds none s 0 0 s) (hkept : (s.addOp .begin).KeptBy 0) (hcwd : 0 < s.ref cwd)

include hholds hkept hcwd

/-- `link`. -/
theorem ended_link (old new : Option PathName) : (Dirs.link cwd old new).Sat s (Ended s) fun _ ↦ True := by
  cases old with
  | none => exact ⟨fun _ ↦ Or.inl hholds, s, rfl, hholds⟩
  | some old =>
    cases new with
    | none => exact ⟨fun _ ↦ Or.inl hholds, s, rfl, hholds⟩
    | some new =>
      rw [Dirs.link, linkPaths]
      refine hholds.beginOp.bind_returns fun _ u₁ h₁ ↦ ?_
      refine (h₁.namex hkept hcwd old false).bind_true fun r u₂ hwalk ↦ ?_
      rcases hwalk.1 with ⟨rfl, h₂⟩ | ⟨ip, name, rfl, h₂, -⟩
      · exact failed_endOp h₂
      · have hself := mem_singleton_self ip
        refine (h₂.ilock (notMem_zero _)).bind_true fun _ u₃ h₃ ↦ ?_
        obtain ⟨h₃, htype⟩ := h₃
        rw [sat_get_bind, h₃.mem_locked hself]
        split
        · exact (h₃.iunlockput (hkept ip)).bind_returns fun _ t ht ↦ failed_endOp ht
        · have hkept₁ : ((s.addOp .begin).setDisk ip ((s.disk ip).addLinks 1)).KeptBy {ip} := by
            intro i hi hnlink
            by_cases hip : i = ip
            · rw [hip, count_singleton_self]
              exact Nat.succ_pos _
            · rw [setDisk_disk, update_of_ne hip] at hi hnlink
              exact hkept.cons ip i hi hnlink
          refine (h₃.updateNode hself htype).bind_returns fun _ u₄ h₄ ↦ ?_
          refine h₄.iunlock.bind_returns fun _ u₅ h₅ ↦ ?_
          refine (h₅.linkAt hkept₁ hcwd new).bind fun made u₆ h₆ ↦ ?_
          cases made with
          | true => exact h₆.1.iput.bind fun _ t ht ↦ ht.done rfl
          | false =>
            refine ((h₆.2 rfl).ilock (notMem_zero _)).bind_true fun _ u₇ h₇ ↦ ?_
            refine (h₇.1.updateNode hself (by rw [DirNode.addLinks_type]; exact h₇.2)).bind_returns fun _ u₈ h₈ ↦ ?_
            have hback : Holds none (s.addOp .begin) {ip} {ip} u₈ := by
              have hcancel := setDisk_addLinks_cancel (s.addOp .begin) ip
              exact hcancel ▸ h₈
            exact (hback.iunlockput (hkept ip)).bind_returns fun _ t ht ↦ failed_endOp ht

/-- `unlink`. -/
theorem ended_unlink (path : Option PathName) : (Dirs.unlink cwd path).Sat s (Ended s) fun _ ↦ True := by
  cases path with
  | none => exact ⟨fun _ ↦ Or.inl hholds, s, rfl, hholds⟩
  | some path =>
    rw [Dirs.unlink, unlinkPath]
    refine hholds.beginOp.bind_returns fun _ u₁ h₁ ↦ ?_
    refine (h₁.namex hkept hcwd path true).bind_true fun r u₂ hwalk ↦ ?_
    rcases hwalk.1 with ⟨rfl, h₂⟩ | ⟨dp, name, rfl, h₂, hdir⟩
    · exact failed_endOp h₂
    · have hself := mem_singleton_self dp
      refine (h₂.ilock (notMem_zero _)).bind_true fun _ u₃ h₃ ↦ ?_
      have hput : ∀ {t}, Holds none (s.addOp .begin) {dp} {dp} t →
          (do iunlockput dp; endOp; return -1 : Naming ℤ).Sat t (Ended s) fun _ ↦ True := fun ht ↦
        (ht.iunlockput (hkept dp)).bind_returns fun _ t ht ↦ failed_endOp ht
      split
      · exact hput h₃.1
      · cases hl : (s.disk dp).lookup name with
        | none =>
          refine (h₃.1.dirlookup_none hself (hdir rfl) hl).bind_returns fun r u₄ h₄ ↦ ?_
          obtain ⟨rfl, h₄⟩ := h₄
          exact hput h₄
        | some found =>
          obtain ⟨ip, k⟩ := found
          refine (h₃.1.dirlookup_some hself (hdir rfl) hl).bind_returns fun r u₄ h₄ ↦ ?_
          obtain ⟨rfl, h₄⟩ := h₄
          by_cases hip : ip ∈ ({dp} : Multiset ℕ)
          · -- the entry names the directory itself, which is locked
            refine sat_bind.2 ?_
            have hpos := h₄.mem_ref
            rw [ilock, sat_get_bind, if_neg (by omega), if_pos ((h₄.entry ip).locked_iff.2 hip)]
            trivial
          · refine (h₄.ilock hip).bind_true fun _ u₅ h₅ ↦ ?_
            rw [removeEntry, sat_get_bind]
            split
            · trivial
            · split
              · exact (h₅.1.iunlockput (hkept.cons dp ip)).bind_returns fun _ v hv ↦ hput hv
              · have hleft : Left s.ref (ip ::ₘ {dp}) (ip ::ₘ {dp}) u₅ := ⟨s.addOp .begin, rfl, h₅.1⟩
                exact hleft.removed rfl k ((u₅.mem ip).type = T_DIR)

/-- `mkdir` or `mknod`. -/
theorem ended_makeNode (sb : Superblock) (path : Option PathName) (type major minor : Short) :
    (makeNode sb cwd path type major minor).Sat s (Ended s) fun _ ↦ True := by
  cases path with
  | none =>
    rw [makeNode]
    exact hholds.beginOp.bind_returns fun _ u₁ h₁ ↦ failed_endOp h₁
  | some path =>
    rw [makeNode]
    refine hholds.beginOp.bind_returns fun _ u₁ h₁ ↦ ?_
    refine (h₁.create hkept hcwd path).bind fun r u₂ h₂ ↦ ?_
    rcases h₂ with ⟨ip, rfl, h₂⟩ | ⟨rfl, h₂⟩
    · exact h₂.iunlockput.bind fun _ t ht ↦ ht.done rfl
    · exact failed_endOp h₂

/-- `chdir` gives up the reference to the old directory. -/
theorem finished_chdir (path : Option PathName) : (Dirs.chdir cwd path).Sat s (Finished s cwd) fun _ ↦ True := by
  have hend : ∀ t, Holds none (s.addOp .begin) 0 0 t →
      (do endOp; return (-1, cwd) : Naming (ℤ × ℕ)).Sat t (Finished s cwd) fun _ ↦ True := fun t ht ↦
    ht.endOp.bind_returns fun _ t ht ↦ Ended.finished ⟨fun _ ↦ Or.inr ht, s.inOp, rfl, ht⟩
  cases path with
  | none =>
    rw [Dirs.chdir]
    exact hholds.beginOp.bind_returns fun _ u₁ h₁ ↦ hend u₁ h₁
  | some path =>
    rw [Dirs.chdir]
    refine hholds.beginOp.bind_returns fun _ u₁ h₁ ↦ ?_
    refine (h₁.namex hkept hcwd path false).bind_true fun r u₂ hwalk ↦ ?_
    rcases hwalk.1 with ⟨rfl, h₂⟩ | ⟨ip, name, rfl, h₂, -⟩
    · exact hend u₂ h₂
    · refine (h₂.ilock (notMem_zero _)).bind_true fun _ u₃ h₃ ↦ ?_
      rw [sat_get_bind]
      split
      · exact (h₃.1.iunlockput (hkept ip)).bind_returns fun _ t ht ↦ hend t ht
      · refine h₃.1.iunlock.bind_returns fun _ u₄ h₄ ↦ (h₄.disown hcwd).iput.bind fun _ u₅ h₅ ↦ ?_
        obtain ⟨s', href, h₅⟩ := h₅
        refine h₅.endOp.bind_returns fun _ t ht ↦ ?_
        obtain ⟨hrest', hkept', href'⟩ := Left.atRest ⟨s'.addOp .end, href, ht⟩
        refine ⟨fun h ↦ absurd h (show (0 : ℤ) ≠ -1 by decide), hrest', hkept', fun i ↦ ?_⟩
        rw [href', update_apply, count_singleton]
        split
        next hi =>
          subst hi
          show s.ref i - 1 + count i {ip} + 1 = s.ref i + count i {ip}
          omega
        · rfl

/-- Every call. -/
theorem DirCall.run_finished (sb : Superblock) (c : DirCall) : (c.run sb cwd).Sat s (Finished s cwd) fun _ ↦ True := by
  have hsame : ∀ call : Naming ℤ, call.Sat s (Ended s) (fun _ ↦ True) →
      (do return (← call, cwd) : Naming (ℤ × ℕ)).Sat s (Finished s cwd) fun _ ↦ True :=
    fun call hcall ↦ hcall.bind fun r t ht ↦ ht.finished
  cases c with
  | link old new => exact hsame _ (ended_link hholds hkept hcwd old new)
  | unlink path => exact hsame _ (ended_unlink hholds hkept hcwd path)
  | mkdir path => exact hsame _ (ended_makeNode hholds hkept hcwd sb path T_DIR 0 0)
  | mknod path major minor =>
    refine hsame _ ?_
    have hnone := ended_makeNode hholds hkept hcwd sb none T_DEV 0 0
    cases major with
    | none => exact hnone
    | some major =>
      cases minor with
      | none => exact hnone
      | some minor => exact ended_makeNode hholds hkept hcwd sb path T_DEV _ _
  | chdir path => exact finished_chdir hholds hkept hcwd path

end AtRest

/-- What the theorems here ask of the state is true again after a call that returns. -/
theorem run_atRest {sb : Superblock} {c : DirCall} {n : ℤ} {cwd' : ℕ} {t : Dirs} (hrest : s.AtRest) (hkept : s.Kept)
    (hcwd : 0 < s.ref cwd) (hrun : (c.run sb cwd).run s = .ok ((n, cwd'), t)) : t.AtRest ∧ t.Kept ∧ 0 < t.ref cwd' := by
  obtain ⟨-, hrest', hkept', href⟩ := (c.run_finished (hrest.holds hkept) (hkept.keptBy 0) hcwd sb).of_ok hrun
  refine ⟨hrest', hkept', ?_⟩
  have hi := href cwd'
  rw [count_singleton_self, count_singleton] at hi
  split at hi
  next h =>
    subst h
    omega
  · omega

/-- It is true of the first process. After `mkfs` each allocated inode has a link, and nothing is in the cache before
`userinit` sets the current directory. -/
theorem atRest_userinit (hempty : ∀ i, s.ref i = 0) (hlocked : ∀ i, s.locked i = false)
    (hlinks : ∀ i, (s.disk i).type ≠ 0 → (s.disk i).nlink ≠ 0) : (namei cwd [slash]).Sat s
      (fun y t ↦ y = some (ROOTINO, []) ∧ t.AtRest ∧ t.Kept ∧ 0 < t.ref ROOTINO) fun _ ↦ False := by
  have hrest : s.AtRest := ⟨hlocked, fun i hpos ↦ absurd (hempty i) hpos.ne'⟩
  have hholds := hrest.holds fun i htype hnlink ↦ absurd hnlink (hlinks i htype)
  refine hholds.iget.bind fun _ t ht ↦ ⟨rfl, ?_⟩
  obtain ⟨hrest', hkept', -⟩ := Left.atRest ⟨s, rfl, ht⟩
  exact ⟨hrest', hkept', ht.mem_ref⟩

/-- A call on names that returns -1 has changed nothing: not the inodes, on disk or in memory, with the entries of the
directories, not the current directory, and no count of references; no inode is left locked, and the operation that the
call has begun it has ended. -/
theorem failed_call {sb : Superblock} {cwd' : ℕ} {c : DirCall} {t : Dirs} (hrest : s.AtRest) (hkept : s.Kept)
    (hcwd : 0 < s.ref cwd) (hrun : (c.run sb cwd).run s = .ok ((-1, cwd'), t)) :
    t.disk = s.disk ∧
    (∀ i, 0 < s.ref i → s.valid i = true → t.valid i = true ∧ t.mem i = s.mem i) ∧
    cwd' = cwd ∧
    t.ref = s.ref ∧
    (∀ i, t.locked i = false) ∧
    (t.ops = s.ops ∨ t.ops = s.ops ++ [.begin, .end]) := by
  obtain ⟨hfailed, hrest', -, href'⟩ := (c.run_finished (hrest.holds hkept) (hkept.keptBy 0) hcwd sb).of_ok hrun
  obtain ⟨rfl, hholds⟩ := hfailed rfl
  -- the two cases differ only in the operations
  obtain ⟨s', hs', hdisk, href, hvalid, hops⟩ : ∃ s', Holds none s' 0 0 t ∧ s'.disk = s.disk ∧ s'.ref = s.ref ∧
      s'.valid = s.valid ∧ (s'.ops = s.ops ∨ s'.ops = s.ops ++ [.begin, .end]) := by
    rcases hholds with h | h
    · exact ⟨s, h, rfl, rfl, rfl, Or.inl rfl⟩
    · exact ⟨s.inOp, h, rfl, rfl, rfl, Or.inr (List.append_assoc ..)⟩
  have href' : t.ref = s.ref := funext fun i ↦ Nat.add_right_cancel (href' i)
  refine ⟨hs'.disk.trans hdisk, fun i hpos hv ↦ ?_, rfl, href', hrest'.locked, hs'.ops ▸ hops⟩
  have htv := (hs'.entry i).stays (href ▸ hpos) (hvalid ▸ hv)
  refine ⟨htv, ?_⟩
  rw [(hrest'.same i (href' ▸ hpos) htv).1, hs'.disk, hdisk, (hrest.same i hpos hv).1]

/-- The `j`th of many names without slashes. -/
def nthName (j : ℕ) : Name :=
  [BitVec.ofNat 8 (128 + j % 128), BitVec.ofNat 8 (128 + j / 128 % 128), BitVec.ofNat 8 (128 + j / 16384 % 128)]

/-- A root directory with the links `nthName 0`, …, `nthName k` to one file. -/
def linkedNode (k i : ℕ) : DirNode :=
  if i = 1 then ⟨T_DIR, 0, 0, 1, ⟨1, dot⟩ :: ⟨1, dotdot⟩ :: (List.range (k + 1)).map fun j ↦ ⟨2, nthName j⟩⟩
  else if i = 2 then ⟨T_FILE, 0, 0, BitVec.ofNat 16 (k + 1), []⟩
  else .fresh 0

/-- A file system with a root directory, which is the current directory of a process, and in it the links
`nthName 0`, …, `nthName k` to one file, after `k` operations. -/
def links (k : ℕ) : Dirs where
  disk := linkedNode k
  mem := linkedNode k
  ref i := if i = 1 then 1 else 0
  valid i := decide (i = 1 ∨ i = 2)
  locked _ := false
  ops := (List.replicate k [LogOp.begin, .end]).flatten

theorem links_atRest (k : ℕ) : (links k).AtRest := by
  refine ⟨fun _ ↦ rfl, fun i hpos _ ↦ ⟨rfl, ?_⟩⟩
  have hi : i = 1 := by
    by_contra hne
    rw [links] at hpos
    simp [hne] at hpos
  rw [hi]
  show T_DIR ≠ 0
  decide

theorem links_kept : (links 0).Kept := by
  intro i htype hnlink
  by_cases h1 : i = 1
  · rw [h1]
    exact ⟨Nat.one_pos, rfl⟩
  · exfalso
    by_cases h2 : i = 2
    · rw [h2] at hnlink
      cases hnlink
    · refine htype ?_
      show (if i = 1 then _ else if i = 2 then _ else DirNode.fresh 0).type = 0
      rw [if_neg h1, if_neg h2]
      rfl

/-- A directory `..` cannot be made in the root directory. -/
theorem failed_call_mkdir : ∃ cwd' t,
    ((DirCall.mkdir (some dotdot)).run mkfsSuperblock 1).run (links 0) = .ok ((-1, cwd'), t) ∧
      t.disk = (links 0).disk ∧ cwd' = 1 ∧ t.ref = (links 0).ref ∧ t.ops = [.begin, .end] := by
  have hrun : ∃ t, ((DirCall.mkdir (some dotdot)).run mkfsSuperblock 1).run (links 0) = .ok ((-1, 1), t) ∧
      t.ops = [.begin, .end] := ⟨_, rfl, rfl⟩
  obtain ⟨t, hrun, hops⟩ := hrun
  obtain ⟨hdisk, -, hcwd, href, -⟩ :=
    failed_call (links_atRest 0) links_kept (show 0 < (links 0).ref 1 by decide) hrun
  exact ⟨1, t, hrun, hdisk, hcwd, href, hops⟩

end Dirs

end Xv6
