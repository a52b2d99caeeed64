import Xv6.Bio.Commit

/-!
# The buffer cache refines a block store

The runs of the machine: `bread` always returns what the last completed use of the block has left.
This needs nothing of the users of the cache but that they release a changed buffer only after they
have passed it to `bwrite` or `log_write`. The uses of the cache by commits count as uses there. For
disciplined processes and blocks outside the log area they can be left out
(`Bio.bread_returns_last`).
-/

namespace Xv6

open Function

namespace Bio

open Cache

variable {sb : Superblock} {dev : ℕ} {disk₀ : ℕ → ℕ → Block} {d : Driver}

/-! ### Users, edits and sections after a step -/

section Exec

variable {s t : Cache} {o : Op} {q : Ref}

/-- `bget` adds a use, and leaves the data alone that are in use. -/
theorem uses_bget (hinv : CacheInv s) {k : Caller} {b : ℕ} (hget : s.bget k dev b = some (.ok t)) :
    (∃ i, t.refs = ⟨k, dev, b, i, .waiting⟩ :: s.refs) ∧ ∀ q ∈ s.refs, (t.buf q.buf).data = (s.buf q.buf).data := by
  rcases bget_eq_ok hinv hget with ⟨i, -, -, rfl⟩ | ⟨i, -, hi, -, rfl⟩
  · refine ⟨⟨i, rfl⟩, fun q _ ↦ ?_⟩
    show ((s.setBuf i _).buf q.buf).data = _
    rw [buf_setBuf]
    split
    next hqi => rw [hqi]
    · rfl
  · refine ⟨⟨i, rfl⟩, fun q hq ↦ ?_⟩
    rw [hinv.refcnt, List.countP_eq_zero] at hi
    have hqi : q.buf ≠ i := fun hqi ↦ hi q hq (decide_eq_true hqi)
    show ((s.setBuf i _).buf q.buf).data = _
    rw [buf_setBuf, if_neg hqi]

/-- What a step does to the uses. -/
inductive RefsAfter (refs : List Ref) : Op → List Ref → Prop where
  /-- A new one. -/
  | added {c : Caller} {dev blockno : ℕ} {i : Fin NBUF} :
      RefsAfter refs (.bget c dev blockno) (⟨c, dev, blockno, i, .waiting⟩ :: refs)
  /-- One goes on in `bread`. -/
  | moved {o : Op} {r : Ref} {stage : Stage} (mem : r ∈ refs) (before : r.stage ≠ .released)
      (after : stage ≠ .released) (starts : Sys.starts o = false) (ready : stage = .ready → o = .fill r) :
      RefsAfter refs o ({ r with stage := stage } :: refs.erase r)
  /-- One has given up the lock. -/
  | released {r : Ref} (mem : r ∈ refs) (before : r.stage ≠ .released) :
      RefsAfter refs (.releasesleep r) ({ r with stage := .released } :: refs.erase r)
  /-- One has ended. -/
  | dropped {r : Ref} (mem : r ∈ refs) (before : r.stage = .released) :
      RefsAfter refs (.relink r) (refs.erase r)
  /-- They are as before. -/
  | same {o : Op} (get : ∀ c dev blockno, o ≠ .bget c dev blockno)
      (release : ∀ r, o ≠ .releasesleep r) : RefsAfter refs o refs

theorem refs_exec (hinv : CacheInv s) (h : s.exec d o = some (.ok t)) : RefsAfter s.refs o t.refs := by
  have hstep := exec_eq_ok h
  cases o with
  | bget c dev blockno =>
    rcases bget_eq_ok hinv hstep with ⟨i, -, -, rfl⟩ | ⟨i, -, -, -, rfl⟩
    all_goals exact .added
  | acquiresleep r =>
    obtain ⟨hr, hstage, -, rfl⟩ := hstep
    exact .moved hr (by rw [hstage]; nofun) nofun rfl nofun
  | fill r =>
    obtain ⟨hr, hstage, hfill⟩ := hstep
    have hne : r.stage ≠ .released := by rw [hstage]; nofun
    rcases fill_eq_ok hfill with ⟨-, rfl⟩ | ⟨-, -, rfl⟩ | ⟨-, -, rfl⟩
    all_goals exact .moved hr hne nofun rfl fun _ ↦ rfl
  | modify r v =>
    obtain ⟨-, -, rfl⟩ := hstep
    exact .same nofun nofun
  | bwrite r =>
    obtain ⟨-, -, hwrite⟩ := hstep
    obtain ⟨-, rfl⟩ := bwrite_eq_ok hwrite
    exact .same nofun nofun
  | pin r =>
    obtain ⟨-, -, rfl⟩ := hstep
    exact .same nofun nofun
  | releasesleep r =>
    obtain ⟨hr, hstage, -, -, rfl⟩ := hstep
    exact .released hr (by rw [hstage]; nofun)
  | relink r =>
    obtain ⟨hr, hstage, rfl⟩ := hstep
    rw [refs_relink]
    exact .dropped hr hstage

/-- Where a use comes from that is there after a step. -/
theorem RefsAfter.of_mem {refs refs' : List Ref} (h : RefsAfter refs o refs') (hq : q ∈ refs') :
    q ∈ refs ∨ (∃ c dev b, o = .bget c dev b ∧ q.caller = c ∧ q.stage = .waiting) ∨
    ∃ r ∈ refs, q = { r with stage := q.stage } ∧ (q.stage = .ready → o = .fill r) := by
  cases h with
  | added =>
    rcases List.mem_cons.1 hq with rfl | hq
    · exact .inr (.inl ⟨_, _, _, rfl, rfl, rfl⟩)
    · exact .inl hq
  | moved mem _ _ _ ready =>
    rcases List.mem_cons.1 hq with rfl | hq
    · exact .inr (.inr ⟨_, mem, rfl, ready⟩)
    · exact .inl (List.mem_of_mem_erase hq)
  | released mem =>
    rcases List.mem_cons.1 hq with rfl | hq
    · exact .inr (.inr ⟨_, mem, rfl, nofun⟩)
    · exact .inl (List.mem_of_mem_erase hq)
  | dropped => exact .inl (List.mem_of_mem_erase hq)
  | same => exact .inl hq

/-- An edit comes from before the step, or the step is the change. -/
theorem edit_exec (hinv : CacheInv s) (h : s.exec d o = some (.ok t)) {i : Fin NBUF}
    (hne : t.edit i ≠ .none) : s.edit i ≠ .none ∨ ∃ r v, o = .modify r v ∧ r.buf = i := by
  have hstep := exec_eq_ok h
  have htouch := touches_exec h
  -- the step saves the edits of its buffer, or forgets them
  have hsame {r : Ref} {b : Buf} {e : Edit} (ht : Touches s r.buf b e t)
      (he : e ≠ .none → s.edit r.buf ≠ .none) : s.edit i ≠ .none := by
    rcases eq_or_ne i r.buf with rfl | hi
    · rw [ht.edit] at hne
      exact he hne
    · rwa [(ht.other i hi).2] at hne
  have hsave (r : Ref) : (if s.edit r.buf = .none then Edit.none else .saved) ≠ .none →
      s.edit r.buf ≠ .none := by
    intro hs hnone
    rw [if_pos hnone] at hs
    exact hs rfl
  cases o with
  | bget c dev b =>
    rcases bget_eq_ok hinv hstep with ⟨j, -, -, rfl⟩ | ⟨j, -, -, -, rfl⟩
    all_goals exact .inl hne
  | acquiresleep r => exact .inl (hsame htouch id)
  | fill r =>
    obtain ⟨-, -, hfill⟩ := hstep
    rcases fill_eq_ok hfill with ⟨-, rfl⟩ | ⟨-, -, rfl⟩ | ⟨-, -, rfl⟩
    all_goals exact .inl hne
  | modify r v =>
    rcases eq_or_ne i r.buf with rfl | hi
    · exact .inr ⟨r, v, rfl, rfl⟩
    · rw [(htouch.other i hi).2] at hne
      exact .inl hne
  | bwrite r => exact .inl (hsame htouch.1 (hsave r))
  | pin r => exact .inl (hsame htouch (hsave r))
  | releasesleep r => exact .inl (hsame htouch fun hc ↦ absurd rfl hc)
  | relink r =>
    obtain ⟨-, -, rfl⟩ := hstep
    rw [(rest_relink s r).1] at hne
    exact .inl hne

/-- A step completes the use of a block if it is the release of the lock. -/
theorem sections_exec (hinv : CacheInv s) (h : s.exec d o = some (.ok t)) :
    match o with
    | .releasesleep r => t.sections =
        ⟨r.caller, (s.buf r.buf).dev, (s.buf r.buf).blockno, (s.buf r.buf).data⟩ :: s.sections
    | _ => t.sections = s.sections := by
  have hstep := exec_eq_ok h
  cases o with
  | bget c dev b =>
    rcases bget_eq_ok hinv hstep with ⟨j, -, -, rfl⟩ | ⟨j, -, -, -, rfl⟩
    all_goals rfl
  | acquiresleep r =>
    obtain ⟨-, -, -, rfl⟩ := hstep
    rfl
  | fill r =>
    obtain ⟨-, -, hfill⟩ := hstep
    rcases fill_eq_ok hfill with ⟨-, rfl⟩ | ⟨-, -, rfl⟩ | ⟨-, -, rfl⟩
    all_goals rfl
  | modify r v =>
    obtain ⟨-, -, rfl⟩ := hstep
    rfl
  | bwrite r =>
    obtain ⟨-, -, hwrite⟩ := hstep
    obtain ⟨-, rfl⟩ := bwrite_eq_ok hwrite
    rfl
  | pin r =>
    obtain ⟨-, -, rfl⟩ := hstep
    rfl
  | releasesleep r =>
    obtain ⟨-, -, -, -, rfl⟩ := hstep
    rfl
  | relink r =>
    obtain ⟨-, -, rfl⟩ := hstep
    exact (rest_relink s r).2.2

end Exec

/-! ### The invariant -/

/-- What is asked of the processes: data are changed inside an operation, blocks of the log area are
not logged, and an operation ends when its buffers have been released. -/
def disciplined (sb : Superblock) (s : Sys) : Label → Bool
  | .op (.modify r _) => decide (r.caller.proc ∈ s.ops)
  | .logWrite r => decide (¬InLog sb r.blockno)
  | .endOp p => decide (∀ r ∈ s.cache.refs, r.caller ≠ ⟨p, false⟩)
  | _ => true

/-- The uses of blocks by processes outside commits. -/
def userSections (l : List Section) : List Section := l.filter fun c ↦ !c.caller.commit

/-- What holds of the cache in every run. -/
structure StoreInv (disk₀ : ℕ → ℕ → Block) (s : Cache) : Prop where
  cache : CacheInv s
  locks : Locks s
  coherent : Coherent disk₀ s

theorem StoreInv.exec {s c : Cache} {o : Op} (h : StoreInv disk₀ s) (hexec : s.exec d o = some (.ok c)) :
    StoreInv disk₀ c :=
  ⟨h.cache.exec hexec, h.locks.exec h.cache h.coherent.invalid hexec, h.coherent.exec h.cache h.locks hexec⟩

/-- What the log knows of the operations and of the commit. -/
structure Booked (log : Log) (ops : List ℕ) (committer : Option (ℕ × List Instr)) : Prop where
  /-- `log.outstanding` is the number of operations. -/
  outstanding : log.outstanding = ops.length
  /-- `log.committing` is set during a commit. -/
  committing : log.committing = committer.isSome
  idle : committer ≠ none → ops = []

namespace Booked

variable {log log' : Log} {ops : List ℕ} {committer : Option (ℕ × List Instr)} {p : ℕ} {todo : List Instr}

/-- While there are operations, no commit is going on. -/
theorem no_commit (h : Booked log ops committer) (hops : ops ≠ []) : committer = none :=
  of_not_not fun hne ↦ hops (h.idle hne)

/-- A commit goes on. -/
theorem next (h : Booked log ops (some (p, todo))) (lh : List ℕ) (todo' : List Instr) :
    Booked { log with lh := lh } ops (some (p, todo')) :=
  ⟨h.outstanding, h.committing, fun _ ↦ h.idle nofun⟩

theorem beginOp (h : Booked log ops committer) (hlog : log.beginOp = some log') (p : ℕ) :
    Booked log' (p :: ops) committer := by
  obtain ⟨hcommitting, -, rfl⟩ := Log.beginOp_eq_some hlog
  refine ⟨by rw [h.outstanding]; rfl, h.committing, fun hne ↦ ?_⟩
  rw [h.committing, Option.isSome_eq_false_iff, Option.isNone_iff_eq_none] at hcommitting
  exact absurd hcommitting hne

/-- A commit begins if the operation was the last one. -/
theorem endOp (h : Booked log ops committer) (hlog : log.endOp = .ok log') (hp : p ∈ ops) (sb : Superblock) :
    Booked log' (ops.erase p) (if log'.committing then some (p, commit sb log.lh) else committer) ∧
      ∀ q todo, (if log'.committing then some (p, commit sb log.lh) else committer) = some (q, todo) →
        q = p ∧ todo = commit sb log.lh := by
  obtain ⟨-, rfl⟩ := Log.endOp_eq_ok hlog
  have hlen := List.length_erase_of_mem hp
  have hpos := List.length_pos_of_mem hp
  have hout := h.outstanding
  obtain rfl := h.no_commit (List.ne_nil_of_mem hp)
  by_cases hone : log.outstanding = 1
  · simp only [decide_eq_true hone, if_true]
    refine ⟨⟨by dsimp only; omega, rfl, fun _ ↦ List.eq_nil_of_length_eq_zero (by omega)⟩, fun q todo hc ↦ ?_⟩
    obtain ⟨rfl, rfl⟩ := Prod.mk.inj (Option.some.inj hc)
    exact ⟨rfl, rfl⟩
  · simp only [decide_eq_false hone, Bool.false_eq_true, if_false]
    exact ⟨⟨by dsimp only; omega, rfl, fun hne ↦ absurd rfl hne⟩, nofun⟩

end Booked

/-- The invariant of the runs of disciplined processes. -/
structure CommitInv (sb : Superblock) (dev : ℕ) (disk₀ : ℕ → ℕ → Block) (s : Sys) : Prop extends
    StoreInv disk₀ s.cache, Booked s.log s.ops s.committer where
  size : s.log.size = sb.nlog
  fits : Fits sb s.log.lh
  /-- A process that has changed data is inside an operation. -/
  edits : ∀ r ∈ s.cache.refs, r.stage = .ready → r.caller.commit = false →
    s.cache.edit r.buf ≠ .none → r.caller.proc ∈ s.ops
  free : s.committer = none → ∀ r ∈ s.cache.refs, r.caller.commit = false
  /-- What a commit still has to do is safe. -/
  script : ∀ p todo, s.committer = some (p, todo) →
    ∃ h, Held dev p (contents disk₀ s.cache.sections dev) h s.cache ∧
      Safe sb todo (contents disk₀ s.cache.sections dev) h
  /-- Commits have changed nothing outside the log area. -/
  users : ∀ dev' b, ¬(dev' = dev ∧ InLog sb b) →
    contents disk₀ (userSections s.cache.sections) dev' b = contents disk₀ s.cache.sections dev' b

variable {s t : Sys}

theorem CommitInv.init (sb : Superblock) (dev : ℕ) (L : BufLinks) (disk : ℕ → ℕ → Block) :
    CommitInv sb dev disk (Sys.init sb L disk) where
  cache := .init L disk
  locks := .init L disk
  coherent := .init L disk
  outstanding := rfl
  committing := rfl
  idle := fun hc ↦ absurd rfl hc
  size := rfl
  fits := ⟨nofun, sb.nlog_pos⟩
  edits := nofun
  free := nofun
  script := nofun
  users := fun _ _ _ ↦ rfl

variable {o : Op} {c : Cache} {p b : ℕ} {r : Ref} {todo : List Instr} {log : Log}

section

variable (h : CommitInv sb dev disk₀ s)

include h

/-- The part of the invariant about edits. -/
theorem CommitInv.edits_exec (hexec : s.cache.exec d o = some (.ok c))
    (hmod : ∀ r v, o = .modify r v → r.caller.commit = true ∨ r.caller.proc ∈ s.ops) :
    ∀ r ∈ c.refs, r.stage = .ready → r.caller.commit = false → c.edit r.buf ≠ .none →
      r.caller.proc ∈ s.ops := by
  intro q hq hready hc hne
  have hold := edit_exec h.cache hexec hne
  rcases (refs_exec h.cache hexec).of_mem hq with hmem | ⟨_, _, _, _, _, hstage⟩ | ⟨r, hr, heq, hfill⟩
  · rcases hold with hold | ⟨r, v, rfl, hbuf⟩
    · exact h.edits q hmem hready hc hold
    · -- the process that changes the data is the holder
      obtain ⟨hr, hstage, -⟩ := exec_eq_ok hexec
      have heq : q = r := h.locks.eq_of_holds hr hmem (by rw [hstage]; rfl) (by rw [hready]; rfl)
        hbuf.symm
      rw [heq] at hc ⊢
      rcases hmod r v rfl with htrue | hops
      · rw [hc] at htrue
        cases htrue
      · exact hops
  · rw [hready] at hstage
    cases hstage
  · -- nobody has changed the data before `bread` returns
    obtain rfl := hfill hready
    obtain ⟨hr, hstage, -⟩ := exec_eq_ok hexec
    rw [heq] at hold
    rcases hold with hold | ⟨_, _, heq, _⟩
    · exact absurd (h.locks.edit_of_locked hr hstage) hold
    · cases heq

/-- A step of a process, or the next step in a call of the committing one, leaves the buffers of the
commit as they are. -/
theorem CommitInv.held_exec (hdev : dev ≠ 0)
    (hexec : s.cache.exec d o = some (.ok c)) (hplain : Sys.plain o = true)
    (hstart : Sys.starts o = true → o.caller.commit = false) (hmod : ∀ r v, o ≠ .modify r v)
    {g : ℕ → Option Block} (hh : Held dev p (contents disk₀ s.cache.sections dev) g s.cache) :
    Held dev p (contents disk₀ s.cache.sections dev) g c := by
  have hstep := exec_eq_ok hexec
  have htouch := touches_exec hexec
  have hactive {q : Ref} (hq : q.active = true) : q.caller.commit = true :=
    (Bool.and_eq_true_iff.1 hq).1
  -- the data of a buffer are as before if the step does not change them
  have hdata {r : Ref} {b : Buf} {e : Edit} (ht : Touches s.cache r.buf b e c)
      (hb : b.data = (s.cache.buf r.buf).data) (q : Ref) :
      (c.buf q.buf).data = (s.cache.buf q.buf).data := by
    rcases eq_or_ne q.buf r.buf with hq | hq
    · rw [hq, ht.self, hb]
    · rw [(ht.other _ hq).1]
  cases o with
  | bget k dev' b =>
    have hk : k.commit = false := hstart rfl
    obtain ⟨⟨i, hrefs⟩, hdata⟩ := uses_bget h.cache hstep
    refine hh.of_perm ?_ fun q hq _ ↦ Cache.value_congr fun _ ↦ hdata q hq
    rw [hrefs, List.filter_cons_of_neg (by rw [hk]; exact Bool.false_ne_true)]
  | acquiresleep r =>
    obtain ⟨hr, hstage, -, rfl⟩ := hstep
    have hvalue (q : Ref) := hdata htouch rfl q
    cases hc : r.caller.commit with
    | false =>
      exact hh.of_perm (filter_move hr hc .locked) fun q _ _ ↦ Cache.value_congr fun _ ↦ hvalue q
    | true =>
      have hra : r.active = true := by
        rw [Ref.active, hc, hstage]
        rfl
      refine hh.move hr hra _ rfl ?_ (fun _ _ ↦ rfl) fun q _ _ _ ↦ Cache.value_congr fun _ ↦ hvalue q
      rw [hh.value r hr hra, Cache.value, hstage]
      rfl
  | fill r =>
    obtain ⟨hr, hstage, hfill⟩ := hstep
    have hrefs : c.refs = { r with stage := .ready } :: s.cache.refs.erase r := by
      rcases fill_eq_ok hfill with ⟨-, rfl⟩ | ⟨-, -, rfl⟩ | ⟨-, -, rfl⟩
      all_goals rfl
    have hvalue {q : Ref} (hq : q ∈ s.cache.refs) (hne : q ≠ r) :
        c.value (contents disk₀ s.cache.sections dev) q =
          s.cache.value (contents disk₀ s.cache.sections dev) q := by
      have hholds : r.stage.holds = true := by rw [hstage]; rfl
      rcases htouch with ⟨-, ht⟩ | ⟨hv, hdirty⟩ | ⟨-, -, ht, -⟩
      · exact value_of_touches h.locks ht hr hholds hq hne
      · rw [h.coherent.invalid _ hv] at hdirty
        cases hdirty
      · exact value_of_touches h.locks ht hr hholds hq hne
    cases hc : r.caller.commit with
    | false =>
      refine hh.of_perm (hrefs ▸ filter_move hr hc .ready) fun q hq ha ↦ hvalue hq ?_
      rintro rfl
      rw [hactive ha] at hc
      cases hc
    | true =>
      have hra : r.active = true := by
        rw [Ref.active, hc, hstage]
        rfl
      have hrdev := (hh.caller r hr hc).2
      refine hh.move hr hra _ hrefs ?_ (fun _ _ ↦ rfl) fun q hq _ hb ↦ hvalue hq ?_
      · -- what `bread` returns
        obtain ⟨-, -, hread⟩ := h.coherent.fill_data h.locks hexec (hrdev ▸ hdev)
        rw [hh.value r hr hra, if_neg (by simp), Cache.value, Cache.value, if_pos rfl, hread, hstage,
          hrdev]
        rfl
      · rintro rfl
        exact hb rfl
  | modify r v => exact absurd rfl (hmod r v)
  | bwrite r =>
    obtain ⟨-, -, hwrite⟩ := hstep
    have hvalue (q : Ref) := hdata htouch.1 rfl q
    obtain ⟨-, rfl⟩ := bwrite_eq_ok hwrite
    exact hh.of_perm (.refl _) fun q _ _ ↦ Cache.value_congr fun _ ↦ hvalue q
  | pin r => cases hplain
  | releasesleep r =>
    have hvalue (q : Ref) := hdata htouch rfl q
    obtain ⟨hr, -, -, -, rfl⟩ := hstep
    exact hh.of_perm (filter_move hr (hstart rfl) .released) fun q _ _ ↦
      Cache.value_congr fun _ ↦ hvalue q
  | relink r =>
    obtain ⟨hr, hstage, rfl⟩ := hstep
    have hna : r.active = false := by
      rw [Ref.active, hstage]
      exact Bool.and_false _
    refine hh.erase hr hna (refs_relink s.cache r) fun q ↦ ?_
    rw [buf_relink]
    split
    next hq => rw [hq]
    · rfl

/-- While a commit is going on, no process has changed data. -/
theorem CommitInv.edit_of_commit (hc : s.committer ≠ none)
    (hr : r ∈ s.cache.refs) (hstage : r.stage = .ready) (huser : r.caller.commit = false) :
    s.cache.edit r.buf = .none := by
  refine of_not_not fun hne ↦ ?_
  have hops := h.edits r hr hstage huser hne
  rw [h.idle hc] at hops
  cases hops

/-- While a commit is going on, a step of a process changes the value of no block. -/
theorem CommitInv.contents_exec (hdev : dev ≠ 0) (hc : s.committer ≠ none)
    (hexec : s.cache.exec d o = some (.ok c)) (huser : ∀ r, o = .releasesleep r → r.caller.commit = false) :
    contents disk₀ c.sections dev = contents disk₀ s.cache.sections dev := by
  have hsec := sections_exec h.cache hexec
  cases o with
  | releasesleep r =>
    obtain ⟨hr, hstage, -⟩ := exec_eq_ok hexec
    have hedit := h.edit_of_commit hc hr hstage (huser r rfl)
    have hv := h.locks.ready r hr hstage
    funext b
    rw [hsec, contents]
    split
    next hb =>
      -- it leaves what it has found
      obtain ⟨hb₁, hb₂⟩ : (s.cache.buf r.buf).dev = dev ∧ (s.cache.buf r.buf).blockno = b := hb
      have hbuf := (h.coherent.buf r.buf (hb₁ ▸ hdev)).data hv hedit
      rw [hb₁, hb₂] at hbuf
      exact hbuf
    · rfl
  | _ => rw [hsec]

end

theorem contents_userSections_cons {c : Section} {l : List Section} (hc : c.caller.commit = false)
    (h : contents disk₀ (userSections l) dev b = contents disk₀ l dev b) :
    contents disk₀ (userSections (c :: l)) dev b = contents disk₀ (c :: l) dev b := by
  rw [userSections, List.filter_cons_of_pos (by rw [hc]; rfl), contents, contents]
  split
  · rfl
  · exact h

/-- A step of a process in the cache. -/
theorem CommitInv.use (h : CommitInv sb dev disk₀ s) (hdev : dev ≠ 0) (huse : s.use d o = some (.ok t))
    (hplain : Sys.plain o = true) (hstart : Sys.starts o = true → o.caller.commit = false)
    (hmod : ∀ r v, o = .modify r v → r.caller.proc ∈ s.ops) : CommitInv sb dev disk₀ t := by
  obtain ⟨c, hexec, rfl⟩ := Sys.use_eq_ok huse
  have hrelease (r : Ref) (ho : o = .releasesleep r) : r.caller.commit = false := by
    subst ho
    exact hstart rfl
  refine { h with
    toStoreInv := h.toStoreInv.exec hexec
    edits := h.edits_exec hexec fun r v ho ↦ Or.inr (hmod r v ho)
    free := fun hc q hq ↦ ?_
    script := fun p todo hc ↦ ?_
    users := fun dev' b hb ↦ ?_ }
  · have hall := h.free hc
    rcases (refs_exec h.cache hexec).of_mem hq with hq | ⟨k, dev', b, rfl, hk, -⟩ | ⟨r, hr, heq, -⟩
    · exact hall q hq
    · rw [hk]
      exact hstart rfl
    · rw [heq]
      exact hall r hr
  · obtain ⟨g, hh, hsafe⟩ := h.script p todo hc
    have hne : s.committer ≠ none := by
      rw [show s.committer = some (p, todo) from hc]
      exact nofun
    have hcontents := h.contents_exec hdev hne hexec hrelease
    have hheld := h.held_exec hdev hexec hplain hstart (fun r v ho ↦ ?_) hh
    · refine ⟨g, ?_, ?_⟩
      · rw [hcontents]
        exact hheld
      · rw [hcontents]
        exact hsafe
    · have hops := hmod r v ho
      rw [h.idle hne] at hops
      cases hops
  · have hsec := sections_exec h.cache hexec
    cases o with
    | releasesleep r =>
      rw [hsec]
      exact contents_userSections_cons (hstart rfl) (h.users dev' b hb)
    | _ =>
      rw [hsec]
      exact h.users dev' b hb

/-! ### The statements of a commit -/

theorem Sys.refOf_eq_some (h : s.refOf dev p b = some r) :
    r ∈ s.cache.refs ∧ r.caller = ⟨p, true⟩ ∧ r.blockno = b ∧ r.stage = .ready := by
  rw [Sys.refOf] at h
  have hr := List.find?_some h
  rw [decide_eq_true_iff] at hr
  obtain ⟨hcaller, -, hb, hstage⟩ := hr
  exact ⟨List.mem_of_find?_eq_some h, hcaller, hb, hstage⟩

theorem Ref.active_of_ready (hc : r.caller = ⟨p, true⟩) (hs : r.stage = .ready) : r.active = true := by
  rw [Ref.active, hc, hs]
  rfl

section

variable (h : CommitInv sb dev disk₀ s)

include h

/-- The parts of the invariant that every step in the cache keeps, and the rest. -/
theorem CommitInv.of_exec (hexec : s.cache.exec d o = some (.ok c))
    (hmod : ∀ r v, o = .modify r v → r.caller.commit = true) {todo' : List Instr}
    (hc : s.committer = some (p, todo)) (hscript : ∃ g, Held dev p (contents disk₀ c.sections dev) g c ∧
      Safe sb todo' (contents disk₀ c.sections dev) g) (husers : ∀ dev' b, ¬(dev' = dev ∧ InLog sb b) →
      contents disk₀ (userSections c.sections) dev' b = contents disk₀ c.sections dev' b) :
    CommitInv sb dev disk₀ { s with cache := c, committer := some (p, todo') } where
  toStoreInv := h.toStoreInv.exec hexec
  toBooked := (hc ▸ h.toBooked).next s.log.lh todo'
  size := h.size
  fits := h.fits
  edits := h.edits_exec hexec fun r v ho ↦ Or.inl (hmod r v ho)
  free := nofun
  script := fun p' todo'' heq ↦ by
    obtain ⟨rfl, rfl⟩ := Prod.mk.inj (Option.some.inj heq)
    exact hscript
  users := husers

/-- `commit` reads a block. -/
theorem CommitInv.bread (hc : s.committer = some (p, .bread b :: todo))
    (hexec : s.cache.exec d (.bget ⟨p, true⟩ dev b) = some (.ok c)) :
    CommitInv sb dev disk₀ { s with cache := c, committer := some (p, todo) } := by
  have hsec : c.sections = s.cache.sections := sections_exec h.cache hexec
  obtain ⟨g, hh, hnone, hsafe⟩ := h.script p _ hc
  refine h.of_exec hexec nofun hc ⟨_, ?_, by rw [hsec]; exact hsafe⟩ ?_
  · obtain ⟨⟨i, hrefs⟩, hdata⟩ := uses_bget h.cache (exec_eq_ok hexec)
    rw [hsec]
    exact hh.bread hnone hrefs fun q hq _ ↦ Cache.value_congr fun _ ↦ hdata q hq
  · rw [hsec]
    exact h.users

/-- `commit` changes the data of a buffer. -/
theorem CommitInv.modify {i : Instr} {v : Block}
    (hc : s.committer = some (p, i :: todo)) (hr : r ∈ s.cache.refs) (hcaller : r.caller = ⟨p, true⟩)
    (hready : r.stage = .ready) (hexec : s.cache.exec d (.modify r v) = some (.ok c))
    (hsafe : ∀ g, Held dev p (contents disk₀ s.cache.sections dev) g s.cache →
      Safe sb (i :: todo) (contents disk₀ s.cache.sections dev) g →
      Safe sb todo (contents disk₀ s.cache.sections dev) (update g r.blockno (some v))) :
    CommitInv sb dev disk₀ { s with cache := c, committer := some (p, todo) } := by
  have hsec : c.sections = s.cache.sections := sections_exec h.cache hexec
  have htouch := touches_exec hexec
  obtain ⟨g, hh, hs⟩ := h.script p _ hc
  have hra := Ref.active_of_ready hcaller hready
  refine h.of_exec hexec (fun r' v' ho ↦ ?_) hc
    ⟨update g r.blockno (some v), ?_, by rw [hsec]; exact hsafe g hh hs⟩
    (by rw [hsec]; exact h.users)
  · obtain ⟨rfl, -⟩ := Op.modify.inj ho
    rw [hcaller]
  · rw [hsec]
    refine hh.modify hr hra hready ?_ (by rw [htouch.self]) fun q hq hne ↦
      value_of_touches h.locks htouch hr (by rw [hready]; rfl) hq hne
    obtain ⟨-, -, rfl⟩ := exec_eq_ok hexec
    rfl

/-- `commit` writes a buffer to the disk. -/
theorem CommitInv.bwrite (hc : s.committer = some (p, .bwrite b :: todo))
    (hexec : s.cache.exec d (.bwrite r) = some (.ok c)) :
    CommitInv sb dev disk₀ { s with cache := c, committer := some (p, todo) } := by
  have hsec : c.sections = s.cache.sections := sections_exec h.cache hexec
  obtain ⟨htouch, -⟩ := touches_exec hexec
  obtain ⟨g, hh, hsafe⟩ := h.script p _ hc
  refine h.of_exec hexec nofun hc ⟨g, ?_, by rw [hsec]; exact hsafe⟩
    (by rw [hsec]; exact h.users)
  have hrefs : c.refs = s.cache.refs := by
    obtain ⟨-, -, hwrite⟩ := exec_eq_ok hexec
    obtain ⟨-, rfl⟩ := bwrite_eq_ok hwrite
    rfl
  rw [hsec]
  refine hh.of_perm (by rw [hrefs]) fun q _ _ ↦ Cache.value_congr fun _ ↦ ?_
  rcases eq_or_ne q.buf r.buf with hq | hq
  · rw [hq, htouch.self]
  · rw [(htouch.other _ hq).1]

/-- `commit` releases a buffer. A block outside the log area has the same value as before. -/
theorem CommitInv.brelse (hc : s.committer = some (p, .brelse r.blockno :: todo)) (hr : r ∈ s.cache.refs)
    (hcaller : r.caller = ⟨p, true⟩) (hready : r.stage = .ready)
    (hexec : s.cache.exec d (.releasesleep r) = some (.ok c)) :
    CommitInv sb dev disk₀ { s with cache := c, committer := some (p, todo) } := by
  have hsec : c.sections = _ := sections_exec h.cache hexec
  have htouch := touches_exec hexec
  obtain ⟨g, hh, hs⟩ := h.script p _ hc
  have hra := Ref.active_of_ready hcaller hready
  have hcommit : r.caller.commit = true := by rw [hcaller]
  obtain ⟨hrd, hrb⟩ := h.locks.request r hr
  rw [(hh.caller r hr hcommit).2] at hrd
  have hval := hh.value r hr hra
  rw [Cache.value, if_pos hready] at hval
  obtain ⟨hhome, hsafe⟩ := hs _ hval
  rw [hrd, hrb] at hsec
  -- the values afterwards
  have hcontents : contents disk₀ c.sections dev =
      update (contents disk₀ s.cache.sections dev) r.blockno
        (s.cache.buf r.buf).data := by
    funext b
    rw [hsec, contents, update_apply]
    exact if_congr ⟨fun hb ↦ hb.2.symm, fun hb ↦ ⟨rfl, hb.symm⟩⟩ rfl rfl
  refine h.of_exec hexec (by simp) hc
    ⟨update g r.blockno none, ?_, by rw [hcontents]; exact hsafe⟩ fun dev' b hb ↦ ?_
  · have hheld : Held dev p (contents disk₀ s.cache.sections dev)
        (update g r.blockno none) c := by
      refine hh.move hr hra .released ?_ (update_self ..)
        (fun b hb ↦ update_of_ne hb ..) fun q hq _ hb ↦
          value_of_touches h.locks htouch hr (by rw [hready]; rfl) hq fun heq ↦ hb (by rw [heq])
      obtain ⟨-, -, -, -, rfl⟩ := exec_eq_ok hexec
      rfl
    rw [hcontents]
    refine hheld.congr_store fun b hb ↦ update_of_ne ?_ ..
    rintro rfl
    rw [update_self] at hb
    cases hb
  · rw [hsec, userSections, List.filter_cons_of_neg (by rw [hcommit]; exact Bool.false_ne_true),
      ← userSections, h.users dev' b hb, contents]
    split
    next heq =>
      obtain ⟨rfl, rfl⟩ := heq
      exact (hhome fun hlog ↦ hb ⟨rfl, hlog⟩).symm
    · rfl

/-- One statement of `commit`. -/
theorem CommitInv.runInstr {i : Instr} (hc : s.committer = some (p, i :: todo))
    (hrun : s.runInstr d dev p i = some (.ok t)) :
    CommitInv sb dev disk₀ { t with committer := some (p, todo) } := by
  have hi := Sys.runInstr_eq_ok hrun
  cases i with
  | bread b =>
    obtain ⟨c, hexec, rfl⟩ := Sys.use_eq_ok hi
    exact h.bread hc hexec
  | memmove dst src =>
    obtain ⟨r, q, hdst, hsrc, huse⟩ := hi
    obtain ⟨c, hexec, rfl⟩ := Sys.use_eq_ok huse
    obtain ⟨hr, hrc, rfl, hrs⟩ := Sys.refOf_eq_some hdst
    obtain ⟨hq, hqc, rfl, hqs⟩ := Sys.refOf_eq_some hsrc
    refine h.modify hc hr hrc hrs hexec fun g hh hsafe ↦ ?_
    have hval := hh.value q hq (Ref.active_of_ready hqc hqs)
    rw [Cache.value, if_pos hqs] at hval
    rw [← hval]
    exact hsafe
  | storeHead b =>
    obtain ⟨r, href, huse⟩ := hi
    obtain ⟨c, hexec, rfl⟩ := Sys.use_eq_ok huse
    obtain ⟨hr, hrc, rfl, hrs⟩ := Sys.refOf_eq_some href
    exact h.modify hc hr hrc hrs hexec fun g _ hsafe ↦ hsafe _
  | bwrite b =>
    obtain ⟨r, -, huse⟩ := hi
    obtain ⟨c, hexec, rfl⟩ := Sys.use_eq_ok huse
    exact h.bwrite hc hexec
  | brelse b =>
    obtain ⟨r, href, huse⟩ := hi
    obtain ⟨c, hexec, rfl⟩ := Sys.use_eq_ok huse
    obtain ⟨hr, hrc, rfl, hrs⟩ := Sys.refOf_eq_some href
    exact h.brelse hc hr hrc hrs hexec
  | clear =>
    rw [hi]
    exact { h with
      fits := ⟨by simp, sb.nlog_pos⟩
      toBooked := (hc ▸ h.toBooked).next [] todo
      free := by simp
      script := fun p' todo' heq ↦ by
        obtain ⟨rfl, rfl⟩ := Prod.mk.inj (Option.some.inj heq)
        obtain ⟨g, hh, hsafe⟩ := h.script _ _ hc
        exact ⟨g, hh, hsafe⟩ }

end

/-! ### The log -/

section

variable (h : CommitInv sb dev disk₀ s)

include h

/-- `log_write`. -/
theorem CommitInv.logWrite (hexec : s.cache.exec d (.pin r) = some (.ok c))
    (hblock : ¬InLog sb r.blockno) (hlog : s.log.logWrite (s.cache.buf r.buf).blockno = .ok log) :
    CommitInv sb dev disk₀ { s with cache := c, log := log } := by
  obtain ⟨-, hroom, hout, rfl⟩ := Log.logWrite_eq_ok hlog
  obtain ⟨hr, hstage, hpin⟩ := exec_eq_ok hexec
  have hsec : c.sections = s.cache.sections := sections_exec h.cache hexec
  -- an operation is outstanding, and so no commit is going on
  have hnone : s.committer = none := by
    refine h.no_commit fun hops ↦ ?_
    rw [h.outstanding, hops] at hout
    exact absurd hout (by decide)
  have hrefs : c.refs = s.cache.refs := by rw [hpin]; rfl
  refine { h with
    toStoreInv := h.toStoreInv.exec hexec
    fits := ⟨fun b hb ↦ ?_, ?_⟩
    edits := h.edits_exec hexec nofun
    free := fun _ q hq ↦ h.free hnone q (hrefs ▸ hq)
    script := fun p todo hc ↦ ?_
    users := by
      rw [hsec]
      exact h.users }
  · rcases Log.mem_absorb.1 hb with hb | rfl
    · exact h.fits.home b hb
    · rw [(h.locks.request r hr).2]
      exact hblock
  · have hle := Log.length_absorb_le s.log.lh (s.cache.buf r.buf).blockno
    have hsize := h.size
    dsimp only
    omega
  · have hc : s.committer = some (p, todo) := hc
    rw [hnone] at hc
    cases hc

theorem CommitInv.beginOp (hlog : s.log.beginOp = some log) :
    CommitInv sb dev disk₀ { s with log := log, ops := p :: s.ops } := by
  have hbooked := h.toBooked.beginOp hlog p
  obtain ⟨-, -, rfl⟩ := Log.beginOp_eq_some hlog
  exact { h with
    toBooked := hbooked
    edits := fun r hr hstage huser hne ↦
      List.mem_cons_of_mem _ (h.edits r hr hstage huser hne) }

/-- The end of an operation. A commit begins if it was the last one. -/
theorem CommitInv.endOp (hp : p ∈ s.ops)
    (hrefs : ∀ r ∈ s.cache.refs, r.caller ≠ ⟨p, false⟩) (hlog : s.log.endOp = .ok log) :
    CommitInv sb dev disk₀ { s with
      log := log
      ops := s.ops.erase p
      committer := if log.committing then some (p, commit sb log.lh) else s.committer } := by
  have hnone := h.no_commit (List.ne_nil_of_mem hp)
  obtain ⟨hbooked, hcommit⟩ := h.toBooked.endOp hlog hp sb
  obtain ⟨-, rfl⟩ := Log.endOp_eq_ok hlog
  -- other operations hold on to their edits
  have hedits : ∀ r ∈ s.cache.refs, r.stage = .ready → r.caller.commit = false →
      s.cache.edit r.buf ≠ .none → r.caller.proc ∈ s.ops.erase p := by
    intro r hr hstage huser hne
    refine (List.mem_erase_of_ne fun heq ↦ hrefs r hr ?_).2 (h.edits r hr hstage huser hne)
    rw [← heq, ← huser]
  refine { h with
    toBooked := hbooked
    edits := hedits
    free := fun _ ↦ h.free hnone
    script := fun q todo hc ↦ ?_ }
  obtain ⟨rfl, rfl⟩ := hcommit q todo hc
  have hfree {r : Ref} (hr : r ∈ s.cache.refs) (hcommit : r.caller.commit = true) : False := by
    rw [h.free hnone r hr] at hcommit
    cases hcommit
  refine ⟨noneHeld, ⟨fun r hr hcommit ↦ (hfree hr hcommit).elim, fun r hr ha ↦ ?_, fun b ↦ ?_⟩, safe_commit h.fits _⟩
  · exact (hfree hr (Bool.and_eq_true_iff.1 ha).1).elim
  · refine List.countP_eq_zero.2 fun r hr hb ↦ hfree hr ?_
    exact (Bool.and_eq_true_iff.1 (Bool.and_eq_true_iff.1 hb).1).1

/-- The end of a commit. -/
theorem CommitInv.committed (hc : s.committer = some (p, []))
    (hidle : s.Idle ⟨p, true⟩) : CommitInv sb dev disk₀
      { s with log := { s.log with committing := false }, committer := none } := by
  obtain ⟨g, hh, hnone⟩ := h.script p [] hc
  exact { h with
    committing := rfl
    idle := fun hne ↦ absurd rfl hne
    free := fun _ r hr ↦ by
      -- a use by the commit would be of a block that is held
      cases hcommit : r.caller.commit with
      | false => rfl
      | true =>
        have hcaller : r.caller = ⟨p, true⟩ := by
          rw [← (hh.caller r hr hcommit).1, ← hcommit]
        have hval := hh.value r hr (Ref.active_of_ready hcaller (hidle r hr hcaller))
        rw [hnone] at hval
        cases hval
    script := nofun }

end

/-! ### Runs -/

theorem CommitInv.step (h : CommitInv sb dev disk₀ s) (hdev : dev ≠ 0) {l : Label}
    (hdisc : disciplined sb s l = true) (hstep : s.step sb d dev l = some (.ok t)) :
    CommitInv sb dev disk₀ t := by
  have hl := Sys.step_eq_ok hstep
  cases l with
  | op o =>
    obtain ⟨hplain, hstart, huse⟩ := hl
    refine h.use hdev huse hplain (fun ho ↦ (hstart ho).1) fun r v ho ↦ ?_
    subst ho
    exact of_decide_eq_true hdisc
  | logWrite r =>
    obtain ⟨-, -, -, c, log, hexec, hlog, rfl⟩ := hl
    exact h.logWrite hexec (of_decide_eq_true hdisc) hlog
  | beginOp p =>
    obtain ⟨-, -, -, log, hlog, rfl⟩ := hl
    exact h.beginOp hlog
  | endOp p =>
    obtain ⟨hp, -, -, log, hlog, rfl⟩ := hl
    exact h.endOp hp (of_decide_eq_true hdisc) hlog
  | commit =>
    obtain ⟨p, hidle, ⟨hc, rfl⟩ | ⟨i, todo, u, hc, hrun, rfl⟩⟩ := hl
    · exact h.committed hc hidle
    · exact h.runInstr hc hrun

theorem storeInv_of_run {L : BufLinks} {labels : List Label}
    (run : Machine.Run (Sys.step sb d dev) (Sys.init sb L disk₀) labels s) :
    StoreInv disk₀ s.cache := by
  refine run.invariant (P := fun s ↦ StoreInv disk₀ s.cache)
    ⟨.init L disk₀, .init L disk₀, .init L disk₀⟩ ?_
  intro t u l ht hstep
  rcases Sys.step_cache hstep with heq | ⟨o, ho⟩
  · exact heq ▸ ht
  · exact ht.exec ho

theorem commitInv_of_run (hdev : dev ≠ 0) {L : BufLinks} {labels : List Label}
    (run : Machine.Run (Machine.guarded (fun s l ↦ disciplined sb s l = true) (Sys.step sb d dev))
      (Sys.init sb L disk₀) labels s) : CommitInv sb dev disk₀ s := by
  refine run.invariant (P := CommitInv sb dev disk₀) (.init sb dev L disk₀) ?_
  intro t u l ht hstep
  obtain ⟨hdisc, hstep⟩ := Machine.guarded_eq_some.1 hstep
  exact ht.step hdev hdisc hstep

/-- **The buffer cache is a block store.** In every run, when `bread` returns a buffer for a block of
a device other than 0, the buffer has this block and what the last completed use of the block has
left, or what was on the disk at first. A use is completed when `brelse` releases the lock, and the
uses by commits are counted. If all processes are disciplined, these can be left out for blocks
outside the log area: commits change nothing there. -/
theorem bread_returns_last {L : BufLinks} {labels : List Label}
    (run : Machine.Run (Sys.step sb d dev) (Sys.init sb L disk₀) labels s) {r : Ref}
    (hr : r.dev ≠ 0) (hstep : s.step sb d dev (.op (.fill r)) = some (.ok t)) :
    ((t.cache.buf r.buf).dev = r.dev ∧ (t.cache.buf r.buf).blockno = r.blockno ∧
      (t.cache.buf r.buf).data = contents disk₀ s.cache.sections r.dev r.blockno) ∧
    (dev ≠ 0 → Machine.Run (Machine.guarded (fun s l ↦ disciplined sb s l = true)
        (Sys.step sb d dev)) (Sys.init sb L disk₀) labels s →
      ¬(r.dev = dev ∧ InLog sb r.blockno) →
      (t.cache.buf r.buf).data = contents disk₀ (userSections s.cache.sections) r.dev r.blockno) := by
  obtain ⟨-, hlocks, hcoherent⟩ := storeInv_of_run run
  obtain ⟨-, -, huse⟩ := Sys.step_eq_ok hstep
  obtain ⟨c, hexec, rfl⟩ := Sys.use_eq_ok huse
  have hdata := hcoherent.fill_data hlocks hexec hr
  refine ⟨hdata, fun hdev hrun hblock ↦ ?_⟩
  rw [(commitInv_of_run hdev hrun).users _ _ hblock]
  exact hdata.2.2

/-- Process 7 writes a word to block 5, and process 8 reads it. -/
theorem bread_returns_last_write : ∃ s, Machine.Run (Sys.step mkfsSuperblock (memide FSSIZE) 1)
      (Sys.init mkfsSuperblock ⟨fun _ ↦ none, fun _ ↦ none⟩ fun _ _ ↦ Block.zero)
      (readOne 7 5 ⟨0, by decide⟩ ++ [.op (.modify ⟨⟨7, false⟩, 1, 5, ⟨0, by decide⟩, .ready⟩ (Block.zero.setWord 3 5)),
        .op (.bwrite ⟨⟨7, false⟩, 1, 5, ⟨0, by decide⟩, .ready⟩)] ++ releaseOne 7 5 ⟨0, by decide⟩ ++
        (readOne 8 5 ⟨0, by decide⟩).take 2) s ∧
    ∃ t, s.step mkfsSuperblock (memide FSSIZE) 1 (.op (.fill ⟨⟨8, false⟩, 1, 5, ⟨0, by decide⟩, .locked⟩)) =
      some (.ok t) ∧ (t.cache.buf ⟨0, by decide⟩).data.word 3 = 5 := by
  refine Machine.exists_run_of (fun s ↦ (contents (fun _ _ ↦ Block.zero) s.cache.sections 1 5).word 3 = 5 ∧
    Machine.reaches (Sys.step mkfsSuperblock (memide FSSIZE) 1) s
      [.op (.fill ⟨⟨8, false⟩, 1, 5, ⟨0, by decide⟩, .locked⟩)] fun _ ↦ true) (by decide +kernel) fun s run hs ↦ ?_
  obtain ⟨t, hstep, -⟩ := Machine.exists_step hs.2
  refine ⟨t, hstep, ?_⟩
  rw [(bread_returns_last run Nat.one_ne_zero hstep).1.2.2]
  exact hs.1

end Bio

end Xv6
