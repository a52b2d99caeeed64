import Xv6.Bio.Cache

/-!
# The buffer cache as a block store

A block has one value at a time: what the last use of it has left (`Bio.contents`). It may be in a
buffer that is clean or pinned, or only on the disk. `Bio.Coherent` says where it is found, and with
`Bio.Locks`, what the locks guarantee to their holders, it is kept by every step. So `bread` returns
that value (`Bio.Cache.fill_data`).
-/

namespace Xv6

open Function

namespace Bio

/-- The user has the lock. -/
def Stage.holds : Stage → Bool
  | waiting | released => false
  | locked | ready => true

/-- The number of users that hold buffer `i`. -/
def Cache.holders (s : Cache) (i : Fin NBUF) : ℕ :=
  s.refs.countP fun r ↦ r.buf = i ∧ r.stage.holds

/-- What the locks guarantee. -/
structure Locks (s : Cache) : Prop where
  request : ∀ r ∈ s.refs, (s.buf r.buf).dev = r.dev ∧ (s.buf r.buf).blockno = r.blockno
  holders : ∀ i, s.holders i = if (s.buf i).lock.isSome then 1 else 0
  /-- When `bread` has returned the buffer is valid. -/
  ready : ∀ r ∈ s.refs, r.stage = .ready → (s.buf r.buf).valid = true
  /-- Data are changed only after `bread` has returned. -/
  edit : ∀ i, s.edit i ≠ .none → ∃ r ∈ s.refs, r.buf = i ∧ r.stage = .ready

/-- A buffer with respect to the disk and the store. -/
structure BufOk (disk store : ℕ → ℕ → Block) (b : Buf) (e : Edit) : Prop where
  data : b.valid = true → e = .none → b.data = store b.dev b.blockno
  clean : b.valid = true → b.dirty = false → e ≠ .unsaved → disk b.dev b.blockno = b.data
  absent : b.valid = false → disk b.dev b.blockno = store b.dev b.blockno

/-- Where the values of the blocks are. -/
structure Coherent (disk₀ : ℕ → ℕ → Block) (s : Cache) : Prop where
  invalid : ∀ i, (s.buf i).valid = false → (s.buf i).dirty = false
  buf : ∀ i, (s.buf i).dev ≠ 0 → BufOk s.disk (contents disk₀ s.sections) (s.buf i) (s.edit i)
  /-- The other blocks. -/
  uncached : ∀ dev b, dev ≠ 0 → (∀ i, (s.buf i).dev = dev → (s.buf i).blockno ≠ b) →
    s.disk dev b = contents disk₀ s.sections dev b

variable {s t : Cache} {d : Driver} {o : Op} {r q : Ref} {i : Fin NBUF} {disk₀ : ℕ → ℕ → Block}

open Cache

/-! ### One buffer changes -/

/-- Buffer `i` is now `b`, and its holder has done `e` with it. The other buffers are as before, and
so is the disk except for the block of `i`. -/
structure Touches (s : Cache) (i : Fin NBUF) (b : Buf) (e : Edit) (t : Cache) : Prop where
  self : t.buf i = b
  edit : t.edit i = e
  other : ∀ j ≠ i, t.buf j = s.buf j ∧ t.edit j = s.edit j
  disk : ∀ dev blockno, ¬(dev = (s.buf i).dev ∧ blockno = (s.buf i).blockno) →
    t.disk dev blockno = s.disk dev blockno

variable {b : Buf} {e : Edit}

theorem touches_setBuf (s : Cache) (i : Fin NBUF) (b : Buf) :
    Touches s i b (s.edit i) (s.setBuf i b) where
  self := update_self ..
  edit := rfl
  other := fun _ hj ↦ ⟨update_of_ne hj .., rfl⟩
  disk := fun _ _ _ ↦ rfl

theorem Touches.setEdit (h : Touches s i b e t) (e' : Edit) : Touches s i b e' (t.setEdit i e') where
  self := h.self
  edit := update_self ..
  other := fun j hj ↦ ⟨(h.other j hj).1, (update_of_ne hj ..).trans (h.other j hj).2⟩
  disk := h.disk

theorem Touches.move (h : Touches s i b e t) (r : Ref) (stage : Stage) :
    Touches s i b e (t.move r stage) :=
  { h with }

theorem touches_writeBack (s : Cache) (i : Fin NBUF) :
    Touches s i { s.buf i with dirty := false, valid := true } (s.edit i)
      ((s.setDirty i).writeBack i) := by
  have hself : (s.setDirty i).buf i = { s.buf i with dirty := true } := update_self ..
  refine ⟨?_, rfl, fun j hj ↦ ⟨?_, rfl⟩, fun dev blockno hne ↦ ?_⟩
  · show ((s.setDirty i).setBuf i _).buf i = _
    rw [buf_setBuf, if_pos rfl, hself]
  · show ((s.setDirty i).setBuf i _).buf j = _
    rw [buf_setBuf, if_neg hj, setDirty, buf_setBuf, if_neg hj]
  · show (if _ ∧ _ then _ else _) = _
    rw [hself]
    exact if_neg hne

theorem Touches.block (h : Touches s i b e t) (hb : b.dev = (s.buf i).dev ∧ b.blockno = (s.buf i).blockno)
    (j : Fin NBUF) : (t.buf j).dev = (s.buf j).dev ∧ (t.buf j).blockno = (s.buf j).blockno := by
  rcases eq_or_ne j i with rfl | hj
  · rw [h.self]
    exact hb
  · rw [(h.other j hj).1]
    exact ⟨rfl, rfl⟩

/-- What a step on a buffer in use does to the buffer. -/
theorem touches_exec (h : s.exec d o = some (.ok t)) :
    match o with
    | .bget _ _ _ | .relink _ => True
    | .acquiresleep r =>
        Touches s r.buf { s.buf r.buf with lock := some r.caller.proc } (s.edit r.buf) t
    | .fill r => ((s.buf r.buf).valid = true ∧ Touches s r.buf (s.buf r.buf) (s.edit r.buf) t) ∨
        ((s.buf r.buf).valid = false ∧ (s.buf r.buf).dirty = true) ∨
        ((s.buf r.buf).valid = false ∧ (s.buf r.buf).dirty = false ∧ Touches s r.buf
          { s.buf r.buf with valid := true, data := s.disk (s.buf r.buf).dev (s.buf r.buf).blockno }
          (s.edit r.buf) t ∧ t.disk = s.disk)
    | .modify r v => Touches s r.buf { s.buf r.buf with data := v } .unsaved t
    | .bwrite r => Touches s r.buf { s.buf r.buf with dirty := false, valid := true }
        (if s.edit r.buf = .none then .none else .saved) t ∧
        t.disk (s.buf r.buf).dev (s.buf r.buf).blockno = (s.buf r.buf).data
    | .pin r => Touches s r.buf { s.buf r.buf with dirty := true }
        (if s.edit r.buf = .none then .none else .saved) t
    | .releasesleep r => Touches s r.buf { s.buf r.buf with lock := none } .none t := by
  have hstep := exec_eq_ok h
  cases o with
  | bget c dev blockno | relink r => trivial
  | acquiresleep r =>
    obtain ⟨-, -, -, rfl⟩ := hstep
    exact (touches_setBuf s r.buf _).move r _
  | fill r =>
    obtain ⟨-, -, hfill⟩ := hstep
    rcases fill_eq_ok hfill with ⟨hv, rfl⟩ | ⟨hv, hd, -⟩ | ⟨hv, hd, rfl⟩
    · exact .inl ⟨hv, rfl, rfl, fun _ _ ↦ ⟨rfl, rfl⟩, fun _ _ _ ↦ rfl⟩
    · exact .inr (.inl ⟨hv, hd⟩)
    · exact .inr (.inr ⟨hv, hd, (touches_setBuf s r.buf _).move r _, rfl⟩)
  | modify r v =>
    obtain ⟨-, -, rfl⟩ := hstep
    exact (touches_setBuf s r.buf _).setEdit _
  | bwrite r =>
    obtain ⟨-, -, hwrite⟩ := hstep
    obtain ⟨-, rfl⟩ := bwrite_eq_ok hwrite
    refine ⟨(touches_writeBack s r.buf).setEdit _, ?_⟩
    have hself : (s.setDirty r.buf).buf r.buf = { s.buf r.buf with dirty := true } :=
      update_self ..
    show (if _ ∧ _ then ((s.setDirty r.buf).buf r.buf).data else _) = _
    rw [hself]
    exact if_pos ⟨rfl, rfl⟩
  | pin r =>
    obtain ⟨-, -, rfl⟩ := hstep
    exact (touches_setBuf s r.buf _).setEdit _
  | releasesleep r =>
    obtain ⟨-, -, -, -, rfl⟩ := hstep
    have ht := ((touches_setBuf s r.buf { s.buf r.buf with lock := none }).setEdit .none).move r
      .released
    exact { ht with }

/-! ### The locks -/

theorem Cache.holders_move (hr : r ∈ s.refs) (stage : Stage) (i : Fin NBUF) :
    (s.move r stage).holders i + (if r.buf = i ∧ r.stage.holds then 1 else 0) =
      s.holders i + if r.buf = i ∧ stage.holds then 1 else 0 := by
  have hperm := (List.perm_cons_erase hr).countP_eq fun r ↦ decide (r.buf = i ∧ r.stage.holds)
  rw [List.countP_cons] at hperm
  rw [Cache.holders, Cache.holders, hperm, Cache.move, List.countP_cons]
  simp only [decide_eq_true_eq]
  omega

/-- Two users do not hold the same buffer. -/
theorem Locks.eq_of_holds (h : Locks s) (hr : r ∈ s.refs) (hq : q ∈ s.refs)
    (hrs : r.stage.holds = true) (hqs : q.stage.holds = true) (hbuf : q.buf = r.buf) : q = r := by
  refine of_not_not fun hne ↦ ?_
  have hperm := (List.perm_cons_erase hr).countP_eq
    fun q ↦ decide (q.buf = r.buf ∧ q.stage.holds)
  have hmem : q ∈ s.refs.erase r := (List.mem_erase_of_ne hne).2 hq
  have hpos : 0 < (s.refs.erase r).countP fun q ↦ decide (q.buf = r.buf ∧ q.stage.holds) :=
    List.countP_pos_iff.2 ⟨q, hmem, decide_eq_true ⟨hbuf, hqs⟩⟩
  have hone := h.holders r.buf
  rw [List.countP_cons, if_pos (decide_eq_true ⟨rfl, hrs⟩)] at hperm
  rw [Cache.holders] at hone
  split at hone <;> omega

/-- While a user is still in `bread`, nobody changes the data. -/
theorem Locks.edit_of_locked (h : Locks s) (hr : r ∈ s.refs) (hstage : r.stage = .locked) :
    s.edit r.buf = .none := by
  refine of_not_not fun hne ↦ ?_
  obtain ⟨q, hq, hbuf, hready⟩ := h.edit _ hne
  have heq := h.eq_of_holds hr hq (by rw [hstage]; rfl) (by rw [hready]; rfl) hbuf
  rw [heq, hstage] at hready
  cases hready

/-- A buffer without users is not being changed. -/
theorem Locks.edit_of_unused (h : Locks s) (hinv : CacheInv s) (hi : (s.buf i).refcnt = 0) :
    s.edit i = .none := by
  refine of_not_not fun hne ↦ ?_
  obtain ⟨q, hq, hbuf, -⟩ := h.edit i hne
  rw [hinv.refcnt, List.countP_eq_zero] at hi
  exact hi q hq (decide_eq_true hbuf)

theorem Locks.init (L : BufLinks) (disk : ℕ → ℕ → Block) : Locks (Cache.init L disk) where
  request := nofun
  holders := fun _ ↦ rfl
  ready := nofun
  edit := fun _ hne ↦ absurd rfl hne

theorem Locks.isSome_lock (h : Locks s) (hr : r ∈ s.refs) (hstage : r.stage.holds = true) :
    (s.buf r.buf).lock.isSome = true := by
  have hpos : 0 < s.holders r.buf :=
    List.countP_pos_iff.2 ⟨r, hr, decide_eq_true ⟨rfl, hstage⟩⟩
  rw [h.holders] at hpos
  split at hpos
  next hlock => exact hlock
  · exact absurd hpos (Nat.lt_irrefl 0)

/-- A buffer changes and stays with its holder. -/
theorem Locks.touches (h : Locks s) (ht : Touches s i b e t) (hrefs : t.refs = s.refs)
    (hb : b.dev = (s.buf i).dev ∧ b.blockno = (s.buf i).blockno)
    (hlock : b.lock = (s.buf i).lock) (hvalid : (s.buf i).valid = true → b.valid = true)
    (hedit : e ≠ .none → ∃ r ∈ s.refs, r.buf = i ∧ r.stage = .ready) : Locks t := by
  refine ⟨fun q hq ↦ ?_, fun j ↦ ?_, fun q hq hstage ↦ ?_, fun j hne ↦ ?_⟩
  · rw [(ht.block hb _).1, (ht.block hb _).2]
    exact h.request q (hrefs ▸ hq)
  · have hsame : (t.buf j).lock = (s.buf j).lock := by
      rcases eq_or_ne j i with rfl | hj
      · rw [ht.self, hlock]
      · rw [(ht.other j hj).1]
    rw [hsame, ← h.holders, Cache.holders, Cache.holders, hrefs]
  · have hq := h.ready q (hrefs ▸ hq) hstage
    rcases eq_or_ne q.buf i with hqi | hqi
    · rw [hqi] at hq ⊢
      rw [ht.self]
      exact hvalid hq
    · rw [(ht.other _ hqi).1]
      exact hq
  · rw [hrefs]
    rcases eq_or_ne j i with rfl | hj
    · rw [ht.edit] at hne
      exact hedit hne
    · rw [(ht.other j hj).2] at hne
      exact h.edit j hne

/-- A use of a buffer goes on. -/
theorem Locks.move (h : Locks s) (hr : r ∈ s.refs) (ht : Touches s r.buf b e t)
    (hrefs : t.refs = s.refs) {stage : Stage}
    (hb : b.dev = (s.buf r.buf).dev ∧ b.blockno = (s.buf r.buf).blockno)
    (hold : (s.buf r.buf).lock.isSome = r.stage.holds) (hnew : b.lock.isSome = stage.holds)
    (hvalid : (s.buf r.buf).valid = true → b.valid = true)
    (hready : stage = .ready → b.valid = true) (hedit : e = .none ∨ (e = s.edit r.buf ∧ r.stage ≠ .ready)) :
    Locks (t.move r stage) := by
  have hmem {q : Ref} (hq : q ∈ (t.move r stage).refs) :
      q = { r with stage := stage } ∨ q ∈ s.refs := by
    rcases List.mem_cons.1 hq with rfl | hq
    · exact .inl rfl
    · exact .inr (hrefs ▸ List.mem_of_mem_erase hq)
  refine ⟨fun q hq ↦ ?_, fun j ↦ ?_, fun q hq hstage ↦ ?_, fun j hne ↦ ?_⟩
  · show (t.buf q.buf).dev = _ ∧ (t.buf q.buf).blockno = _
    rw [(ht.block hb _).1, (ht.block hb _).2]
    rcases hmem hq with rfl | hq
    · exact h.request r hr
    · exact h.request q hq
  · have hmove := holders_move (s := t) (hrefs ▸ hr) stage j
    have hsame : t.holders j = s.holders j := by rw [Cache.holders, Cache.holders, hrefs]
    rw [hsame, h.holders] at hmove
    show _ = if (t.buf j).lock.isSome then 1 else 0
    rcases eq_or_ne j r.buf with rfl | hj
    · rw [hold] at hmove
      rw [ht.self, hnew]
      simp only [true_and] at hmove
      omega
    · have hnot (b : Prop) : ¬(r.buf = j ∧ b) := fun hc ↦ hj hc.1.symm
      rw [if_neg (hnot _), if_neg (hnot _)] at hmove
      rw [(ht.other j hj).1]
      exact hmove
  · show (t.buf q.buf).valid = true
    rcases eq_or_ne q.buf r.buf with hqr | hqr
    · rw [hqr, ht.self]
      rcases hmem hq with rfl | hq
      · exact hready hstage
      · exact hvalid (hqr ▸ h.ready q hq hstage)
    · rw [(ht.other _ hqr).1]
      rcases hmem hq with rfl | hq
      · exact absurd rfl hqr
      · exact h.ready q hq hstage
  · change t.edit j ≠ .none at hne
    have hne' : s.edit j ≠ .none ∧ (j = r.buf → r.stage ≠ .ready) := by
      rcases eq_or_ne j r.buf with rfl | hj
      · rw [ht.edit] at hne
        rcases hedit with hnone | ⟨heq, hstage⟩
        · exact absurd hnone hne
        · exact ⟨heq ▸ hne, fun _ ↦ hstage⟩
      · rw [(ht.other j hj).2] at hne
        exact ⟨hne, fun hj' ↦ absurd hj' hj⟩
    obtain ⟨q, hq, hqj, hqs⟩ := h.edit j hne'.1
    refine ⟨q, List.mem_cons_of_mem _ ?_, hqj, hqs⟩
    rw [hrefs]
    refine (List.mem_erase_of_ne ?_).2 hq
    rintro rfl
    exact hne'.2 hqj.symm hqs

/-- A new use of a buffer, which may have been recycled if it had no users. -/
theorem Locks.addRef (h : Locks s) {c : Caller} {dev blockno : ℕ} (hrefs : t.refs = s.refs)
    (hbuf : ∀ q ∈ s.refs, t.buf q.buf = s.buf q.buf ∨ ((t.buf q.buf).dev = (s.buf q.buf).dev ∧
      (t.buf q.buf).blockno = (s.buf q.buf).blockno ∧ (t.buf q.buf).valid = (s.buf q.buf).valid))
    (hnew : (t.buf i).dev = dev ∧ (t.buf i).blockno = blockno)
    (hlock : ∀ j, (t.buf j).lock = (s.buf j).lock) (hedit : t.edit = s.edit) :
    Locks (t.addRef c dev blockno i) := by
  have hold {q : Ref} (hq : q ∈ s.refs) : (t.buf q.buf).dev = (s.buf q.buf).dev ∧
      (t.buf q.buf).blockno = (s.buf q.buf).blockno ∧
      (t.buf q.buf).valid = (s.buf q.buf).valid := by
    rcases hbuf q hq with heq | heq
    · rw [heq]
      exact ⟨rfl, rfl, rfl⟩
    · exact heq
  refine ⟨fun q hq ↦ ?_, fun j ↦ ?_, fun q hq hstage ↦ ?_, fun j hne ↦ ?_⟩
  · rcases List.mem_cons.1 hq with rfl | hq
    · exact hnew
    · rw [hrefs] at hq
      show (t.buf q.buf).dev = _ ∧ (t.buf q.buf).blockno = _
      rw [(hold hq).1, (hold hq).2.1]
      exact h.request q hq
  · show (_ :: t.refs).countP _ = if (t.buf j).lock.isSome then 1 else 0
    rw [hlock, ← h.holders, List.countP_cons, hrefs, Cache.holders]
    simp [Stage.holds]
  · rcases List.mem_cons.1 hq with rfl | hq
    · cases hstage
    · rw [hrefs] at hq
      exact (hold hq).2.2.trans (h.ready q hq hstage)
  · change t.edit j ≠ .none at hne
    rw [hedit] at hne
    obtain ⟨q, hq, hqj⟩ := h.edit j hne
    exact ⟨q, List.mem_cons_of_mem _ (hrefs ▸ hq), hqj⟩

theorem Cache.buf_relink (s : Cache) (r : Ref) (j : Fin NBUF) : (s.relink r).buf j =
    if j = r.buf then { s.buf r.buf with refcnt := (s.buf r.buf).refcnt - 1 } else s.buf j := by
  have hbuf : (s.relink r).buf = (s.dropRef r).buf := by
    rw [Cache.relink]
    split <;> rfl
  rw [hbuf]
  exact buf_setBuf ..

theorem Cache.refs_relink (s : Cache) (r : Ref) : (s.relink r).refs = s.refs.erase r := by
  rw [Cache.relink]
  split <;> rfl

theorem Cache.rest_relink (s : Cache) (r : Ref) : (s.relink r).edit = s.edit ∧
    (s.relink r).disk = s.disk ∧ (s.relink r).sections = s.sections := by
  rw [Cache.relink]
  split <;> exact ⟨rfl, rfl, rfl⟩

/-- A buffer is given back. -/
theorem Locks.relink (h : Locks s) (hr : r ∈ s.refs) (hstage : r.stage = .released) :
    Locks (s.relink r) := by
  have hbuf (j : Fin NBUF) : ((s.relink r).buf j).dev = (s.buf j).dev ∧
      ((s.relink r).buf j).blockno = (s.buf j).blockno ∧
      ((s.relink r).buf j).lock = (s.buf j).lock ∧
      ((s.relink r).buf j).valid = (s.buf j).valid := by
    rw [buf_relink]
    split
    next hj => rw [hj]; exact ⟨rfl, rfl, rfl, rfl⟩
    · exact ⟨rfl, rfl, rfl, rfl⟩
  have hmem {q : Ref} (hq : q ∈ (s.relink r).refs) : q ∈ s.refs := by
    rw [refs_relink] at hq
    exact List.mem_of_mem_erase hq
  refine ⟨fun q hq ↦ ?_, fun j ↦ ?_, fun q hq hready ↦ ?_, fun j hne ↦ ?_⟩
  · rw [(hbuf _).1, (hbuf _).2.1]
    exact h.request q (hmem hq)
  · have hperm := (List.perm_cons_erase hr).countP_eq fun r ↦ decide (r.buf = j ∧ r.stage.holds)
    have hnot : ¬(r.buf = j ∧ r.stage.holds = true) := by
      rw [hstage]
      exact fun hc ↦ nomatch hc.2
    rw [List.countP_cons, decide_eq_false hnot, if_neg Bool.false_ne_true] at hperm
    rw [(hbuf j).2.2.1, ← h.holders, Cache.holders, Cache.holders, refs_relink, hperm]
    rfl
  · rw [(hbuf _).2.2.2]
    exact h.ready q (hmem hq) hready
  · rw [(rest_relink s r).1] at hne
    obtain ⟨q, hq, hqj, hqs⟩ := h.edit j hne
    refine ⟨q, ?_, hqj, hqs⟩
    rw [refs_relink]
    refine (List.mem_erase_of_ne ?_).2 hq
    rintro rfl
    rw [hstage] at hqs
    cases hqs

/-- Every step keeps what the locks guarantee. -/
theorem Locks.exec (h : Locks s) (hinv : CacheInv s)
    (hinvalid : ∀ i, (s.buf i).valid = false → (s.buf i).dirty = false)
    (hexec : s.exec d o = some (.ok t)) : Locks t := by
  have hstep := exec_eq_ok hexec
  cases o with
  | bget c dev blockno =>
    rcases bget_eq_ok hinv hstep with ⟨i, hdev, hblockno, rfl⟩ | ⟨i, -, hi, -, rfl⟩
    · have ht := touches_setBuf s i { s.buf i with refcnt := (s.buf i).refcnt + 1 }
      refine h.addRef rfl (fun q _ ↦ ?_) ⟨?_, ?_⟩ (fun j ↦ ?_) rfl
      · rcases eq_or_ne q.buf i with hqi | hqi
        · rw [hqi, ht.self]
          exact .inr ⟨rfl, rfl, rfl⟩
        · exact .inl (ht.other _ hqi).1
      · rw [ht.self]
        exact hdev
      · rw [ht.self]
        exact hblockno
      · rcases eq_or_ne j i with rfl | hj
        · rw [ht.self]
        · rw [(ht.other j hj).1]
    · have ht := touches_setBuf s i { s.buf i with
        dev := dev, blockno := blockno, valid := false, dirty := false, refcnt := 1 }
      refine h.addRef rfl (fun q hq ↦ ?_) ⟨?_, ?_⟩ (fun j ↦ ?_) rfl
      · rw [hinv.refcnt, List.countP_eq_zero] at hi
        have hqi : q.buf ≠ i := fun hqi ↦ hi q hq (decide_eq_true hqi)
        exact .inl (ht.other _ hqi).1
      · rw [ht.self]
      · rw [ht.self]
      · rcases eq_or_ne j i with rfl | hj
        · rw [ht.self]
        · rw [(ht.other j hj).1]
  | acquiresleep r =>
    obtain ⟨hr, hstage, hlock, rfl⟩ := hstep
    refine h.move hr (touches_setBuf s r.buf _) rfl ⟨rfl, rfl⟩ ?_ rfl id nofun
      (.inr ⟨rfl, ?_⟩)
    · rw [hlock, hstage]
      rfl
    · rw [hstage]
      exact nofun
  | fill r =>
    obtain ⟨hr, hstage, hfill⟩ := hstep
    have hlock := h.isSome_lock hr (by rw [hstage]; rfl)
    have hedit : r.stage ≠ .ready := by
      rw [hstage]
      exact nofun
    have hold : (s.buf r.buf).lock.isSome = r.stage.holds := by
      rw [hlock, hstage]
      rfl
    rcases fill_eq_ok hfill with ⟨hv, rfl⟩ | ⟨hv, hdirty, -⟩ | ⟨-, -, rfl⟩
    · exact h.move hr (b := s.buf r.buf) (e := s.edit r.buf)
        ⟨rfl, rfl, fun _ _ ↦ ⟨rfl, rfl⟩, fun _ _ _ ↦ rfl⟩ rfl ⟨rfl, rfl⟩ hold hlock id (fun _ ↦ hv)
        (.inr ⟨rfl, hedit⟩)
    · rw [hinvalid _ hv] at hdirty
      cases hdirty
    · exact h.move hr (touches_setBuf s r.buf _) rfl ⟨rfl, rfl⟩ hold hlock (fun _ ↦ rfl)
        (fun _ ↦ rfl) (.inr ⟨rfl, hedit⟩)
  | modify r v =>
    obtain ⟨hr, hstage, rfl⟩ := hstep
    exact h.touches (touches_exec hexec) rfl ⟨rfl, rfl⟩ rfl id fun _ ↦ ⟨r, hr, rfl, hstage⟩
  | bwrite r =>
    obtain ⟨hr, hstage, hwrite⟩ := hstep
    have ht := (touches_exec hexec).1
    obtain ⟨-, rfl⟩ := bwrite_eq_ok hwrite
    exact h.touches ht rfl ⟨rfl, rfl⟩ rfl (fun _ ↦ rfl) fun _ ↦ ⟨r, hr, rfl, hstage⟩
  | pin r =>
    obtain ⟨hr, hstage, rfl⟩ := hstep
    exact h.touches (touches_exec hexec) rfl ⟨rfl, rfl⟩ rfl id fun _ ↦ ⟨r, hr, rfl, hstage⟩
  | releasesleep r =>
    obtain ⟨hr, hstage, -, hlock, rfl⟩ := hstep
    have hmove : Locks (((s.setBuf r.buf { s.buf r.buf with lock := none }).setEdit r.buf
        .none).move r .released) :=
      h.move hr ((touches_setBuf s r.buf _).setEdit .none) rfl ⟨rfl, rfl⟩
        (by rw [hlock, hstage]; rfl) rfl id nofun (.inl rfl)
    exact { hmove with }
  | relink r =>
    obtain ⟨hr, hstage, rfl⟩ := hstep
    exact h.relink hr hstage

/-! ### The values of the blocks -/

theorem contents_cons_of_ne {c : Section} {l : List Section} {dev b : ℕ}
    (h : ¬(dev = c.dev ∧ b = c.blockno)) : contents disk₀ (c :: l) dev b = contents disk₀ l dev b := by
  rw [contents, if_neg]
  intro hc
  exact h ⟨hc.1.symm, hc.2.symm⟩

theorem Coherent.init (L : BufLinks) (disk : ℕ → ℕ → Block) : Coherent disk (Cache.init L disk) where
  invalid := fun _ _ ↦ rfl
  buf := fun _ hdev ↦ absurd rfl hdev
  uncached := fun _ _ _ _ ↦ rfl

variable (h : Coherent disk₀ s)

include h

/-- A buffer changes, and the values of other blocks do not. -/
theorem Coherent.touches (hinv : CacheInv s) (ht : Touches s i b e t)
    (hb : b.dev = (s.buf i).dev ∧ b.blockno = (s.buf i).blockno)
    (hstore : ∀ dev blockno, ¬(dev = (s.buf i).dev ∧ blockno = (s.buf i).blockno) →
      contents disk₀ t.sections dev blockno = contents disk₀ s.sections dev blockno)
    (hinvalid : b.valid = false → b.dirty = false)
    (hok : b.dev ≠ 0 → BufOk t.disk (contents disk₀ t.sections) b e) : Coherent disk₀ t := by
  refine ⟨fun j hj ↦ ?_, fun j hdev ↦ ?_, fun dev blockno hdev hmiss ↦ ?_⟩
  · rcases eq_or_ne j i with rfl | hji
    · rw [ht.self] at hj ⊢
      exact hinvalid hj
    · rw [(ht.other j hji).1] at hj ⊢
      exact h.invalid j hj
  · rcases eq_or_ne j i with rfl | hji
    · rw [ht.self] at hdev ⊢
      rw [ht.edit]
      exact hok hdev
    · rw [(ht.other j hji).1] at hdev ⊢
      rw [(ht.other j hji).2]
      -- it is the buffer of another block
      have hne : ¬((s.buf j).dev = (s.buf i).dev ∧ (s.buf j).blockno = (s.buf i).blockno) :=
        fun hc ↦ hji (hinv.unique j i hdev hc.1 hc.2)
      obtain ⟨hdata, hclean, habsent⟩ := h.buf j hdev
      rw [← ht.disk _ _ hne] at hclean habsent
      rw [← hstore _ _ hne] at hdata habsent
      exact ⟨hdata, hclean, habsent⟩
  · have hne : ¬(dev = (s.buf i).dev ∧ blockno = (s.buf i).blockno) := by
      rintro ⟨hd, hbl⟩
      refine hmiss i ?_ ?_
      · rw [ht.self, hb.1, hd]
      · rw [ht.self, hb.2, hbl]
    rw [ht.disk _ _ hne, hstore _ _ hne]
    refine h.uncached dev blockno hdev fun j hd hbl ↦ hmiss j ?_ ?_
    · rw [(ht.block hb j).1, hd]
    · rw [(ht.block hb j).2, hbl]

/-- A buffer without users is recycled: its block has its value on the disk. -/
theorem Coherent.recycle (hinv : CacheInv s) (hl : Locks s) (c : Caller)
    {dev blockno : ℕ} (hi : (s.buf i).refcnt = 0) (hdirty : (s.buf i).dirty = false)
    (hmiss : ∀ j, (s.buf j).dev = dev → (s.buf j).blockno ≠ blockno) :
    Coherent disk₀ (s.recycle c dev blockno i) := by
  have hedit := hl.edit_of_unused hinv hi
  have ht := touches_setBuf s i { s.buf i with
    dev := dev, blockno := blockno, valid := false, dirty := false, refcnt := 1 }
  suffices hset : Coherent disk₀ (s.setBuf i { s.buf i with
      dev := dev, blockno := blockno, valid := false, dirty := false, refcnt := 1 }) from
    ⟨hset.invalid, hset.buf, hset.uncached⟩
  refine ⟨fun j hj ↦ ?_, fun j hdev ↦ ?_, fun dev' blockno' hdev hmiss' ↦ ?_⟩
  · rcases eq_or_ne j i with rfl | hji
    · rw [ht.self]
    · rw [(ht.other j hji).1] at hj ⊢
      exact h.invalid j hj
  · rcases eq_or_ne j i with rfl | hji
    · rw [ht.self] at hdev ⊢
      exact ⟨nofun, nofun,
        fun _ ↦ h.uncached dev blockno hdev hmiss⟩
    · rw [(ht.other j hji).1] at hdev ⊢
      exact h.buf j hdev
  · rcases Decidable.em ((s.buf i).dev = dev' ∧ (s.buf i).blockno = blockno') with ⟨rfl, rfl⟩ | hne
    · obtain ⟨hdata, hclean, habsent⟩ := h.buf i hdev
      cases hv : (s.buf i).valid with
      | false => exact habsent hv
      | true =>
        exact (hclean hv hdirty (by rw [hedit]; exact nofun)).trans (hdata hv hedit)
    · refine h.uncached dev' blockno' hdev fun j hd hbl ↦ ?_
      have hji : j ≠ i := by
        rintro rfl
        exact hne ⟨hd, hbl⟩
      refine hmiss' j ?_ ?_
      · rw [(ht.other j hji).1, hd]
      · rw [(ht.other j hji).1, hbl]

/-- Every step keeps the values where they are found. -/
theorem Coherent.exec (hinv : CacheInv s) (hl : Locks s)
    (hexec : s.exec d o = some (.ok t)) : Coherent disk₀ t := by
  have hstep := exec_eq_ok hexec
  have htouch := touches_exec hexec
  cases o with
  | bget c dev blockno =>
    rcases bget_eq_ok hinv hstep with ⟨i, -, -, rfl⟩ | ⟨i, hmiss, hi, hdirty, rfl⟩
    · have ht := h.touches hinv
        (touches_setBuf s i { s.buf i with refcnt := (s.buf i).refcnt + 1 }) ⟨rfl, rfl⟩
        (fun _ _ _ ↦ rfl) (h.invalid i) fun hdev ↦
          ⟨(h.buf i hdev).data, (h.buf i hdev).clean, (h.buf i hdev).absent⟩
      exact ⟨ht.invalid, ht.buf, ht.uncached⟩
    · exact h.recycle hinv hl c hi hdirty hmiss
  | acquiresleep r =>
    obtain ⟨-, -, -, rfl⟩ := hstep
    exact h.touches hinv htouch ⟨rfl, rfl⟩ (fun _ _ _ ↦ rfl) (h.invalid r.buf) fun hdev ↦
      ⟨(h.buf r.buf hdev).data, (h.buf r.buf hdev).clean, (h.buf r.buf hdev).absent⟩
  | fill r =>
    obtain ⟨hr, hstage, hfill⟩ := hstep
    have hsections : t.sections = s.sections := by
      rcases fill_eq_ok hfill with ⟨-, rfl⟩ | ⟨-, -, rfl⟩ | ⟨-, -, rfl⟩
      all_goals rfl
    rcases htouch with ⟨hv, ht⟩ | ⟨hv, hdirty⟩ | ⟨hv, hdirty, ht, hdisk⟩
    · rcases fill_eq_ok hfill with ⟨-, rfl⟩ | ⟨hv', -⟩ | ⟨hv', -⟩
      · exact ⟨h.invalid, h.buf, h.uncached⟩
      · rw [hv] at hv'
        cases hv'
      · rw [hv] at hv'
        cases hv'
    · rw [h.invalid _ hv] at hdirty
      cases hdirty
    · refine h.touches hinv ht ⟨rfl, rfl⟩ (fun _ _ _ ↦ by rw [hsections]) nofun ?_
      intro hdev
      rw [hsections, hdisk]
      exact ⟨fun _ _ ↦ (h.buf r.buf hdev).absent hv, fun _ _ _ ↦ rfl, nofun⟩
  | modify r v =>
    obtain ⟨hr, hstage, rfl⟩ := hstep
    have hv := hl.ready r hr hstage
    refine h.touches hinv htouch ⟨rfl, rfl⟩ (fun _ _ _ ↦ rfl) (h.invalid r.buf) fun hdev ↦ ?_
    exact ⟨nofun, fun _ _ hc ↦ absurd rfl hc, fun hc ↦ nomatch hv.symm.trans hc⟩
  | bwrite r =>
    obtain ⟨hr, hstage, hwrite⟩ := hstep
    obtain ⟨ht, hdisk⟩ := htouch
    have hsections : t.sections = s.sections := by
      obtain ⟨-, rfl⟩ := bwrite_eq_ok hwrite
      rfl
    have hv := hl.ready r hr hstage
    refine h.touches hinv ht ⟨rfl, rfl⟩ (fun _ _ _ ↦ by rw [hsections]) nofun
      fun hdev ↦ ⟨fun _ he ↦ ?_, fun _ _ _ ↦ hdisk, nofun⟩
    rw [hsections]
    refine (h.buf r.buf hdev).data hv ?_
    split at he
    next hnone => exact hnone
    · cases he
  | pin r =>
    obtain ⟨hr, hstage, rfl⟩ := hstep
    have hv := hl.ready r hr hstage
    refine h.touches hinv htouch ⟨rfl, rfl⟩ (fun _ _ _ ↦ rfl)
      (fun hc ↦ nomatch hv.symm.trans hc)
      fun hdev ↦ ⟨fun _ he ↦ ?_, nofun, fun hc ↦ nomatch hv.symm.trans hc⟩
    refine (h.buf r.buf hdev).data hv ?_
    split at he
    next hnone => exact hnone
    · cases he
  | releasesleep r =>
    obtain ⟨hr, hstage, hedit, -, rfl⟩ := hstep
    have hv := hl.ready r hr hstage
    refine h.touches hinv htouch ⟨rfl, rfl⟩ (fun dev blockno hne ↦ contents_cons_of_ne hne)
      (h.invalid r.buf) fun hdev ↦ ⟨fun _ _ ↦ ?_, fun hv hdirty _ ↦ ?_,
        fun hc ↦ nomatch hv.symm.trans hc⟩
    · exact (if_pos ⟨rfl, rfl⟩).symm
    · exact (h.buf r.buf hdev).clean hv hdirty hedit
  | relink r =>
    obtain ⟨-, -, rfl⟩ := hstep
    obtain ⟨hedit, hdisk, hsections⟩ := rest_relink s r
    have ht : Touches s r.buf { s.buf r.buf with refcnt := (s.buf r.buf).refcnt - 1 }
        (s.edit r.buf) (s.relink r) := by
      refine ⟨?_, by rw [hedit], fun j hj ↦ ⟨?_, by rw [hedit]⟩, fun _ _ _ ↦ by rw [hdisk]⟩
      · rw [buf_relink, if_pos rfl]
      · rw [buf_relink, if_neg hj]
    refine h.touches hinv ht ⟨rfl, rfl⟩ (fun _ _ _ ↦ by rw [hsections]) (h.invalid r.buf) fun hdev ↦ ?_
    rw [hdisk, hsections]
    exact ⟨(h.buf r.buf hdev).data, (h.buf r.buf hdev).clean, (h.buf r.buf hdev).absent⟩

/-- `bread` returns a buffer with the block that was asked for and its value. -/
theorem Coherent.fill_data (hl : Locks s)
    (hexec : s.exec d (.fill r) = some (.ok t)) (hdev : r.dev ≠ 0) :
    (t.buf r.buf).dev = r.dev ∧ (t.buf r.buf).blockno = r.blockno ∧
      (t.buf r.buf).data = contents disk₀ s.sections r.dev r.blockno := by
  obtain ⟨hr, hstage, hfill⟩ := exec_eq_ok hexec
  obtain ⟨hd, hb⟩ := hl.request r hr
  have hedit := hl.edit_of_locked hr hstage
  have hbuf := h.buf r.buf (hd ▸ hdev)
  rcases touches_exec hexec with ⟨hv, ht⟩ | ⟨hv, hdirty⟩ | ⟨hv, -, ht, -⟩
  · rw [ht.self, ← hd, ← hb]
    exact ⟨rfl, rfl, hbuf.data hv hedit⟩
  · rw [h.invalid _ hv] at hdirty
    cases hdirty
  · rw [ht.self, ← hd, ← hb]
    exact ⟨rfl, rfl, hbuf.absent hv⟩

end Bio

end Xv6
