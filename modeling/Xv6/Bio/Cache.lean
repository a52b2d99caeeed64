import Mathlib.Data.Fintype.Card
import Mathlib.Data.List.FinRange
import Xv6.Bio.Basic

/-!
# The buffers and their list

What `bio.c` maintains in every run: the links form one ring of `bcache.head` and all buffers, no
block is in two buffers, and `refcnt` counts the uses of a buffer (`Bio.CacheInv`). A step changes
this data in three ways only: a block is found in a buffer, a buffer is recycled, or a buffer is given
back (`Bio.Cache.exec_eq_ok`); everything else leaves it alone (`Bio.Cache.Frame`).
-/

namespace Xv6

open Function

namespace Bio

/-- The invariant of the buffer cache. -/
structure CacheInv (s : Cache) : Prop where
  ring : ∃ l : List (Fin NBUF), s.links.IsRing none (l.map some) ∧ ∀ i, i ∈ l
  /-- No block is in two buffers. Buffers that have not been used yet have device 0. -/
  unique : ∀ i j, (s.buf i).dev ≠ 0 → (s.buf i).dev = (s.buf j).dev →
    (s.buf i).blockno = (s.buf j).blockno → i = j
  /-- `refcnt` is the number of uses. -/
  refcnt : ∀ i, (s.buf i).refcnt = s.refs.countP fun r ↦ r.buf = i

namespace Cache

variable {s t : Cache} {d : Driver} {o : Op} {r : Ref} {i : Fin NBUF}

/-! ### `binit` -/

/-- Each turn of the loop puts a buffer in front. -/
theorem isRing_foldl {L : BufLinks} {l m : List (Fin NBUF)} (h : L.IsRing none (l.map some))
    (hm : m.Nodup) (hlm : ∀ i ∈ m, i ∉ l) :
    (m.foldl (fun L i ↦ L.insertAfter none (some i)) L).IsRing none ((m.reverse ++ l).map some) := by
  induction m generalizing L l with
  | nil => exact h
  | cons i m ih =>
    rw [List.nodup_cons] at hm
    have hi : some i ∉ none :: l.map some := by
      rw [List.mem_cons, not_or]
      refine ⟨Option.some_ne_none i, fun hmem ↦ ?_⟩
      obtain ⟨j, hj, hji⟩ := List.mem_map.1 hmem
      exact hlm i List.mem_cons_self (Option.some.inj hji ▸ hj)
    rw [List.foldl_cons, List.reverse_cons, List.append_assoc, List.singleton_append]
    refine ih (h.insertAfter hi) hm.2 fun j hj hmem ↦ ?_
    rcases List.mem_cons.1 hmem with rfl | hmem
    · exact hm.1 hj
    · exact hlm j (List.mem_cons_of_mem _ hj) hmem

theorem isRing_binit (L : BufLinks) :
    (binit L).IsRing none ((List.finRange NBUF).reverse.map some) := by
  have hring := isRing_foldl (l := []) (L.isRing_single none) (List.nodup_finRange NBUF)
    fun _ _ ↦ List.not_mem_nil
  rwa [List.append_nil] at hring

/-! ### The loops of `bget` -/

section Loops

variable {l : List (Fin NBUF)}

variable (h : s.links.IsRing none (l.map some))

include h

/-- All buffers are in the list once, and so the loops are long enough. -/
theorem length_lt_of_isRing : (l.map some).length < NBUF + 1 := by
  have hnodup : l.Nodup := (List.nodup_cons.1 h.nodup).2.of_map
  rw [List.length_map]
  exact Nat.lt_succ_of_le (hnodup.length_le_card.trans_eq (Fintype.card_fin NBUF))

theorem cached_eq (dev blockno : ℕ) : s.cached dev blockno = some ((l.find? fun i ↦
      (s.buf i).dev == dev && (s.buf i).blockno == blockno).map some) := by
  rw [cached, h.walk_next _ (length_lt_of_isRing h), List.find?_map]
  rfl

theorem unused_eq :
    s.unused = some ((l.reverse.find? fun i ↦ (s.buf i).refcnt == 0 && !(s.buf i).dirty).map some) := by
  rw [unused, h.walk_prev _ (length_lt_of_isRing h), ← List.map_reverse, List.find?_map]
  rfl

end Loops

/-- `bget` finds the block, or it is in no buffer and a buffer that is not in use is recycled. -/
theorem bget_eq_ok (h : CacheInv s) {c : Caller} {dev blockno : ℕ}
    (hget : s.bget c dev blockno = some (.ok t)) :
    (∃ i, (s.buf i).dev = dev ∧ (s.buf i).blockno = blockno ∧ t = s.hit c dev blockno i) ∨
    ∃ i, (∀ j, (s.buf j).dev = dev → (s.buf j).blockno ≠ blockno) ∧ (s.buf i).refcnt = 0 ∧
      (s.buf i).dirty = false ∧ t = s.recycle c dev blockno i := by
  obtain ⟨l, hring, hall⟩ := h.ring
  rw [bget, cached_eq hring, unused_eq hring] at hget
  rcases hfind : l.find? fun i ↦ (s.buf i).dev == dev && (s.buf i).blockno == blockno with - | i
  · right
    rw [hfind] at hget
    rcases hrec : l.reverse.find? fun i ↦ (s.buf i).refcnt == 0 && !(s.buf i).dirty with - | i
    · rw [hrec] at hget
      cases hget
    · rw [hrec] at hget
      have hi := List.find?_some hrec
      rw [Bool.and_eq_true, beq_iff_eq, Bool.not_eq_true'] at hi
      refine ⟨i, fun j hdev hblock ↦ ?_, hi.1, hi.2, (Except.ok.inj (Option.some.inj hget)).symm⟩
      have hj := List.find?_eq_none.1 hfind j (hall j)
      rw [hdev, hblock, beq_self_eq_true, beq_self_eq_true] at hj
      exact hj rfl
  · left
    rw [hfind] at hget
    have hi := List.find?_some hfind
    rw [Bool.and_eq_true, beq_iff_eq, beq_iff_eq] at hi
    exact ⟨i, hi.1, hi.2, (Except.ok.inj (Option.some.inj hget)).symm⟩

/-- The loops of `bget` end. -/
theorem bget_ne_none (h : CacheInv s) (c : Caller) (dev blockno : ℕ) : s.bget c dev blockno ≠ none := by
  obtain ⟨l, hring, -⟩ := h.ring
  rw [bget, cached_eq hring, unused_eq hring]
  rcases l.find? fun i ↦ (s.buf i).dev == dev && (s.buf i).blockno == blockno with - | i
  · rcases l.reverse.find? fun i ↦ (s.buf i).refcnt == 0 && !(s.buf i).dirty with - | i
    all_goals exact Option.some_ne_none _
  · exact Option.some_ne_none _

/-- `bget` returns when there is a buffer that is not in use. -/
theorem exists_bget (h : CacheInv s) (hi : (s.buf i).refcnt = 0) (hdirty : (s.buf i).dirty = false)
    (c : Caller) (dev blockno : ℕ) : ∃ t, s.bget c dev blockno = some (.ok t) := by
  obtain ⟨l, hring, hall⟩ := h.ring
  rw [bget, cached_eq hring, unused_eq hring]
  rcases l.find? fun i ↦ (s.buf i).dev == dev && (s.buf i).blockno == blockno with - | j
  · rcases hrec : l.reverse.find? fun i ↦ (s.buf i).refcnt == 0 && !(s.buf i).dirty with - | j
    · have hnot := List.find?_eq_none.1 hrec i (List.mem_reverse.2 (hall i))
      rw [hi, hdirty] at hnot
      exact absurd rfl hnot
    · exact ⟨_, rfl⟩
  · exact ⟨_, rfl⟩

/-! ### What a step can do -/

theorem iderw_eq_ok {p : ℕ} (h : s.iderw d p i = .ok t) : (s.buf i).lock = some p ∧
    (((s.buf i).dirty = true ∧ t = s.writeBack i) ∨
      ((s.buf i).dirty = false ∧ (s.buf i).valid = false ∧ t = s.readIn i)) := by
  rw [iderw] at h
  split at h
  · cases h
  next hlock =>
    refine ⟨not_not.1 hlock, ?_⟩
    split at h
    · cases h
    next hdo =>
      split at h
      · cases h
      · split at h
        · cases h
        · split at h
          next hdirty => exact .inl ⟨hdirty, (Except.ok.inj h).symm⟩
          next hdirty =>
            refine .inr ⟨Bool.eq_false_iff.2 hdirty, ?_, (Except.ok.inj h).symm⟩
            exact Bool.eq_false_iff.2 fun hvalid ↦ hdo ⟨hvalid, hdirty⟩

theorem bwrite_eq_ok (h : s.bwrite d r = .ok t) : (s.buf r.buf).lock = some r.caller.proc ∧
    t = ((s.setDirty r.buf).writeBack r.buf).saveEdit r.buf := by
  rw [bwrite] at h
  split at h
  · cases h
  next hlock =>
    cases hrw : (s.setDirty r.buf).iderw d r.caller.proc r.buf with
    | error e => rw [hrw] at h; cases h
    | ok u =>
      rw [hrw] at h
      have hdirty : ((s.setDirty r.buf).buf r.buf).dirty = true := by
        rw [setDirty, buf_setBuf, if_pos rfl]
      refine ⟨not_not.1 hlock, ?_⟩
      rcases (iderw_eq_ok hrw).2 with ⟨-, rfl⟩ | ⟨hclean, -⟩
      · exact (Except.ok.inj h).symm
      · rw [hdirty] at hclean
        cases hclean

theorem fill_eq_ok (h : s.fill d r = .ok t) : ((s.buf r.buf).valid = true ∧ t = s.move r .ready) ∨
    ((s.buf r.buf).valid = false ∧ (s.buf r.buf).dirty = true ∧ t = (s.writeBack r.buf).move r .ready) ∨
    ((s.buf r.buf).valid = false ∧ (s.buf r.buf).dirty = false ∧
      t = (s.readIn r.buf).move r .ready) := by
  rw [fill] at h
  split at h
  next hvalid => exact .inl ⟨hvalid, (Except.ok.inj h).symm⟩
  next hvalid =>
    have hvalid := Bool.eq_false_iff.2 hvalid
    cases hrw : s.iderw d r.caller.proc r.buf with
    | error e => rw [hrw] at h; cases h
    | ok u =>
      rw [hrw] at h
      rcases (iderw_eq_ok hrw).2 with ⟨hdirty, rfl⟩ | ⟨hclean, -, rfl⟩
      · exact .inr (.inl ⟨hvalid, hdirty, (Except.ok.inj h).symm⟩)
      · exact .inr (.inr ⟨hvalid, hclean, (Except.ok.inj h).symm⟩)

/-- Everything a step can do. -/
theorem exec_eq_ok (h : s.exec d o = some (.ok t)) :
    match o with
    | .bget c dev blockno => s.bget c dev blockno = some (.ok t)
    | .acquiresleep r => r ∈ s.refs ∧ r.stage = .waiting ∧ (s.buf r.buf).lock = none ∧
        t = (s.setBuf r.buf { s.buf r.buf with lock := some r.caller.proc }).move r .locked
    | .fill r => r ∈ s.refs ∧ r.stage = .locked ∧ s.fill d r = .ok t
    | .modify r v => r ∈ s.refs ∧ r.stage = .ready ∧
        t = (s.setBuf r.buf { s.buf r.buf with data := v }).setEdit r.buf .unsaved
    | .bwrite r => r ∈ s.refs ∧ r.stage = .ready ∧ s.bwrite d r = .ok t
    | .pin r => r ∈ s.refs ∧ r.stage = .ready ∧ t = s.pin r
    | .releasesleep r => r ∈ s.refs ∧ r.stage = .ready ∧ s.edit r.buf ≠ .unsaved ∧
        (s.buf r.buf).lock = some r.caller.proc ∧
        t = { ((s.setBuf r.buf { s.buf r.buf with lock := none }).setEdit r.buf .none).move r
          .released with
            sections := ⟨r.caller, (s.buf r.buf).dev, (s.buf r.buf).blockno, (s.buf r.buf).data⟩ ::
              s.sections }
    | .relink r => r ∈ s.refs ∧ r.stage = .released ∧ t = s.relink r := by
  cases o with
  | bget c dev blockno => exact h
  | acquiresleep r =>
    obtain ⟨⟨hr, hstage, hlock⟩, ht⟩ := Option.ite_none_right_eq_some.1 h
    exact ⟨hr, hstage, hlock, (Except.ok.inj (Option.some.inj ht)).symm⟩
  | fill r =>
    obtain ⟨⟨hr, hstage⟩, ht⟩ := Option.ite_none_right_eq_some.1 h
    exact ⟨hr, hstage, Option.some.inj ht⟩
  | modify r v =>
    obtain ⟨⟨hr, hstage⟩, ht⟩ := Option.ite_none_right_eq_some.1 h
    exact ⟨hr, hstage, (Except.ok.inj (Option.some.inj ht)).symm⟩
  | bwrite r =>
    obtain ⟨⟨hr, hstage⟩, ht⟩ := Option.ite_none_right_eq_some.1 h
    exact ⟨hr, hstage, Option.some.inj ht⟩
  | pin r =>
    obtain ⟨⟨hr, hstage⟩, ht⟩ := Option.ite_none_right_eq_some.1 h
    exact ⟨hr, hstage, (Except.ok.inj (Option.some.inj ht)).symm⟩
  | releasesleep r =>
    obtain ⟨⟨hr, hstage, hedit⟩, ht⟩ := Option.ite_none_right_eq_some.1 h
    have ht := Option.some.inj ht
    rw [releasesleep] at ht
    split at ht
    · cases ht
    next hlock => exact ⟨hr, hstage, hedit, not_not.1 hlock, (Except.ok.inj ht).symm⟩
  | relink r =>
    obtain ⟨⟨hr, hstage⟩, ht⟩ := Option.ite_none_right_eq_some.1 h
    exact ⟨hr, hstage, (Except.ok.inj (Option.some.inj ht)).symm⟩

/-- The list, the blocks of the buffers and the numbers of their users are as before. -/
structure Frame (s t : Cache) : Prop where
  links : t.links = s.links
  dev : ∀ i, (t.buf i).dev = (s.buf i).dev
  blockno : ∀ i, (t.buf i).blockno = (s.buf i).blockno
  refcnt : ∀ i, (t.buf i).refcnt = (s.buf i).refcnt
  users : ∀ i, (t.refs.countP fun r ↦ r.buf = i) = s.refs.countP fun r ↦ r.buf = i

theorem Frame.refl (s : Cache) : Frame s s := ⟨rfl, fun _ ↦ rfl, fun _ ↦ rfl, fun _ ↦ rfl, fun _ ↦ rfl⟩

theorem Frame.trans {u : Cache} (h : Frame s t) (h' : Frame t u) : Frame s u where
  links := h'.links.trans h.links
  dev := fun i ↦ (h'.dev i).trans (h.dev i)
  blockno := fun i ↦ (h'.blockno i).trans (h.blockno i)
  refcnt := fun i ↦ (h'.refcnt i).trans (h.refcnt i)
  users := fun i ↦ (h'.users i).trans (h.users i)

/-- Changing a buffer in other fields. -/
theorem frame_setBuf (b : Buf) (hdev : b.dev = (s.buf i).dev) (hblockno : b.blockno = (s.buf i).blockno)
    (hrefcnt : b.refcnt = (s.buf i).refcnt) : Frame s (s.setBuf i b) := by
  refine ⟨rfl, fun j ↦ ?_, fun j ↦ ?_, fun j ↦ ?_, fun _ ↦ rfl⟩
  all_goals
    rw [buf_setBuf]
    split
    next hj => rw [hj]; assumption
    · rfl

/-- A use that goes on is still a use of the same buffer. -/
theorem Frame.move (h : Frame s t) (hr : r ∈ t.refs) (stage : Stage) : Frame s (t.move r stage) := by
  refine ⟨h.links, h.dev, h.blockno, h.refcnt, fun i ↦ ?_⟩
  have hperm := (List.perm_cons_erase hr).countP_eq fun r ↦ decide (r.buf = i)
  rw [← h.users, hperm, Cache.move, List.countP_cons, List.countP_cons]

/-- Changing other parts of the state. -/
theorem Frame.congr {u : Cache} (h : Frame s t) (hbuf : u.buf = t.buf) (hlinks : u.links = t.links)
    (hrefs : u.refs = t.refs) : Frame s u where
  links := hlinks.trans h.links
  dev := fun i ↦ hbuf ▸ h.dev i
  blockno := fun i ↦ hbuf ▸ h.blockno i
  refcnt := fun i ↦ hbuf ▸ h.refcnt i
  users := fun i ↦ hrefs ▸ h.users i

/-- Counting the uses of a buffer keeps its block. -/
theorem block_update (i : Fin NBUF) (n : ℕ) (j : Fin NBUF) :
    (update s.buf i { s.buf i with refcnt := n } j).dev = (s.buf j).dev ∧
      (update s.buf i { s.buf i with refcnt := n } j).blockno = (s.buf j).blockno := by
  rw [update_apply]
  split
  next hj => rw [hj]; exact ⟨rfl, rfl⟩
  · exact ⟨rfl, rfl⟩

theorem frame_writeBack (s : Cache) (i : Fin NBUF) : Frame s (s.writeBack i) :=
  (frame_setBuf { s.buf i with dirty := false, valid := true } rfl rfl rfl).congr rfl rfl rfl

theorem frame_setDirty (s : Cache) (i : Fin NBUF) : Frame s (s.setDirty i) :=
  frame_setBuf { s.buf i with dirty := true } rfl rfl rfl

/-- The steps that do not look for a buffer or give one back. -/
theorem frame_exec (h : s.exec d o = some (.ok t))
    (hget : ∀ c dev blockno, o ≠ .bget c dev blockno) (hrel : ∀ r, o ≠ .relink r) : Frame s t := by
  have hstep := exec_eq_ok h
  cases o with
  | bget c dev blockno => exact absurd rfl (hget c dev blockno)
  | relink r => exact absurd rfl (hrel r)
  | acquiresleep r =>
    obtain ⟨hr, -, -, rfl⟩ := hstep
    have hset := frame_setBuf (s := s) { s.buf r.buf with lock := some r.caller.proc } rfl rfl rfl
    exact hset.move hr _
  | fill r =>
    obtain ⟨hr, -, hfill⟩ := hstep
    rcases fill_eq_ok hfill with ⟨-, rfl⟩ | ⟨-, -, rfl⟩ | ⟨-, -, rfl⟩
    · exact (Frame.refl s).move hr _
    · exact (frame_writeBack s r.buf).move hr _
    · have hset := frame_setBuf (s := s) { s.buf r.buf with
        valid := true, data := s.disk (s.buf r.buf).dev (s.buf r.buf).blockno } rfl rfl rfl
      exact hset.move hr _
  | modify r v =>
    obtain ⟨-, -, rfl⟩ := hstep
    exact (frame_setBuf { s.buf r.buf with data := v } rfl rfl rfl).congr rfl rfl rfl
  | bwrite r =>
    obtain ⟨-, -, hwrite⟩ := hstep
    obtain ⟨-, rfl⟩ := bwrite_eq_ok hwrite
    exact ((frame_setDirty s r.buf).trans (frame_writeBack _ r.buf)).congr rfl rfl rfl
  | pin r =>
    obtain ⟨-, -, rfl⟩ := hstep
    exact (frame_setDirty s r.buf).congr rfl rfl rfl
  | releasesleep r =>
    obtain ⟨hr, -, -, -, rfl⟩ := hstep
    have hset := frame_setBuf (s := s) { s.buf r.buf with lock := none } rfl rfl rfl
    exact (hset.move hr .released).congr rfl rfl rfl

end Cache

namespace CacheInv

open Cache

variable {s t : Cache} {d : Driver} {o : Op} {r : Ref} {i : Fin NBUF}

/-! ### Every step keeps the invariant -/

theorem init (L : BufLinks) (disk : ℕ → ℕ → Block) : CacheInv (Cache.init L disk) where
  ring := ⟨_, isRing_binit L, fun i ↦ List.mem_reverse.2 (List.mem_finRange i)⟩
  unique := fun _ _ hdev ↦ absurd rfl hdev
  refcnt := fun _ ↦ rfl

variable (h : CacheInv s)

include h

/-- The buffers keep their blocks, and the uses are counted. -/
theorem of_block (hlinks : t.links = s.links)
    (hblock : ∀ i, (t.buf i).dev = (s.buf i).dev ∧ (t.buf i).blockno = (s.buf i).blockno)
    (hrefcnt : ∀ i, (t.buf i).refcnt = t.refs.countP fun r ↦ r.buf = i) : CacheInv t where
  ring := hlinks ▸ h.ring
  unique := fun i j ↦ by
    rw [(hblock i).1, (hblock j).1, (hblock i).2, (hblock j).2]
    exact h.unique i j
  refcnt := hrefcnt

theorem frame (hf : Frame s t) : CacheInv t := by
  refine h.of_block hf.links (fun i ↦ ⟨hf.dev i, hf.blockno i⟩) fun i ↦ ?_
  rw [hf.refcnt, hf.users]
  exact h.refcnt i

theorem hit (c : Caller) (dev blockno : ℕ) (i : Fin NBUF) : CacheInv (s.hit c dev blockno i) := by
  refine h.of_block rfl (block_update i _) fun j ↦ ?_
  show (update s.buf i _ j).refcnt = (⟨c, dev, blockno, i, .waiting⟩ :: s.refs).countP _
  rw [update_apply, List.countP_cons]
  split
  next hj => rw [hj, decide_eq_true rfl, if_pos rfl, ← h.refcnt]
  next hj => rw [decide_eq_false (Ne.symm hj), if_neg Bool.false_ne_true, h.refcnt, Nat.add_zero]

theorem recycle (c : Caller) {dev blockno : ℕ} (hi : (s.buf i).refcnt = 0)
    (hmiss : ∀ j, (s.buf j).dev = dev → (s.buf j).blockno ≠ blockno) :
    CacheInv (s.recycle c dev blockno i) := by
  obtain ⟨b, hb⟩ : ∃ b, b = { s.buf i with
    dev := dev, blockno := blockno, valid := false, dirty := false, refcnt := 1 } := ⟨_, rfl⟩
  have hbuf (j : Fin NBUF) : (s.recycle c dev blockno i).buf j = if j = i then b else s.buf j := by
    rw [hb]
    exact update_apply ..
  refine ⟨h.ring, fun j k hdev hdevs hblocks ↦ ?_, fun j ↦ ?_⟩
  · rw [hbuf] at hdev
    rw [hbuf, hbuf] at hdevs hblocks
    -- the block is in no other buffer
    split at hdevs
    next hj =>
      split at hdevs
      next hk => rw [hj, hk]
      next hk =>
        rw [if_pos hj, if_neg hk, hb] at hblocks
        rw [hb] at hdevs
        exact absurd hblocks.symm (hmiss k hdevs.symm)
    next hj =>
      rw [if_neg hj] at hdev hblocks
      split at hdevs
      next hk =>
        rw [if_pos hk, hb] at hblocks
        rw [hb] at hdevs
        exact absurd hblocks (hmiss j hdevs)
      next hk =>
        rw [if_neg hk] at hblocks
        exact h.unique j k hdev hdevs hblocks
  · show _ = (⟨c, dev, blockno, i, .waiting⟩ :: s.refs).countP _
    rw [hbuf, List.countP_cons]
    split
    next hj => rw [hj, decide_eq_true rfl, if_pos rfl, ← h.refcnt, hi, hb]
    next hj => rw [decide_eq_false (Ne.symm hj), if_neg Bool.false_ne_true, h.refcnt, Nat.add_zero]

/-- The links after a buffer has been given back. -/
theorem ring_relink (i : Fin NBUF) : ∃ l : List (Fin NBUF),
    ((s.links.unlink (some i)).insertAfter none (some i)).IsRing none (l.map some) ∧ ∀ j, j ∈ l := by
  obtain ⟨l, hring, hall⟩ := h.ring
  obtain ⟨l₁, l₂, rfl⟩ := List.append_of_mem (hall i)
  rw [List.map_append, List.map_cons] at hring
  have hout := hring.unlink
  have hnot : some i ∉ none :: (l₁.map some ++ l₂.map some) := by
    have hnodup := (List.nodup_cons.1 hring.nodup).2
    rw [List.nodup_middle, List.nodup_cons] at hnodup
    rw [List.mem_cons, not_or]
    exact ⟨Option.some_ne_none i, hnodup.1⟩
  refine ⟨i :: (l₁ ++ l₂), ?_, fun j ↦ ?_⟩
  · rw [List.map_cons, List.map_append]
    exact hout.insertAfter hnot
  · have hj := hall j
    rw [List.mem_append, List.mem_cons] at hj
    rw [List.mem_cons, List.mem_append]
    exact or_left_comm.1 hj

theorem dropRef (hr : r ∈ s.refs) : CacheInv (s.dropRef r) := by
  refine h.of_block rfl (block_update r.buf _) fun j ↦ ?_
  have hperm := (List.perm_cons_erase hr).countP_eq fun r ↦ decide (r.buf = j)
  have hcount := h.refcnt j
  show (update s.buf r.buf _ j).refcnt = (s.refs.erase r).countP _
  rw [List.countP_cons] at hperm
  rw [update_apply]
  split
  next hj =>
    rw [hj] at hperm hcount ⊢
    rw [decide_eq_true rfl, if_pos rfl] at hperm
    dsimp only
    omega
  next hj =>
    rw [decide_eq_false (Ne.symm hj), if_neg Bool.false_ne_true, Nat.add_zero] at hperm
    rw [hcount, hperm]

theorem relink (hr : r ∈ s.refs) : CacheInv (s.relink r) := by
  have hdrop := h.dropRef hr
  rw [Cache.relink]
  split
  · exact ⟨hdrop.ring_relink r.buf, hdrop.unique, hdrop.refcnt⟩
  · exact hdrop

/-- One step, on another device than 0. -/
theorem exec (hexec : s.exec d o = some (.ok t)) : CacheInv t := by
  cases o with
  | bget c dev blockno =>
    rcases bget_eq_ok h (exec_eq_ok hexec) with ⟨i, -, -, rfl⟩ | ⟨i, hmiss, hi, -, rfl⟩
    · exact h.hit c dev blockno i
    · exact h.recycle c hi hmiss
  | relink r =>
    obtain ⟨hr, -, rfl⟩ := exec_eq_ok hexec
    exact h.relink hr
  | _ => exact h.frame (frame_exec hexec (fun _ _ _ ↦ nofun) fun _ ↦ nofun)

/-- A buffer that is in use keeps its block. -/
theorem keeps_block (hexec : s.exec d o = some (.ok t)) (i : Fin NBUF)
    (hi : 0 < (s.buf i).refcnt ∨ (s.buf i).dirty = true) :
    (t.buf i).dev = (s.buf i).dev ∧ (t.buf i).blockno = (s.buf i).blockno := by
  cases o with
  | bget c dev blockno =>
    rcases bget_eq_ok h (exec_eq_ok hexec) with ⟨j, -, -, rfl⟩ | ⟨j, -, href, hdirty, rfl⟩
    · exact block_update j _ i
    · have hij : i ≠ j := by
        rintro rfl
        rcases hi with hi | hi
        · omega
        · rw [hdirty] at hi
          cases hi
      show (update s.buf j _ i).dev = _ ∧ (update s.buf j _ i).blockno = _
      rw [update_of_ne hij]
      exact ⟨rfl, rfl⟩
  | relink r =>
    obtain ⟨hr, -, rfl⟩ := exec_eq_ok hexec
    have hbuf : (s.relink r).buf i = update s.buf r.buf
        { s.buf r.buf with refcnt := (s.buf r.buf).refcnt - 1 } i := by
      rw [Cache.relink]
      split <;> rfl
    rw [hbuf]
    exact block_update r.buf _ i
  | _ =>
    have hf := frame_exec hexec (fun _ _ _ ↦ nofun) fun _ ↦ nofun
    exact ⟨hf.dev i, hf.blockno i⟩

end CacheInv

/-! ### Runs -/

namespace Sys

variable {sb : Superblock} {d : Driver} {dev : ℕ} {s t : Sys} {l : Label}

theorem use_eq_ok {o : Op} (h : s.use d o = some (.ok t)) :
    ∃ c, s.cache.exec d o = some (.ok c) ∧ t = { s with cache := c } := by
  obtain ⟨x, hx, ht⟩ := Option.map_eq_some_iff.1 h
  cases x with
  | error e => cases ht
  | ok c => exact ⟨c, hx, (Except.ok.inj ht).symm⟩

/-- A statement of `commit` is a step of a user of the cache, except for `log.lh.n = 0`. -/
theorem runInstr_eq_ok {proc : ℕ} {i : Instr} (h : s.runInstr d dev proc i = some (.ok t)) :
    match i with
    | .bread b => s.use d (.bget ⟨proc, true⟩ dev b) = some (.ok t)
    | .memmove dst src => ∃ r q, s.refOf dev proc dst = some r ∧ s.refOf dev proc src = some q ∧
        s.use d (.modify r (s.cache.buf q.buf).data) = some (.ok t)
    | .storeHead b => ∃ r, s.refOf dev proc b = some r ∧
        s.use d (.modify r (Log.writeHead (s.cache.buf r.buf).data s.log.lh)) = some (.ok t)
    | .bwrite b => ∃ r, s.refOf dev proc b = some r ∧ s.use d (.bwrite r) = some (.ok t)
    | .brelse b => ∃ r, s.refOf dev proc b = some r ∧ s.use d (.releasesleep r) = some (.ok t)
    | .clear => t = { s with log := { s.log with lh := [] } } := by
  cases i with
  | bread b => exact h
  | memmove dst src =>
    obtain ⟨r, hr, h⟩ := Option.bind_eq_some_iff.1 h
    obtain ⟨q, hq, h⟩ := Option.bind_eq_some_iff.1 h
    exact ⟨r, q, hr, hq, h⟩
  | storeHead b | bwrite b | brelse b => exact Option.bind_eq_some_iff.1 h
  | clear => exact (Except.ok.inj (Option.some.inj h)).symm

theorem runInstr_cache {proc : ℕ} {i : Instr} (h : s.runInstr d dev proc i = some (.ok t)) :
    t.cache = s.cache ∨ ∃ o, s.cache.exec d o = some (.ok t.cache) := by
  have huse {o : Op} (h : s.use d o = some (.ok t)) :
      ∃ o, s.cache.exec d o = some (.ok t.cache) := by
    obtain ⟨c, hc, rfl⟩ := use_eq_ok h
    exact ⟨o, hc⟩
  have hi := runInstr_eq_ok h
  cases i with
  | bread b => exact .inr (huse hi)
  | memmove dst src =>
    obtain ⟨r, q, -, -, hi⟩ := hi
    exact .inr (huse hi)
  | storeHead b | bwrite b | brelse b =>
    obtain ⟨r, -, hi⟩ := hi
    exact .inr (huse hi)
  | clear => exact .inl (by rw [hi])

/-- Everything a step can do. -/
theorem step_eq_ok (h : s.step sb d dev l = some (.ok t)) :
    match l with
    | .op o => plain o ∧ (starts o → o.caller.commit = false ∧ s.Free o.caller.proc ∧
        s.Idle o.caller) ∧ s.use d o = some (.ok t)
    | .logWrite r => r.caller.commit = false ∧ s.Free r.caller.proc ∧ s.Idle r.caller ∧
        ∃ c log, s.cache.exec d (.pin r) = some (.ok c) ∧
          s.log.logWrite (s.cache.buf r.buf).blockno = .ok log ∧
          t = { s with cache := c, log := log }
    | .beginOp p => p ∉ s.ops ∧ s.Free p ∧ s.Idle ⟨p, false⟩ ∧
        ∃ log, s.log.beginOp = some log ∧ t = { s with log := log, ops := p :: s.ops }
    | .endOp p => p ∈ s.ops ∧ s.Free p ∧ s.Idle ⟨p, false⟩ ∧
        ∃ log, s.log.endOp = .ok log ∧ t = { s with
          log := log
          ops := s.ops.erase p
          committer := if log.committing then some (p, commit sb log.lh) else s.committer }
    | .commit => ∃ p, s.Idle ⟨p, true⟩ ∧
        ((s.committer = some (p, []) ∧
          t = { s with log := { s.log with committing := false }, committer := none }) ∨
        ∃ i todo u, s.committer = some (p, i :: todo) ∧ s.runInstr d dev p i = some (.ok u) ∧
          t = { u with committer := some (p, todo) }) := by
  cases l with
  | op o =>
    obtain ⟨⟨hplain, hstart⟩, h⟩ := Option.ite_none_right_eq_some.1 h
    exact ⟨hplain, hstart, h⟩
  | logWrite r =>
    obtain ⟨⟨hcommit, hfree, hidle⟩, h⟩ := Option.ite_none_right_eq_some.1 h
    obtain ⟨x, hx, h⟩ := Option.map_eq_some_iff.1 h
    refine ⟨hcommit, hfree, hidle, ?_⟩
    cases hlog : s.log.logWrite (s.cache.buf r.buf).blockno with
    | error e => rw [hlog] at h; cases h
    | ok log =>
      rw [hlog] at h
      cases x with
      | error e => cases h
      | ok c => exact ⟨c, log, hx, rfl, (Except.ok.inj h).symm⟩
  | beginOp p =>
    obtain ⟨⟨hp, hfree, hidle⟩, h⟩ := Option.ite_none_right_eq_some.1 h
    obtain ⟨log, hlog, h⟩ := Option.map_eq_some_iff.1 h
    exact ⟨hp, hfree, hidle, log, hlog, (Except.ok.inj h).symm⟩
  | endOp p =>
    obtain ⟨⟨hp, hfree, hidle⟩, h⟩ := Option.ite_none_right_eq_some.1 h
    refine ⟨hp, hfree, hidle, ?_⟩
    cases hlog : s.log.endOp with
    | error e => rw [hlog] at h; cases h
    | ok log =>
      rw [hlog] at h
      exact ⟨log, rfl, (Except.ok.inj (Option.some.inj h)).symm⟩
  | commit =>
    rw [step] at h
    split at h
    · cases h
    next p hc =>
      obtain ⟨hidle, h⟩ := Option.ite_none_right_eq_some.1 h
      exact ⟨p, hidle, Or.inl ⟨hc, (Except.ok.inj (Option.some.inj h)).symm⟩⟩
    next p i todo hc =>
      obtain ⟨hidle, h⟩ := Option.ite_none_right_eq_some.1 h
      obtain ⟨x, hx, h⟩ := Option.map_eq_some_iff.1 h
      cases x with
      | error e => cases h
      | ok u => exact ⟨p, hidle, Or.inr ⟨i, todo, u, hc, hx, (Except.ok.inj h).symm⟩⟩

/-- A step of the kernel leaves the cache alone or is a step of a user of the cache. -/
theorem step_cache (h : s.step sb d dev l = some (.ok t)) :
    t.cache = s.cache ∨ ∃ o, s.cache.exec d o = some (.ok t.cache) := by
  have hl := step_eq_ok h
  cases l with
  | op o =>
    obtain ⟨-, -, huse⟩ := hl
    obtain ⟨c, hc, rfl⟩ := use_eq_ok huse
    exact .inr ⟨o, hc⟩
  | logWrite r =>
    obtain ⟨-, -, -, c, log, hc, -, rfl⟩ := hl
    exact .inr ⟨.pin r, hc⟩
  | beginOp p | endOp p =>
    obtain ⟨-, -, -, log, -, rfl⟩ := hl
    exact .inl rfl
  | commit =>
    obtain ⟨p, -, ⟨-, rfl⟩ | ⟨i, todo, u, -, hu, rfl⟩⟩ := hl
    · exact .inl rfl
    · rcases runInstr_cache hu with heq | ho
      · exact .inl heq
      · exact .inr ho

theorem cacheInv_of_run {L : BufLinks} {disk : ℕ → ℕ → Block} {labels : List Label}
    (run : Machine.Run (step sb d dev) (init sb L disk) labels s) : CacheInv s.cache := by
  refine run.invariant (P := fun s ↦ CacheInv s.cache) (.init L disk) ?_
  intro t u l ht hstep
  rcases step_cache hstep with heq | ⟨o, ho⟩
  · exact heq ▸ ht
  · exact ht.exec ho

end Sys

/-- **The representation of the buffer cache**, after `binit` and any interleaving of the calls of any
processes: the links form one ring of the head and each buffer, a block of a device other than 0 is
in at most one buffer, `refcnt` is the number of uses that have not been given back, no step gives
another block to a buffer that is in use or dirty, and the loops of `bget` end. -/
theorem bcache_representation {sb : Superblock} {d : Driver} {dev : ℕ} {L : BufLinks}
    {disk : ℕ → ℕ → Block} {labels : List Label} {s : Sys}
    (run : Machine.Run (Sys.step sb d dev) (Sys.init sb L disk) labels s) :
    (∃ l : List (Fin NBUF), s.cache.links.IsRing none (l.map some) ∧ ∀ i, i ∈ l) ∧
    (∀ i j, (s.cache.buf i).dev ≠ 0 → (s.cache.buf i).dev = (s.cache.buf j).dev →
      (s.cache.buf i).blockno = (s.cache.buf j).blockno → i = j) ∧
    (∀ i, (s.cache.buf i).refcnt = s.cache.refs.countP fun r ↦ r.buf = i) ∧
    (∀ l t, Sys.step sb d dev s l = some (.ok t) → ∀ i,
      0 < (s.cache.buf i).refcnt ∨ (s.cache.buf i).dirty = true →
      (t.cache.buf i).dev = (s.cache.buf i).dev ∧
        (t.cache.buf i).blockno = (s.cache.buf i).blockno) ∧
    ∀ c dev blockno, s.cache.bget c dev blockno ≠ none := by
  have hinv := Sys.cacheInv_of_run run
  refine ⟨hinv.ring, hinv.unique, hinv.refcnt, fun l t hstep i hi ↦ ?_, Cache.bget_ne_none hinv⟩
  rcases Sys.step_cache hstep with heq | ⟨o, ho⟩
  · rw [heq]
    exact ⟨rfl, rfl⟩
  · exact hinv.keeps_block ho i hi

/-- Process `p` reads block `b` into buffer `i`. -/
def readOne (p b : ℕ) (i : Fin NBUF) : List Label :=
  [.op (.bget ⟨p, false⟩ 1 b), .op (.acquiresleep ⟨⟨p, false⟩, 1, b, i, .waiting⟩),
    .op (.fill ⟨⟨p, false⟩, 1, b, i, .locked⟩)]

/-- It releases the buffer. -/
def releaseOne (p b : ℕ) (i : Fin NBUF) : List Label :=
  [.op (.releasesleep ⟨⟨p, false⟩, 1, b, i, .ready⟩), .op (.relink ⟨⟨p, false⟩, 1, b, i, .released⟩)]

/-- Two processes have read a block each, one has released its block and waits for that of the other, and a third
one gets the released block in its old buffer. -/
theorem bcache_representation_bread : ∃ s,
    Machine.Run (Sys.step mkfsSuperblock (memide FSSIZE) 1)
      (Sys.init mkfsSuperblock ⟨fun _ ↦ none, fun _ ↦ none⟩ fun _ _ ↦ Block.zero)
      (readOne 7 5 ⟨0, by decide⟩ ++ readOne 8 6 ⟨1, by decide⟩ ++ releaseOne 7 5 ⟨0, by decide⟩ ++
        [.op (.bget ⟨7, false⟩ 1 6)] ++ readOne 9 5 ⟨0, by decide⟩) s ∧
    (s.cache.buf ⟨1, by decide⟩).refcnt = 2 ∧
    (∀ i, (s.cache.buf i).refcnt = s.cache.refs.countP fun r ↦ r.buf = i) ∧
    ∀ i j, (s.cache.buf i).dev ≠ 0 → (s.cache.buf i).dev = (s.cache.buf j).dev →
      (s.cache.buf i).blockno = (s.cache.buf j).blockno → i = j := by
  refine Machine.exists_run_of (fun s ↦ (s.cache.buf ⟨1, by decide⟩).refcnt = 2) (by decide +kernel) fun s run hs ↦ ?_
  obtain ⟨-, hunique, hrefcnt, -⟩ := bcache_representation run
  exact ⟨hs, hrefcnt, hunique⟩

end Bio

end Xv6
