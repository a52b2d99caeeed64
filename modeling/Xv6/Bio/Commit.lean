import Xv6.Bio.Store

/-!
# Group commits

`commit` copies the logged blocks into the log and from there to where they were: it writes to many
blocks and leaves each block outside the log area as it was. `Bio.Safe` follows the statements of
`commit` over the values of the blocks, and says that at each `brelse` of a block outside the log area
the buffer has the value that the block has already (`Bio.safe_commit`).

In the machine other processes use the cache during a commit. If a process changes data only inside
an operation, and ends the operation only when it has released its buffers (`Sys.disciplined`), then
nobody else changes anything while a commit is going on, and what `Safe` says holds of it
(`Bio.CommitInv`). So for blocks outside the log area the uses of the cache by commits can be left
out: `bread` returns what the last use of the block by another process has left.
-/

namespace Xv6

open Function

namespace Bio

/-- A block of the log area. -/
def InLog (sb : Superblock) (b : ℕ) : Prop := sb.logstart ≤ b ∧ b < sb.logstart + sb.nlog

instance (sb : Superblock) (b : ℕ) : Decidable (InLog sb b) :=
  inferInstanceAs (Decidable (_ ∧ _))

/-! ### The statements of `commit` -/

section Script

variable {sb : Superblock}

/-- The statements leave the blocks outside the log area as they are, and no buffer is held when they
are done. `σ` has the values of the blocks, and `h` the data of the buffers that are held. -/
def Safe (sb : Superblock) : List Instr → (ℕ → Block) → (ℕ → Option Block) → Prop
  | [], _, h => ∀ b, h b = none
  | .bread b :: l, σ, h => h b = none ∧ Safe sb l σ (update h b (some (σ b)))
  | .memmove dst src :: l, σ, h => Safe sb l σ (update h dst (h src))
  | .storeHead b :: l, σ, h => ∀ v, Safe sb l σ (update h b (some v))
  | .bwrite _ :: l, σ, h => Safe sb l σ h
  | .brelse b :: l, σ, h => ∀ v, h b = some v → (¬InLog sb b → v = σ b) ∧
      Safe sb l (update σ b v) (update h b none)
  | .clear :: l, σ, h => Safe sb l σ h

/-- No buffer is held. -/
def noneHeld : ℕ → Option Block := fun _ ↦ none

variable {l : List Instr} {σ : ℕ → Block} {lh : List ℕ}

@[simp]
theorem update_noneHeld (b : ℕ) : update noneHeld b none = noneHeld :=
  update_eq_self b noneHeld

/-- `write_head` changes the header block only. -/
theorem safe_writeHead (h : ∀ v, Safe sb l (update σ sb.logstart v) noneHeld) :
    Safe sb (writeHead sb ++ l) σ noneHeld := by
  have hlog : InLog sb sb.logstart := ⟨le_refl _, Nat.lt_add_of_pos_right sb.nlog_pos⟩
  refine ⟨rfl, fun v w _ ↦ ⟨fun hnot ↦ absurd hlog hnot, ?_⟩⟩
  rw [update_idem, update_idem, update_noneHeld]
  exact h w

/-- The log has room for the blocks `lh`, which are outside the log area. -/
structure Fits (sb : Superblock) (lh : List ℕ) : Prop where
  home : ∀ b ∈ lh, ¬InLog sb b
  room : lh.length < sb.nlog

/-- The log block of entry `k`. -/
def logBlock (sb : Superblock) (k : ℕ) : ℕ := sb.logstart + k + 1

theorem Fits.inLog (h : Fits sb lh) {k : ℕ} (hk : k < lh.length) : InLog sb (logBlock sb k) := by
  have hroom := h.room
  rw [InLog, logBlock]
  omega

/-- The log has copies of the blocks. -/
def Copied (sb : Superblock) (lh : List ℕ) (σ : ℕ → Block) : Prop :=
  ∀ k b, lh[k]? = some b → σ (logBlock sb k) = σ b

/-- The only two buffers that are held are released. -/
theorem update_release {g : ℕ → Option Block} {x y : ℕ} (hg : ∀ c, c ≠ x → c ≠ y → g c = none) :
    update (update g x none) y none = noneHeld := by
  funext c
  rw [update_apply, update_apply]
  split
  · rfl
  next hy =>
    split
    · rfl
    next hx => exact hg c hx hy

theorem copied_concat {done : List ℕ} {b : ℕ} (hdone : Copied sb done σ)
    (hlast : σ (logBlock sb done.length) = σ b) : Copied sb (done ++ [b]) σ := by
  intro k c hk
  rcases Nat.lt_or_ge k done.length with hlt | hge
  · rw [List.getElem?_append_left hlt] at hk
    exact hdone k c hk
  · rw [List.getElem?_append_right hge] at hk
    rw [List.getElem?_singleton] at hk
    split at hk
    next hk0 =>
      rw [show k = done.length by omega, ← Option.some.inj hk]
      exact hlast
    · cases hk

/-- `write_log` makes the copies. -/
theorem safe_writeLog (done : List ℕ) {rest : List ℕ} (hfits : Fits sb (done ++ rest))
    (hdone : Copied sb done σ) (h : ∀ σ, Copied sb (done ++ rest) σ → Safe sb l σ noneHeld) :
    Safe sb (writeLog sb done.length rest ++ l) σ noneHeld := by
  induction rest generalizing done σ with
  | nil => exact h σ (by rwa [List.append_nil])
  | cons b rest ih =>
    have hlen : done.length < (done ++ b :: rest).length := by
      rw [List.length_append, List.length_cons]
      omega
    have hsplit : done ++ b :: rest = done ++ [b] ++ rest := by rw [List.append_assoc]; rfl
    have hdst := hfits.inLog hlen
    have hb : ¬InLog sb b := hfits.home b (List.mem_append_right _ List.mem_cons_self)
    obtain ⟨dst, hdef⟩ : ∃ dst, dst = logBlock sb done.length := ⟨_, rfl⟩
    rw [← hdef] at hdst
    have hne : b ≠ dst := fun heq ↦ hb (heq ▸ hdst)
    rw [writeLog, List.append_assoc]
    change Safe sb ([.bread (logBlock sb done.length), .bread b,
      .memmove (logBlock sb done.length) b, .bwrite (logBlock sb done.length), .brelse b,
      .brelse (logBlock sb done.length)] ++ (writeLog sb (done.length + 1) rest ++ l)) σ noneHeld
    rw [← hdef]
    refine ⟨rfl, ?_, fun v hv ↦ ⟨fun _ ↦ ?_, fun w hw ↦ ⟨fun hnot ↦ absurd hdst hnot, ?_⟩⟩⟩
    · rw [update_of_ne hne]
      rfl
    · -- `from` has only been read
      rw [update_of_ne hne, update_self] at hv
      exact (Option.some.inj hv).symm
    · rw [update_of_ne hne, update_self] at hv
      rw [update_of_ne hne.symm, update_self, update_self] at hw
      rw [← Option.some.inj hv, ← Option.some.inj hw, update_eq_self,
        update_release fun c hcb hcd ↦ ?_]
      · have hnext := ih (done ++ [b]) (σ := update σ dst (σ b)) (hsplit ▸ hfits)
          (copied_concat (fun k c hk ↦ ?_) ?_) (hsplit ▸ h)
        · rwa [List.length_append] at hnext
        · -- the copies made before
          have hklt : k < done.length := (List.getElem?_eq_some_iff.1 hk).1
          have hkd : logBlock sb k ≠ dst := by
            rw [hdef, logBlock, logBlock]
            omega
          have hcd : c ≠ dst := by
            rintro rfl
            exact hfits.home _ (List.mem_append_left _ (List.mem_of_getElem? hk)) hdst
          rw [update_of_ne hkd, update_of_ne hcd]
          exact hdone k c hk
        · rw [← hdef, update_self, update_of_ne hne]
      · rw [update_of_ne hcd, update_of_ne hcb, update_of_ne hcd]
        rfl

/-- `install_trans` copies the blocks back over themselves. -/
theorem safe_installTrans (done : List ℕ) {rest : List ℕ} (hfits : Fits sb (done ++ rest))
    (hcopied : Copied sb (done ++ rest) σ) (h : Safe sb l σ noneHeld) :
    Safe sb (installTrans sb done.length rest ++ l) σ noneHeld := by
  induction rest generalizing done with
  | nil => exact h
  | cons b rest ih =>
    have hlen : done.length < (done ++ b :: rest).length := by
      rw [List.length_append, List.length_cons]
      omega
    have hsplit : done ++ b :: rest = done ++ [b] ++ rest := by rw [List.append_assoc]; rfl
    have hlbuf := hfits.inLog hlen
    have hb : ¬InLog sb b := hfits.home b (List.mem_append_right _ List.mem_cons_self)
    have hcopy : σ (logBlock sb done.length) = σ b := by
      refine hcopied _ b ?_
      rw [List.getElem?_append_right (le_refl _), Nat.sub_self]
      rfl
    obtain ⟨lbuf, hdef⟩ : ∃ lbuf, lbuf = logBlock sb done.length := ⟨_, rfl⟩
    rw [← hdef] at hlbuf hcopy
    have hne : b ≠ lbuf := fun heq ↦ hb (heq ▸ hlbuf)
    rw [installTrans, List.append_assoc]
    change Safe sb ([.bread (logBlock sb done.length), .bread b,
      .memmove b (logBlock sb done.length), .bwrite b, .brelse (logBlock sb done.length),
      .brelse b] ++ (installTrans sb (done.length + 1) rest ++ l)) σ noneHeld
    rw [← hdef]
    refine ⟨rfl, ?_, fun v hv ↦ ⟨fun hnot ↦ absurd hlbuf hnot, fun w hw ↦ ?_⟩⟩
    · rw [update_of_ne hne]
      rfl
    · rw [update_of_ne hne.symm, update_of_ne hne.symm, update_self] at hv
      rw [update_of_ne hne, update_self, update_of_ne hne.symm,
        update_self] at hw
      have hv := (Option.some.inj hv).symm
      have hw := (Option.some.inj hw).symm
      rw [hcopy] at hw
      rw [hv, update_eq_self, hw, update_eq_self,
        update_release fun c hcl hcb ↦ ?_]
      · have hnext := ih (done ++ [b]) (hsplit ▸ hfits) (hsplit ▸ hcopied)
        rw [List.length_append] at hnext
        exact ⟨fun _ ↦ rfl, hnext⟩
      · rw [update_of_ne hcb, update_of_ne hcb, update_of_ne hcl]
        rfl

/-- `commit` leaves the blocks outside the log area as they are. -/
theorem safe_commit (h : Fits sb lh) (σ : ℕ → Block) : Safe sb (commit sb lh) σ noneHeld := by
  have hhead (σ : ℕ → Block) : Safe sb (writeHead sb) σ noneHeld := by
    exact safe_writeHead fun _ _ ↦ rfl
  rw [commit]
  split
  · rw [List.append_assoc, List.append_assoc, List.append_assoc]
    refine safe_writeLog [] h (fun k b hk ↦ nomatch hk) fun σ hσ ↦ ?_
    refine safe_writeHead fun v ↦ safe_installTrans [] h (fun k b hk ↦ ?_) (hhead _)
    -- the header is none of the blocks
    have hk' : k < lh.length := (List.getElem?_eq_some_iff.1 hk).1
    have hlog : InLog sb sb.logstart := ⟨le_refl _, Nat.lt_add_of_pos_right sb.nlog_pos⟩
    have hb : b ≠ sb.logstart := by
      rintro rfl
      exact h.home _ (List.mem_of_getElem? hk) hlog
    have hblock : logBlock sb k ≠ sb.logstart := by
      rw [logBlock]
      omega
    rw [update_of_ne hblock, update_of_ne hb]
    exact hσ k b hk
  · exact fun _ ↦ rfl

end Script

/-! ### The buffers of the committing process -/

/-- The use of a buffer by a commit, before it is released. -/
def Ref.active (r : Ref) : Bool := r.caller.commit && decide (r.stage ≠ .released)

/-- The data that a commit has, or will have when `bread` returns. -/
def Cache.value (s : Cache) (σ : ℕ → Block) (r : Ref) : Block :=
  if r.stage = .ready then (s.buf r.buf).data else σ r.blockno

/-- The commit of process `p` on device `dev` holds the buffers `h`. -/
structure Held (dev p : ℕ) (σ : ℕ → Block) (h : ℕ → Option Block) (s : Cache) : Prop where
  caller : ∀ r ∈ s.refs, r.caller.commit = true → r.caller.proc = p ∧ r.dev = dev
  value : ∀ r ∈ s.refs, r.active = true → h r.blockno = some (s.value σ r)
  count : ∀ b, (s.refs.countP fun r ↦ r.active && r.blockno == b) = if (h b).isSome then 1 else 0

section Held

variable {dev p : ℕ} {σ : ℕ → Block} {h : ℕ → Option Block} {s t : Cache}
  {r q : Ref} {i : Fin NBUF}

open Cache

section

variable (hh : Held dev p σ h s)

include hh

/-- The uses by commits are the same, and so are their data. -/
theorem Held.of_perm
    (hrefs : (t.refs.filter fun r ↦ r.caller.commit).Perm (s.refs.filter fun r ↦ r.caller.commit))
    (hvalue : ∀ r ∈ s.refs, r.active = true → t.value σ r = s.value σ r) : Held dev p σ h t := by
  have hmem {r : Ref} (hr : r ∈ t.refs) (hc : r.caller.commit = true) : r ∈ s.refs :=
    (List.mem_filter.1 (hrefs.subset (List.mem_filter.2 ⟨hr, hc⟩))).1
  have hcommit {r : Ref} (hr : r.active = true) : r.caller.commit = true :=
    (Bool.and_eq_true_iff.1 hr).1
  refine ⟨fun r hr hc ↦ hh.caller r (hmem hr hc) hc, fun r hr ha ↦ ?_, fun b ↦ ?_⟩
  · have hr := hmem hr (hcommit ha)
    rw [hvalue r hr ha]
    exact hh.value r hr ha
  · rw [← hh.count b]
    -- an active use is one by a commit
    have hfilter (l : List Ref) : (l.countP fun r ↦ r.active && r.blockno == b) =
        (l.filter fun r ↦ r.caller.commit).countP fun r ↦ r.active && r.blockno == b := by
      rw [List.countP_filter]
      refine List.countP_congr fun r _ ↦ ?_
      rw [Bool.and_eq_true, Bool.and_eq_true, Bool.and_eq_true]
      exact ⟨fun ⟨ha, hb⟩ ↦ ⟨⟨ha, hb⟩, hcommit ha⟩, fun ⟨⟨ha, hb⟩, _⟩ ↦ ⟨ha, hb⟩⟩
    rw [hfilter t.refs, hfilter s.refs, hrefs.countP_eq]

/-- A commit holds a block once. -/
theorem Held.blockno_ne (hr : r ∈ s.refs) (hra : r.active = true)
    (hq : q ∈ s.refs.erase r) (hqa : q.active = true) : q.blockno ≠ r.blockno := by
  intro hb
  have hperm := (List.perm_cons_erase hr).countP_eq fun q ↦ q.active && q.blockno == r.blockno
  have hpos : 0 < (s.refs.erase r).countP fun q ↦ q.active && q.blockno == r.blockno :=
    List.countP_pos_iff.2 ⟨q, hq, by rw [hqa, hb, beq_self_eq_true]; rfl⟩
  have hone := hh.count r.blockno
  rw [List.countP_cons, if_pos (by rw [hra, beq_self_eq_true]; rfl)] at hperm
  split at hone <;> omega

theorem Held.isSome (hr : r ∈ s.refs) (hra : r.active = true) : (h r.blockno).isSome = true := by
  rw [hh.value r hr hra]
  rfl

/-- Only the values of the blocks that are held matter. -/
theorem Held.congr_store {σ' : ℕ → Block}
    (hσ : ∀ b, (h b).isSome = true → σ' b = σ b) : Held dev p σ' h s := by
  refine ⟨hh.caller, fun r hr hra ↦ ?_, hh.count⟩
  rw [hh.value r hr hra, Cache.value, Cache.value, hσ _ (hh.isSome hr hra)]

/-- A use by a commit goes on. -/
theorem Held.move (hr : r ∈ s.refs) (hra : r.active = true) (stage : Stage)
    {h' : ℕ → Option Block} (hrefs : t.refs = { r with stage := stage } :: s.refs.erase r)
    (hnew : h' r.blockno =
      if stage = .released then none else some (t.value σ { r with stage := stage }))
    (hother : ∀ b ≠ r.blockno, h' b = h b)
    (hvalue : ∀ q ∈ s.refs, q.active = true → q.blockno ≠ r.blockno → t.value σ q = s.value σ q) :
    Held dev p σ h' t := by
  have hc : r.caller.commit = true := (Bool.and_eq_true_iff.1 hra).1
  refine ⟨fun q hq hqc ↦ ?_, fun q hq hqa ↦ ?_, fun b ↦ ?_⟩
  · rw [hrefs] at hq
    rcases List.mem_cons.1 hq with rfl | hq
    · exact hh.caller r hr hc
    · exact hh.caller q (List.mem_of_mem_erase hq) hqc
  · rw [hrefs] at hq
    rcases List.mem_cons.1 hq with rfl | hq
    · rw [hnew, if_neg (of_decide_eq_true (Bool.and_eq_true_iff.1 hqa).2)]
    · have hb := hh.blockno_ne hr hra hq hqa
      have hq := List.mem_of_mem_erase hq
      rw [hother _ hb, hvalue q hq hqa hb]
      exact hh.value q hq hqa
  · have hperm := (List.perm_cons_erase hr).countP_eq fun q ↦ q.active && q.blockno == b
    have hcount := hh.count b
    rw [hperm, List.countP_cons, hra] at hcount
    rw [hrefs, List.countP_cons, Ref.active, hc]
    rcases eq_or_ne b r.blockno with rfl | hb
    · rw [hh.isSome hr hra] at hcount
      rw [hnew]
      rcases eq_or_ne stage .released with rfl | hstage
      · simp at hcount ⊢
        exact hcount
      · simp [hstage] at hcount ⊢
        exact hcount
    · have hne : (r.blockno == b) = false := beq_eq_false_iff_ne.2 (Ne.symm hb)
      rw [hne, Bool.and_false] at hcount ⊢
      rw [hother b hb]
      exact hcount

/-- A commit changes the data of a buffer. -/
theorem Held.modify (hr : r ∈ s.refs) (hra : r.active = true)
    (hready : r.stage = .ready) (hrefs : t.refs = s.refs) {v : Block} (hnew : (t.buf r.buf).data = v)
    (hvalue : ∀ q ∈ s.refs, q ≠ r → t.value σ q = s.value σ q) :
    Held dev p σ (update h r.blockno (some v)) t := by
  refine ⟨fun q hq ↦ hh.caller q (hrefs ▸ hq), fun q hq hqa ↦ ?_, fun b ↦ ?_⟩
  · rw [hrefs] at hq
    rcases eq_or_ne q r with rfl | hne
    · rw [update_self, Cache.value, if_pos hready, hnew]
    · have hb := hh.blockno_ne hr hra ((List.mem_erase_of_ne hne).2 hq) hqa
      rw [update_of_ne hb, hvalue q hq hne]
      exact hh.value q hq hqa
  · rw [hrefs, hh.count b]
    rcases eq_or_ne b r.blockno with rfl | hb
    · rw [update_self, hh.isSome hr hra]
      rfl
    · rw [update_of_ne hb]

/-- A use that has been released is given back. -/
theorem Held.erase (hr : r ∈ s.refs) (hna : r.active = false)
    (hrefs : t.refs = s.refs.erase r) (hdata : ∀ q : Ref, (t.buf q.buf).data = (s.buf q.buf).data) :
    Held dev p σ h t := by
  refine ⟨fun q hq hqc ↦ ?_, fun q hq hqa ↦ ?_, fun b ↦ ?_⟩
  · rw [hrefs] at hq
    exact hh.caller q (List.mem_of_mem_erase hq) hqc
  · rw [hrefs] at hq
    rw [hh.value q (List.mem_of_mem_erase hq) hqa, Cache.value, Cache.value, hdata]
  · have hperm := (List.perm_cons_erase hr).countP_eq fun q ↦ q.active && q.blockno == b
    rw [List.countP_cons, hna, Bool.false_and, if_neg Bool.false_ne_true, Nat.add_zero] at hperm
    rw [hrefs, ← hperm, hh.count b]

/-- A commit calls `bread`. -/
theorem Held.bread {b : ℕ} (hb : h b = none)
    (hrefs : t.refs = ⟨⟨p, true⟩, dev, b, i, .waiting⟩ :: s.refs)
    (hvalue : ∀ q ∈ s.refs, q.active = true → t.value σ q = s.value σ q) :
    Held dev p σ (update h b (some (σ b))) t := by
  refine ⟨fun q hq hqc ↦ ?_, fun q hq hqa ↦ ?_, fun c ↦ ?_⟩
  · rw [hrefs] at hq
    rcases List.mem_cons.1 hq with rfl | hq
    · exact ⟨rfl, rfl⟩
    · exact hh.caller q hq hqc
  · rw [hrefs] at hq
    rcases List.mem_cons.1 hq with rfl | hq
    · exact update_self ..
    · have hold := hh.value q hq hqa
      have hne : q.blockno ≠ b := by
        intro heq
        rw [heq, hb] at hold
        cases hold
      rw [update_of_ne hne, hvalue q hq hqa]
      exact hold
  · have hcount := hh.count c
    rw [hrefs, List.countP_cons, hcount]
    rcases eq_or_ne c b with rfl | hc
    · rw [hb, update_self]
      simp [Ref.active]
    · rw [update_of_ne hc]
      simp [Ne.symm hc]

end

/-- The value of a use that is not ready does not depend on the buffer, and that of one that is ready
depends only on the data of its buffer. -/
theorem Cache.value_congr (h : r.stage = .ready → (t.buf r.buf).data = (s.buf r.buf).data) :
    t.value σ r = s.value σ r := by
  rw [Cache.value, Cache.value]
  split
  next hready => exact h hready
  · rfl

/-- A step on a buffer leaves the data of other holders alone. -/
theorem value_of_touches (hl : Locks s) {b : Buf} {e : Edit} (ht : Touches s r.buf b e t)
    (hr : r ∈ s.refs) (hrs : r.stage.holds = true) (hq : q ∈ s.refs) (hne : q ≠ r) :
    t.value σ q = s.value σ q := by
  refine Cache.value_congr fun hready ↦ ?_
  have hbuf : q.buf ≠ r.buf := fun heq ↦
    hne (hl.eq_of_holds hr hq hrs (by rw [hready]; rfl) heq)
  rw [(ht.other _ hbuf).1]

/-- The uses by commits are as before when a process moves on with its own. -/
theorem filter_move (hr : r ∈ s.refs) (hc : r.caller.commit = false) (stage : Stage) :
    (({ r with stage := stage } :: s.refs.erase r).filter fun r ↦ r.caller.commit).Perm
      (s.refs.filter fun r ↦ r.caller.commit) := by
  have hperm := (List.perm_cons_erase hr).filter fun r ↦ r.caller.commit
  rw [List.filter_cons_of_neg (by rw [hc]; exact Bool.false_ne_true)] at hperm ⊢
  exact hperm.symm

end Held

end Bio

end Xv6
