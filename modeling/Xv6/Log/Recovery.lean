import Xv6.Log.Machine

/-!
# Recovery from the on-disk log

`recoverFromLog` is `recover_from_log` run to its end over a disk. Its meaning is an overlay: the
home blocks named in the header get the contents of the log blocks, every other home block keeps its
own (`recoverFromLog_home`).

The header survives its trip to the disk: what `write_head` stores, `read_head` reads
(`readHead_writeHead`). `Recoverable sb d H` says that recovery over the disk `d` gives the home
blocks `H`; the four kinds of disk write that `log.c` performs are shown to keep it, each under the
condition in which `log.c` performs it. No state of the machine and no process appears here.
-/

namespace Xv6.Log

open Function

variable {hb : Block} {i b : ℕ} {lh : List ℕ} {d H : Disk}

/-! ### The header block -/

theorem word_writeEntries {j : ℕ} {bs : List ℕ} (h : i + bs.length < NINDIRECT) :
    (writeEntries hb i bs).word j =
      if i < j ∧ j ≤ i + bs.length then BitVec.ofNat 32 (bs.getD (j - i - 1) 0) else hb.word j := by
  induction bs generalizing hb i with
  | nil => rw [writeEntries, if_neg (by rw [List.length_nil]; omega)]
  | cons b bs ih =>
    rw [List.length_cons] at h
    rw [writeEntries, ih (by omega), Block.word_setWord (by omega), List.length_cons]
    by_cases hj : j = i + 1
    · rw [if_neg (by omega), if_pos hj, if_pos (by omega), hj, Nat.add_sub_cancel_left,
        Nat.sub_self, List.getD_cons_zero]
    · rw [if_neg hj]
      by_cases hij : i + 1 < j ∧ j ≤ i + 1 + bs.length
      · rw [if_pos hij, if_pos (by omega), show j - i - 1 = (j - (i + 1) - 1) + 1 by omega,
          List.getD_cons_succ]
      · rw [if_neg hij, if_neg (by omega)]

/-- What `write_head` stores, `read_head` reads. -/
theorem readHead_writeHead (hlen : lh.length < NINDIRECT) (hlt : ∀ b ∈ lh, b < 2 ^ 32) :
    readHead (writeHead hb lh) = lh := by
  have hN : NINDIRECT = 128 := rfl
  have hn : ((writeHead hb lh).word 0).toInt.toNat = lh.length := by
    have hnat : (BitVec.ofNat 32 lh.length).toNat = lh.length := by
      rw [BitVec.toNat_ofNat]
      omega
    rw [writeHead, word_writeEntries (by omega), if_neg (by omega),
      Block.word_setWord_self (by omega), BitVec.toInt_eq_toNat_of_lt (by omega), hnat,
      Int.toNat_natCast]
  rw [readHead, hn]
  apply List.ext_getElem (by simp)
  intro i hi hi'
  have hb := hlt _ (List.getElem_mem hi')
  rw [List.getElem_map, List.getElem_range, writeHead, word_writeEntries (by omega),
    if_pos (by omega), show i + 1 - 0 - 1 = i by omega, List.getD_eq_getElem?_getD,
    List.getElem?_eq_getElem hi', Option.getD_some, BitVec.toNat_ofNat, Nat.mod_eq_of_lt hb]

theorem readHead_zero : readHead Block.zero = [] := by
  rw [readHead, Block.word_zero]
  rfl

@[simp]
theorem readHead_writeHead_nil (hb : Block) : readHead (writeHead hb []) = [] :=
  readHead_writeHead (by decide) (by simp)

variable {sb : Superblock}

/-! ### Home blocks and the log area -/

theorem Home.ne_logBlock (h : Home sb b) (hi : i + 1 < sb.nlog) : b ≠ sb.logstart + i + 1 := by
  intro hb
  exact h.2 ⟨by omega, by omega⟩

theorem Home.ne_logstart (h : Home sb b) (hn : 0 < sb.nlog) : b ≠ sb.logstart := by
  intro hb
  exact h.2 ⟨by omega, by omega⟩

theorem Home.lt (h : Home sb b) : b < 2 ^ 32 := by
  have h1 := h.1
  have h2 := sb.size_le
  have h3 : FSSIZE = 40000 := rfl
  omega

variable (sb)

/-- The entries of the on-disk log from entry `tail` on: home block and contents. -/
def logEntries (d : Disk) (tail : ℕ) (lh : List ℕ) : List (ℕ × Block) :=
  (lh.zipIdx tail).map fun e ↦ (e.1, d (sb.logstart + e.2 + 1))

/-- The loop of `install_trans`, from entry `tail` on. -/
def installFrom (d : Disk) (tail : ℕ) : List ℕ → Disk
  | [] => d
  | b :: bs => installFrom (update d b (d (sb.logstart + tail + 1))) (tail + 1) bs

/-- `recover_from_log`, as a function of the disk. -/
def recoverFromLog (d : Disk) : Disk :=
  let lh := readHead (d sb.logstart)
  let d := installFrom sb d 0 lh
  update d sb.logstart (writeHead (d sb.logstart) [])

variable {sb}

theorem mem_logEntries {w : ℕ × Block} : w ∈ logEntries sb d 0 lh ↔
      ∃ i, lh[i]? = some w.1 ∧ d (sb.logstart + i + 1) = w.2 := by
  rw [logEntries, List.mem_map]
  constructor
  · rintro ⟨⟨b, i⟩, hb, rfl⟩
    exact ⟨i, List.mem_zipIdx_iff_getElem?.1 hb, rfl⟩
  · rintro ⟨i, hb, hd⟩
    exact ⟨(w.1, i), List.mem_zipIdx_iff_getElem?.2 hb, by rw [hd]⟩

/-- The entries depend only on the log area. -/
theorem logEntries_congr {c : Disk} {tail : ℕ}
    (h : ∀ i, tail ≤ i → i < tail + lh.length → c (sb.logstart + i + 1) = d (sb.logstart + i + 1)) :
    logEntries sb c tail lh = logEntries sb d tail lh := by
  apply List.map_congr_left
  rintro ⟨b, i⟩ hb
  have hi := List.mem_zipIdx hb
  rw [h i (by omega) (by omega)]

/-- Installing the entries one by one lays them over the disk. -/
theorem installFrom_eq_overlay {tail : ℕ} (hhome : ∀ b ∈ lh, Home sb b)
    (hfits : tail + lh.length + 1 ≤ sb.nlog) :
    installFrom sb d tail lh = overlay (logEntries sb d tail lh) d := by
  induction lh generalizing d tail with
  | nil => rfl
  | cons b bs ih =>
    rw [List.length_cons] at hfits
    have hb : Home sb b := hhome b List.mem_cons_self
    have hlog : logEntries sb (update d b (d (sb.logstart + tail + 1))) (tail + 1) bs =
        logEntries sb d (tail + 1) bs :=
      logEntries_congr fun i _ hi ↦
        update_of_ne (Ne.symm (hb.ne_logBlock (by omega))) _ _
    rw [installFrom, ih (fun c hc ↦ hhome c (List.mem_cons_of_mem _ hc)) (by omega), hlog,
      logEntries, logEntries, List.zipIdx_cons, List.map_cons, Overlay.overlay_cons]

/-! ### Disks from which recovery gives a known state -/

variable (sb)

/-- The header of the disk `d` is sound, and recovery over `d` gives the home blocks `H`. -/
structure Recoverable (d H : Disk) : Prop where
  fits : (readHead (d sb.logstart)).length + 1 ≤ sb.nlog
  home : ∀ b ∈ readHead (d sb.logstart), Home sb b
  nodup : (readHead (d sb.logstart)).Nodup
  /-- The entries laid over the disk are the home blocks `H`. -/
  eq : ∀ b, Home sb b → overlay (logEntries sb d 0 (readHead (d sb.logstart))) d b = H b

variable {sb}

/-- Running `recover_from_log` over a recoverable disk gives the home blocks it stands for. -/
theorem recoverFromLog_home (h : Recoverable sb d H) (hb : Home sb b) : recoverFromLog sb d b = H b := by
  have hfits := h.fits
  show update (installFrom sb d 0 (readHead (d sb.logstart))) sb.logstart _ b = H b
  rw [update_of_ne (hb.ne_logstart (by omega)),
    installFrom_eq_overlay h.home (by omega), h.eq b hb]

/-- With an empty header the disk holds the home blocks itself. -/
theorem Recoverable.eq_of_readHead_nil (h : Recoverable sb d H) (hnil : readHead (d sb.logstart) = [])
    (hb : Home sb b) : d b = H b := by
  have := h.eq b hb
  rwa [hnil] at this

/-- A disk with an empty header stands for its own home blocks. -/
theorem recoverable_of_readHead_nil (hn : 0 < sb.nlog) (hnil : readHead (d sb.logstart) = [])
    (h : ∀ b, Home sb b → d b = H b) : Recoverable sb d H where
  fits := by rw [hnil]; exact hn
  home := by simp [hnil]
  nodup := by simp [hnil]
  eq b hb := by rw [hnil]; exact h b hb

variable (h : Recoverable sb d H)

include h

/-- `write_log` with an empty header: a write to a log block. -/
theorem Recoverable.writeLog (hnil : readHead (d sb.logstart) = [])
    (hi : i + 1 < sb.nlog) (v : Block) : Recoverable sb (update d (sb.logstart + i + 1) v) H := by
  have hne : sb.logstart ≠ sb.logstart + i + 1 := by omega
  refine recoverable_of_readHead_nil (by omega) ?_ fun b hb ↦ ?_
  · rwa [update_of_ne hne]
  · rw [update_of_ne (hb.ne_logBlock hi), h.eq_of_readHead_nil hnil hb]

/-- `write_head` of a commit: the header names `lh`, whose new contents are in the log blocks. -/
theorem Recoverable.writeHead {H' : Disk} (hnil : readHead (d sb.logstart) = [])
    (hlen : lh.length < NINDIRECT) (hfits : lh.length + 1 ≤ sb.nlog) (hhome : ∀ b ∈ lh, Home sb b)
    (hnodup : lh.Nodup) (hlog : ∀ i b, lh[i]? = some b → d (sb.logstart + i + 1) = H' b)
    (hrest : ∀ b, Home sb b → b ∉ lh → H' b = H b) :
    Recoverable sb (update d sb.logstart (writeHead hb lh)) H' := by
  have hread : readHead (update d sb.logstart (Log.writeHead hb lh) sb.logstart) = lh := by
    rw [update_self]
    exact readHead_writeHead hlen fun b hb ↦ (hhome b hb).lt
  refine ⟨by rwa [hread], by rwa [hread], by rwa [hread], fun b hb ↦ ?_⟩
  rw [hread]
  by_cases hmem : b ∈ lh
  · -- every entry for `b` holds its new contents
    obtain ⟨i, hi⟩ := List.mem_iff_getElem?.1 hmem
    have hw : (b, H' b) ∈
        logEntries sb (update d sb.logstart (Log.writeHead ‹Block› lh)) 0 lh :=
      mem_logEntries.2 ⟨i, hi, by rw [update_of_ne (by omega), hlog i b hi]⟩
    refine Overlay.overlay_of_mem hw fun v hv hvb ↦ ?_
    obtain ⟨j, hj, hjv⟩ := mem_logEntries.1 hv
    rw [update_of_ne (by omega), hlog j v.1 hj] at hjv
    rw [← hjv, hvb]
  · rw [Overlay.overlay_of_not_mem, update_of_ne (hb.ne_logstart (by omega)),
      h.eq_of_readHead_nil hnil hb, hrest b hb hmem]
    intro w hw hwb
    obtain ⟨i, hi, -⟩ := mem_logEntries.1 hw
    exact hmem (hwb ▸ List.mem_of_getElem? hi)

/-- `install_trans`: an entry of the log goes to its home block. -/
theorem Recoverable.install (hi : (readHead (d sb.logstart))[i]? = some b) :
    Recoverable sb (update d b (d (sb.logstart + i + 1))) H := by
  have hfits := h.fits
  have hb : Home sb b := h.home b (List.mem_of_getElem? hi)
  have hread : readHead (update d b (d (sb.logstart + i + 1)) sb.logstart) =
      readHead (d sb.logstart) := by
    rw [update_of_ne (Ne.symm (hb.ne_logstart (by omega)))]
  have hlog : logEntries sb (update d b (d (sb.logstart + i + 1))) 0
      (readHead (d sb.logstart)) = logEntries sb d 0 (readHead (d sb.logstart)) :=
    logEntries_congr fun j _ hj ↦
      update_of_ne (Ne.symm (hb.ne_logBlock (by omega))) _ _
  refine ⟨by rwa [hread], by rw [hread]; exact h.home, by rw [hread]; exact h.nodup,
    fun c hc ↦ ?_⟩
  rw [hread, hlog, Overlay.overlay_update_mem (mem_logEntries.2 ⟨i, hi, rfl⟩ :
    (b, d (sb.logstart + i + 1)) ∈ _), h.eq c hc]

/-- `write_head` of an erased transaction: every entry has been installed. -/
theorem Recoverable.clearHead
    (hinst : ∀ i b, (readHead (d sb.logstart))[i]? = some b → d b = d (sb.logstart + i + 1)) (hb : Block) :
    Recoverable sb (update d sb.logstart (Log.writeHead hb [])) H := by
  have hfits := h.fits
  refine recoverable_of_readHead_nil (by omega) ?_ fun b hb ↦ ?_
  · rw [update_self, readHead_writeHead_nil]
  · rw [update_of_ne (hb.ne_logstart (by omega)), ← h.eq b hb, Overlay.overlay_eq_self]
    intro w hw
    obtain ⟨i, hi, hiw⟩ := mem_logEntries.1 hw
    rw [hinst i w.1 hi, hiw]

end Xv6.Log
