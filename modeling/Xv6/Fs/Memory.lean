import Xv6.Fs.File

/-!
# What the block map leaves alone in memory

`bmap` changes blocks, the log, and the block addresses of one inode in memory. Nothing else in
memory changes, and this needs no assumption: neither that the trees are in order nor that the block
lies in the range in which `bmap` works. So the open files, and the locks and reference counts of
the inodes, can be followed through any read or write.
-/

namespace Xv6

open FsState Prog

variable {ip : ℕ} {s t : FsState}

instance : IsPreorder FsState (SameMemory ip) where
  refl := .refl ip
  trans _ _ _ h h' := h.trans h'

namespace Fs

variable {env : Env}

theorem keeps_bread (b : ℕ) : (bread b).Keeps (SameMemory ip) :=
  .ite (.get_bind fun _ ↦ .pure _) (.fail _)

theorem keeps_logWrite (b : ℕ) (v : Block) : (logWrite b v).Keeps (SameMemory ip) := by
  intro s
  rw [logWrite, sat_get_bind]
  split
  · trivial
  · exact ⟨fun _ _ ↦ rfl, ⟨_, rfl⟩, rfl⟩

theorem keeps_balloc (ip : ℕ) : (balloc env).Keeps (SameMemory ip) := by
  rw [balloc]
  generalize List.map _ _ = bs
  induction bs with
  | nil => exact .fail _
  | cons b bs ih =>
    rw [ballocFrom]
    refine (keeps_bread _).bind fun bp ↦ ?_
    split
    next bi _ =>
      refine (keeps_logWrite _ _).bind fun _ ↦ .bind ?_ fun _ ↦ .pure _
      exact (keeps_bread _).bind fun _ ↦ keeps_logWrite _ _
    · exact ih

theorem keeps_rootPtr (k : ℕ) : (rootPtr env ip k).Keeps (SameMemory ip) := by
  intro s
  rw [rootPtr, sat_bind, sat_inode]
  split
  · refine (keeps_balloc ip s).bind fun a t ht ↦ ?_
    rw [modifyInode, sat_modify_bind]
    obtain ⟨b, hb⟩ := ht.icache_eq
    refine ⟨fun jp hjp ↦ ?_, ⟨fun j ↦ if j = k then BitVec.ofNat 32 a else b j, ?_⟩, ht.ftable⟩
    · rw [icache_setInode_of_ne hjp, ht.icache_ne jp hjp]
    · rw [icache_setInode_self, hb]
      rfl
  · exact .refl ip s

theorem keeps_entryPtr (blk i j : ℕ) : (entryPtr env blk i j).Keeps (SameMemory ip) := by
  refine (keeps_bread _).bind fun _ ↦ .get_bind fun s ↦ .ite ?_ (.pure _)
  exact (keeps_balloc ip).bind fun a ↦ .get_bind fun s ↦ (keeps_logWrite _ _).bind fun _ ↦ .pure _

/-- `bmap` changes nothing in memory but the block addresses of the inode. -/
theorem keeps_bmap (bn : ℕ) : (bmap env ip bn).Keeps (SameMemory ip) := by
  unfold bmap
  dsimp only
  split
  · exact keeps_rootPtr _
  · split
    · exact (keeps_rootPtr _).bind fun a ↦ keeps_entryPtr _ _ _
    · split
      · exact (keeps_rootPtr _).bind fun a ↦ (keeps_entryPtr _ _ _).bind fun b ↦
          keeps_entryPtr _ _ _
      · split
        · exact (keeps_rootPtr _).bind fun a ↦ (keeps_entryPtr _ _ _).bind fun b ↦
            (keeps_entryPtr _ _ _).bind fun c ↦ keeps_entryPtr _ _ _
        · exact .fail _

theorem keeps_iupdate (ip : ℕ) : (iupdate env ip).Keeps (SameMemory ip) :=
  .get_bind fun _ ↦ (keeps_bread _).bind fun _ ↦ keeps_logWrite _ _

theorem keeps_writeLoop (src : ℕ → Byte) (off n : ℕ) :
    (writeLoop env ip src off n).Keeps (SameMemory ip) := by
  induction n using Nat.strong_induction_on generalizing src off with
  | _ n ih =>
    rw [writeLoop]
    split
    · exact .pure _
    next hn =>
      obtain ⟨hm0, -, -⟩ := firstPart hn off
      refine (keeps_bmap _).bind fun a ↦ (keeps_bread _).bind fun bp ↦ ?_
      exact (keeps_logWrite _ _).bind fun _ ↦ ih _ (by omega) _ _

theorem keeps_readLoop (off n : ℕ) : (readLoop env ip off n).Keeps (SameMemory ip) := by
  induction n using Nat.strong_induction_on generalizing off with
  | _ n ih =>
    rw [readLoop]
    split
    · exact .pure _
    next hn =>
      obtain ⟨hm0, -, -⟩ := firstPart hn off
      refine (keeps_bmap _).bind fun a ↦ (keeps_bread _).bind fun bp ↦ ?_
      exact (ih _ (by omega) _).bind fun _ ↦ .pure _

/-! ### The part of a call that holds the lock -/

/-- Only the block addresses and the size of one inode change, and the offset of the open file is
advanced by the result. -/
structure Advanced (f ip : ℕ) (pos : Option Word) (s : FsState) (r : ℤ) (t : FsState) : Prop where
  icache_ne : ∀ jp ≠ ip, t.icache jp = s.icache jp
  icache_eq : ∃ a z, t.icache ip = { s.icache ip with addrs := a, size := z }
  ftable : t.ftable = (s.advance f pos r).ftable

variable {f : ℕ}

/-- What the inode keeps. -/
theorem Advanced.ready {pos : Option Word} {r : ℤ} (h : Advanced f ip pos s r t) (hready : Ready s ip) :
    Ready t ip ∧ (t.icache ip).type = (s.icache ip).type := by
  obtain ⟨a, z, heq⟩ := h.icache_eq
  refine ⟨⟨?_, ?_, ?_⟩, ?_⟩ <;> rw [heq]
  · exact hready.ref_pos
  · exact hready.unlocked
  · exact hready.valid

/-- Unlocking after the inode has been changed under the lock. -/
theorem Advanced.of_locked {pos : Option Word} {r : ℤ} {u : FsState}
    (hunlocked : (s.icache ip).locked = false)
    (hne : ∀ jp ≠ ip, u.icache jp = (s.setLocked ip true).icache jp)
    (heq : ∃ a z, u.icache ip = { (s.setLocked ip true).icache ip with addrs := a, size := z })
    (hft : u.ftable = s.ftable) : Advanced f ip pos s r ((u.setLocked ip false).advance f pos r) := by
  refine ⟨fun jp hjp ↦ ?_, ?_, ?_⟩
  · rw [icache_advance, icache_setLocked_of_ne _ _ _ hjp, hne jp hjp,
      icache_setLocked_of_ne _ _ _ hjp]
  · obtain ⟨a, z, heq⟩ := heq
    refine ⟨a, z, ?_⟩
    rw [icache_advance, icache_setLocked_self, heq, icache_setLocked_self,
      ← hunlocked]
  · rw [advance, advance]
    split
    · show Function.update (u.setLocked ip false).ftable f _ = Function.update s.ftable f _
      rw [show (u.setLocked ip false).ftable = s.ftable from hft]
    · exact hft

/-- `writei` refuses, or it writes everything. -/
theorem writei_mem (htype : (s.icache ip).type ≠ T_DEV) (src : ℕ → Byte) (off n : Word) :
    (writei env ip src off n).Sat s
      (fun r t ↦ (r = -1 ∧ t = s) ∨ (r = n.toInt ∧ off.toNat + n.toNat ≤ MAXFILE * BSIZE ∧
        (∀ jp ≠ ip, t.icache jp = s.icache jp) ∧
        (∃ a z, t.icache ip = { s.icache ip with addrs := a, size := z }) ∧ t.ftable = s.ftable))
      fun _ ↦ True := by
  rw [writei, sat_bind, sat_inode, if_neg htype]
  split
  · exact .inl ⟨rfl, rfl⟩
  next hover =>
    split
    · exact .inl ⟨rfl, rfl⟩
    next hmax =>
      have hsum : off.toNat + n.toNat ≤ MAXFILE * BSIZE := by
        rw [BitVec.not_lt, BitVec.le_def] at hover
        rw [BitVec.toNat_add] at hover hmax
        have h1 := off.isLt
        have h2 := n.isLt
        omega
      refine (keeps_writeLoop _ _ _ s).bind fun _ t ht ↦ ?_
      obtain ⟨a, ha⟩ := ht.icache_eq
      rw [sat_bind, sat_inode]
      split
      · rw [modifyInode, sat_modify_bind]
        refine (keeps_iupdate ip _).bind fun _ u hu ↦ Or.inr ⟨rfl, hsum, fun jp hjp ↦ ?_, ?_, ?_⟩
        · rw [hu.icache_ne jp hjp, icache_setInode_of_ne hjp, ht.icache_ne jp hjp]
        · obtain ⟨b, hb⟩ := hu.icache_eq
          refine ⟨b, off + n, ?_⟩
          rw [hb, icache_setInode_self, ha]
        · exact hu.ftable.trans ht.ftable
      · exact .inr ⟨rfl, hsum, ht.icache_ne, ⟨a, _, ha⟩, ht.ftable⟩

/-- A locked write refuses, or it writes everything. -/
theorem lockedWrite_mem (hready : Ready s (s.ftable f).ip) (htype : (s.icache (s.ftable f).ip).type ≠ T_DEV)
    (src : ℕ → Byte) {n : ℕ} (hn : n < 2 ^ 31) (pos : Option Word) : (lockedWrite env f src n pos).Sat s
      (fun r t ↦ (r = -1 ∧ t = s) ∨ (r = n ∧ (pos.getD (s.ftable f).off).toNat + n ≤ MAXFILE * BSIZE ∧
          Advanced f (s.ftable f).ip pos s n t)) fun _ ↦ True := by
  have hinode := s.icache_setLocked_self (s.ftable f).ip true
  have htoNat : (BitVec.ofInt 32 n).toNat = n := by
    rw [BitVec.toNat_ofInt]
    omega
  have htoInt : (BitVec.ofInt 32 n).toInt = n := by
    rw [BitVec.toInt_eq_toNat_cond, htoNat, if_pos (by omega)]
  rw [lockedWrite]
  show Prog.Sat (ilock env (s.ftable f).ip >>= _) s _ _
  rw [sat_bind, sat_ilock hready]
  refine (writei_mem (by rwa [hinode]) _ _ _).bind fun r u hu ↦ ?_
  rcases hu with ⟨rfl, rfl⟩ | ⟨rfl, hmax, hne, heq, hft⟩
  · rw [sat_bind, sat_unlockAfter (by rw [hinode]; exact hready.ref_pos) (by rw [hinode]),
      sat_pure, s.setLocked_setLocked _ hready.unlocked, s.advance_of_nonpos _ _ (by omega)]
    exact .inl ⟨rfl, rfl⟩
  · obtain ⟨a, z, ha⟩ := id heq
    rw [hinode] at ha
    rw [htoNat] at hmax
    rw [sat_bind, sat_unlockAfter (by rw [ha]; exact hready.ref_pos) (by rw [ha]),
      sat_pure, htoInt]
    exact .inr ⟨rfl, hmax, .of_locked hready.unlocked hne heq hft⟩

theorem toNat_toInt_le (w : Word) : w.toInt.toNat ≤ w.toNat := by
  rw [BitVec.toInt_eq_toNat_cond]
  split <;> omega

/-- A locked read delivers nothing that lies beyond the end of the file. -/
theorem lockedRead_mem (hready : Ready s (s.ftable f).ip) (htype : (s.icache (s.ftable f).ip).type ≠ T_DEV)
    (n : ℤ) (pos : Option Word) : (lockedRead env f n pos).Sat s
      (fun out t ↦ Advanced f (s.ftable f).ip pos s out.1 t ∧
        (0 < out.1 → (pos.getD (s.ftable f).off).toNat + out.1.toNat < 2 ^ 32)) fun _ ↦ True := by
  have hinode := s.icache_setLocked_self (s.ftable f).ip true
  rw [lockedRead]
  show Prog.Sat (ilock env (s.ftable f).ip >>= _) s _ _
  rw [sat_bind, sat_ilock hready]
  refine Prog.Sat.bind (P := fun out u ↦ SameMemory (s.ftable f).ip
    (s.setLocked (s.ftable f).ip true) u ∧
      (0 < out.1 → (pos.getD (s.ftable f).off).toNat + out.1.toNat < 2 ^ 32)) ?_ fun out u hu ↦ ?_
  · rw [readi, sat_bind, sat_inode, if_neg (by rwa [hinode])]
    split
    · exact ⟨.refl _ _, fun h ↦ absurd h (by decide)⟩
    next hok =>
      have hlen := toNat_readLength hok
      have hsize := ((s.setLocked (s.ftable f).ip true).icache (s.ftable f).ip).size.isLt
      refine (keeps_readLoop _ _ _).bind fun _ u hu ↦ ⟨hu, fun _ ↦ ?_⟩
      have hoff := (pos.getD (s.ftable f).off).isLt
      refine (Nat.add_le_add_left (toNat_toInt_le _) _).trans_lt ?_
      omega
  · obtain ⟨hmem, hpos⟩ := hu
    obtain ⟨a, ha⟩ := id hmem.icache_eq
    rw [hinode] at ha
    rw [sat_bind, sat_unlockAfter (by rw [ha]; exact hready.ref_pos) (by rw [ha]),
      sat_pure]
    obtain ⟨b, hb⟩ := hmem.icache_eq
    exact ⟨.of_locked hready.unlocked hmem.icache_ne ⟨b, _, hb⟩ hmem.ftable, hpos⟩

end Fs

end Xv6
