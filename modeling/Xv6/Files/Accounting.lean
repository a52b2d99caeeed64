import Mathlib.Algebra.Ring.Int.Defs
import Mathlib.Data.Fintype.Prod
import Xv6.Files.Basic
import Xv6.Lib.RefCount

/-!
# Reference counts of open files

Between system calls the reference count of every file is the number of descriptors that name it, and an
end of a pipe is open as long as there is a descriptor for it (`files_accounted`). Inside a call the
count and the descriptors differ by the references that the code holds: `Counted σ held`. Each function of
`file.c` changes `held` by one, and so does each assignment to a descriptor; a system call is right because
these changes add up to nothing.

The exception is `exit`: it ends the threads of the process and leaves their descriptors as they are, and
`wait` then frees their slots (`exit_keeps_files`). So the result is about runs in which a process
exits only after its threads.
-/

namespace Xv6

open Prog RefCount Function

/-- `x` is the end `w` of the pipe `p`. -/
def File.IsEnd (x : File) (p : ℕ) (w : Bool) : Prop :=
  x.type = .pipe ∧ x.pipe = p ∧ x.writable = w

theorem File.isEnd_setRef (x : File) (n : ℤ) (p : ℕ) (w : Bool) :
    (x.setRef n).IsEnd p w ↔ x.IsEnd p w := Iff.rfl

namespace Files

/-- The end `w` of the pipe `p` is open. -/
def Open (σ : Files) (p : ℕ) (w : Bool) : Prop := ∃ q, σ.pipe p = some q ∧ q.isOpen w = true

/-- One reference to `f`. -/
def one (f : FileId) : FileId → ℤ := fun g ↦ if g = f then 1 else 0

/-- The files are accounted for, when the code that runs holds `held f` references to `f`. -/
structure Counted (σ : Files) (held : FileId → ℤ) : Prop where
  refs : ∀ f, (σ.ftable f).ref = count σ.ofile f + held f
  closed : ∀ f, (σ.ftable f).ref = 0 → (σ.ftable f).type = .none
  made : ∀ p, σ.npipes ≤ p → σ.pipe p = none
  single : ∀ {f f' p w}, (σ.ftable f).IsEnd p w → (σ.ftable f').IsEnd p w → f = f'
  ends : ∀ p w, σ.Open p w ↔ ∃ f, (σ.ftable f).IsEnd p w

/-- Only descriptors of the slot `c` have changed, and no slot of the process table. -/
structure Kept (c : Slot) (σ σ' : Files) : Prop where
  proc : σ'.table.proc = σ.table.proc
  other : ∀ k fd, k ≠ c → σ'.ofile (k, fd) = σ.ofile (k, fd)

/-- Nothing has changed but files and pipes. -/
structure SameDesc (σ σ' : Files) : Prop where
  proc : σ'.table.proc = σ.table.proc
  ofile : σ'.ofile = σ.ofile

section Held

variable {σ σ' : Files} {held : FileId → ℤ} {c : Slot} {f : FileId}

theorem Kept.refl (c : Slot) (σ : Files) : Kept c σ σ := ⟨rfl, fun _ _ _ ↦ rfl⟩

theorem Kept.trans {σ'' : Files} (h : Kept c σ σ') (h' : Kept c σ' σ'') : Kept c σ σ'' :=
  ⟨h'.proc.trans h.proc, fun k fd hk ↦ (h'.other k fd hk).trans (h.other k fd hk)⟩

theorem SameDesc.kept (h : SameDesc σ σ') (c : Slot) : Kept c σ σ' :=
  ⟨h.proc, fun k fd _ ↦ congrFun h.ofile (k, fd)⟩

/-- A process changes its own descriptors only. -/
theorem kept_setOfile (σ : Files) (c : Slot) (fd : Fd) (x : Option FileId) :
    Kept c σ (σ.setOfile (c, fd) x) := by
  refine ⟨rfl, fun k fd' hk ↦ update_of_ne ?_ ..⟩
  exact fun h ↦ hk (congrArg Prod.fst h)

/-! ### Descriptors -/

/-- A reference that the code holds becomes a descriptor. -/
theorem Counted.set {i : Slot × Fd} (h : Counted σ held) (hi : σ.ofile i = none) :
    Counted (σ.setOfile i (some f)) (held - one f) := by
  refine ⟨fun g ↦ ?_, h.closed, h.made, h.single, h.ends⟩
  show (σ.ftable g).ref = count (update σ.ofile i (some f)) g + (held g - one f g)
  rw [h.refs g, count_set hi, one]
  omega

/-- A descriptor becomes a reference that the code holds. -/
theorem Counted.clear {i : Slot × Fd} (h : Counted σ held) (hi : σ.ofile i = some f) :
    Counted (σ.setOfile i none) (held + one f) := by
  refine ⟨fun g ↦ ?_, h.closed, h.made, h.single, h.ends⟩
  show (σ.ftable g).ref = count (update σ.ofile i none) g + (held g + one f g)
  rw [h.refs g, count_clear hi, one]
  omega

/-- `fdalloc` turns a held reference into a descriptor. -/
theorem fdalloc_sat (h : Counted σ held) : (fdalloc c f).Sat σ (fun r σ' ↦
    σ'.ftable = σ.ftable ∧ Kept c σ σ' ∧ (r = none → σ' = σ) ∧
      ∀ fd, r = some fd → Counted σ' (held - one f) ∧ σ'.ofile (c, fd) = some f) fun _ ↦ True := by
  rw [fdalloc, sat_get_bind]
  split
  · exact ⟨rfl, .refl c σ, fun _ ↦ rfl, nofun⟩
  next fd hfd =>
    have hnone := List.find?_some hfd
    rw [decide_eq_true_iff] at hnone
    refine ⟨rfl, kept_setOfile σ c fd _, nofun, fun fd' heq ↦ ?_⟩
    obtain rfl := Option.some.inj heq
    exact ⟨h.set hnone, update_self ..⟩

/-! ### `file.c` -/

/-- A file that stays open, and the same end of the same pipe if it is one, may change in its other
fields; its reference count changes by what the code comes to hold. -/
theorem Counted.setFile (h : Counted σ held) {x : File} (hx : x.ref ≠ 0)
    (hsame : ∀ p w, x.IsEnd p w ↔ (σ.ftable f).IsEnd p w) {held' : FileId → ℤ}
    (hf : x.ref = count σ.ofile f + held' f) (hheld : ∀ g, g ≠ f → held' g = held g) :
    Counted (σ.setFile f x) held' := by
  have hself : (σ.setFile f x).ftable f = x := update_self ..
  have hother : ∀ g, g ≠ f → (σ.setFile f x).ftable g = σ.ftable g :=
    fun g hg ↦ update_of_ne hg ..
  have hend : ∀ g p w, ((σ.setFile f x).ftable g).IsEnd p w ↔ (σ.ftable g).IsEnd p w := by
    intro g p w
    rcases eq_or_ne g f with rfl | hg
    · rw [hself]
      exact hsame p w
    · rw [hother g hg]
  refine ⟨fun g ↦ ?_, fun g hg ↦ ?_, h.made, fun hg hg' ↦ ?_, fun p w ↦ ?_⟩
  · rcases eq_or_ne g f with rfl | hne
    · rw [hself]
      exact hf
    · rw [hother g hne, hheld g hne]
      exact h.refs g
  · rcases eq_or_ne g f with rfl | hne
    · rw [hself] at hg
      exact absurd hg hx
    · rw [hother g hne] at hg ⊢
      exact h.closed g hg
  · exact h.single ((hend _ _ _).1 hg) ((hend _ _ _).1 hg')
  · exact (h.ends p w).trans (exists_congr fun g ↦ (hend g p w).symm)

/-- `filealloc` gives out a free entry, with one reference. -/
theorem filealloc_sat (h : Counted σ held) : filealloc.Sat σ (fun r σ' ↦ SameDesc σ σ' ∧
    (r = none → σ' = σ) ∧ ∀ f, r = some f → (σ.ftable f).ref = 0 ∧
      Counted σ' (held + one f) ∧ (σ'.ftable f).ref = 1 ∧ (σ'.ftable f).type = .none ∧
      ∀ g, g ≠ f → σ'.ftable g = σ.ftable g) fun _ ↦ True := by
  rw [filealloc, sat_get_bind]
  split
  · exact ⟨⟨rfl, rfl⟩, fun _ ↦ rfl, nofun⟩
  next f hf =>
    have hzero := List.find?_some hf
    rw [decide_eq_true_iff] at hzero
    refine ⟨⟨rfl, rfl⟩, nofun, fun f' heq ↦ ?_⟩
    obtain rfl := Option.some.inj heq
    have hself : (σ.setFile f ((σ.ftable f).setRef 1)).ftable f = (σ.ftable f).setRef 1 :=
      update_self ..
    refine ⟨hzero, h.setFile one_ne_zero (File.isEnd_setRef _ _) ?_ fun g hg ↦ ?_, ?_, ?_, fun g hg ↦ ?_⟩
    · have href := h.refs f
      rw [File.setRef_ref]
      rw [Pi.add_apply, one, if_pos rfl]
      omega
    · rw [Pi.add_apply, one, if_neg hg, add_zero]
    · rw [hself]
      rfl
    · rw [hself]
      exact h.closed f hzero
    · exact update_of_ne hg ..

/-- `filedup` adds a reference. -/
theorem filedup_sat (h : Counted σ held) :
    (filedup f).Sat σ (fun _ σ' ↦ SameDesc σ σ' ∧ Counted σ' (held + one f)) fun _ ↦ True := by
  rw [filedup, sat_get_bind]
  dsimp only
  split
  · trivial
  next hpos =>
    refine ⟨⟨rfl, rfl⟩, h.setFile ?_ (File.isEnd_setRef _ _) ?_ fun g hg ↦ ?_⟩
    · rw [File.setRef_ref]
      omega
    · have href := h.refs f
      rw [File.setRef_ref]
      rw [Pi.add_apply, one, if_pos rfl]
      omega
    · rw [Pi.add_apply, one, if_neg hg, add_zero]

/-- Closing one end of a pipe leaves the other as it is. -/
theorem isOpen_close (q : Pipe) (w w' : Bool) :
    (q.close w).isOpen w' = true ↔ q.isOpen w' = true ∧ w' ≠ w := by
  cases w <;> cases w' <;> simp [Pipe.close, Pipe.isOpen]

theorem sat_vm {α : Type} {m : Vm.VM α} {Q : α → Files → Prop}
    (h : ∀ a m', Q a (σ.setTable (σ.table.setMem m'))) : (vm m).Sat σ Q fun _ ↦ True := by
  rw [Sat, vm]
  dsimp only
  split
  next hrun =>
    split at hrun
    · obtain ⟨rfl, rfl⟩ := Prod.mk.inj (Except.ok.inj hrun)
      exact h _ _
    · cases hrun
  · trivial

/-- `pipeclose` closes one end. -/
theorem pipeclose_sat {p : ℕ} {w : Bool} : (pipeclose p w).Sat σ (fun _ σ' ↦ SameDesc σ σ' ∧
    σ'.ftable = σ.ftable ∧ σ'.npipes = σ.npipes ∧ (∀ p', σ.pipe p' = none → σ'.pipe p' = none) ∧
      ∀ p' w', σ'.Open p' w' ↔ σ.Open p' w' ∧ ¬(p' = p ∧ w' = w)) fun _ ↦ True := by
  rw [pipeclose, sat_get_bind]
  split
  · trivial
  next q hq =>
    have hnone : ∀ x p', σ.pipe p' = none → update σ.pipe p x p' = none := by
      intro x p' hp'
      rwa [update_of_ne]
      rintro rfl
      cases hq.symm.trans hp'
    have hother : ∀ {σ' : Files} {x p'} (w' : Bool), p' ≠ p →
        σ'.pipe = update σ.pipe p x →
        (σ'.Open p' w' ↔ σ.Open p' w' ∧ ¬(p' = p ∧ w' = w)) := by
      intro σ' x p' w' hp' heq
      rw [Open, heq, update_of_ne hp']
      exact ⟨fun h ↦ ⟨h, fun h' ↦ hp' h'.1⟩, And.left⟩
    have hself : ∀ w', σ.Open p w' ∧ ¬(p = p ∧ w' = w) ↔ (q.close w).isOpen w' = true := by
      intro w'
      rw [isOpen_close, Open, hq]
      constructor
      · intro ⟨⟨q', hq', hopen⟩, hne⟩
        obtain rfl := Option.some.inj hq'
        exact ⟨hopen, fun h ↦ hne ⟨rfl, h⟩⟩
      · intro ⟨hopen, hne⟩
        exact ⟨⟨q, rfl, hopen⟩, fun h ↦ hne h.2⟩
    split
    next hboth =>
      -- The pipe is freed.
      refine sat_modify_bind.2 (sat_vm fun _ m ↦ ⟨⟨rfl, rfl⟩, rfl, rfl, hnone none, fun p' w' ↦ ?_⟩)
      rcases eq_or_ne p' p with rfl | hp'
      · rw [hself]
        constructor
        · intro ⟨q', hq', _⟩
          have hfreed : update σ.pipe p' none p' = some q' := hq'
          rw [update_self] at hfreed
          cases hfreed
        · intro hopen
          rw [Pipe.isOpen, hboth.1, hboth.2] at hopen
          cases w' <;> cases hopen
      · exact hother w' hp' rfl
    · refine ⟨⟨rfl, rfl⟩, rfl, rfl, hnone _, fun p' w' ↦ ?_⟩
      rcases eq_or_ne p' p with rfl | hp'
      · rw [hself, Open, setPipe_pipe, update_self]
        constructor
        · intro ⟨q', hq', hopen⟩
          obtain rfl := Option.some.inj hq'
          exact hopen
        · intro hopen
          exact ⟨_, rfl, hopen⟩
      · exact hother w' hp' rfl

variable {a : Call}

/-- The last reference to `f` goes: the file has no type, and if it was an end of a pipe, only this end
is closed. -/
theorem Counted.drop (h : Counted σ held) (hlast : (σ.ftable f).ref = 1) (hofile : σ'.ofile = σ.ofile)
    (hself : (σ'.ftable f).ref = 0 ∧ (σ'.ftable f).type = .none)
    (hother : ∀ g, g ≠ f → σ'.ftable g = σ.ftable g) (hmade : ∀ p, σ'.npipes ≤ p → σ'.pipe p = none)
    (hopen : ∀ p w, σ'.Open p w ↔ σ.Open p w ∧ ¬(σ.ftable f).IsEnd p w) : Counted σ' (held - one f) := by
  have hend : ∀ g p w, (σ'.ftable g).IsEnd p w ↔ g ≠ f ∧ (σ.ftable g).IsEnd p w := by
    intro g p w
    rcases eq_or_ne g f with rfl | hg
    · exact ⟨fun h ↦ (nomatch hself.2.symm.trans h.1), fun h ↦ absurd rfl h.1⟩
    · rw [hother g hg]
      exact ⟨fun h ↦ ⟨hg, h⟩, And.right⟩
  refine ⟨fun g ↦ ?_, fun g hg ↦ ?_, hmade, fun hg hg' ↦ ?_, fun p w ↦ ?_⟩
  · have href := h.refs g
    rw [hofile, Pi.sub_apply, one]
    rcases eq_or_ne g f with rfl | hne
    · rw [hself.1, if_pos rfl]
      omega
    · rw [hother g hne, if_neg hne]
      omega
  · rcases eq_or_ne g f with rfl | hne
    · exact hself.2
    · rw [hother g hne] at hg ⊢
      exact h.closed g hg
  · exact h.single ((hend _ _ _).1 hg).2 ((hend _ _ _).1 hg').2
  · rw [hopen, h.ends]
    constructor
    · intro ⟨⟨g, hg⟩, hf⟩
      refine ⟨g, (hend g p w).2 ⟨?_, hg⟩⟩
      rintro rfl
      exact hf hg
    · intro ⟨g, hg⟩
      obtain ⟨hne, hg⟩ := (hend g p w).1 hg
      exact ⟨⟨g, hg⟩, fun hf ↦ hne (h.single hg hf)⟩

/-- `fileclose` drops a reference, and closes the file with the last one. -/
theorem fileclose_sat (h : Counted σ held) :
    (fileclose f).Sat σ (fun _ σ' ↦ SameDesc σ σ' ∧ Counted σ' (held - one f)) fun _ ↦ True := by
  rw [fileclose, sat_get_bind]
  dsimp only
  split
  · trivial
  next hpos =>
    split
    next hmore =>
      refine ⟨⟨rfl, rfl⟩, h.setFile ?_ (File.isEnd_setRef _ _) ?_ fun g hg ↦ ?_⟩
      · rw [File.setRef_ref]
        omega
      · have href := h.refs f
        rw [File.setRef_ref]
        rw [Pi.sub_apply, one, if_pos rfl]
        omega
      · rw [Pi.sub_apply, one, if_neg hg, sub_zero]
    next hlast =>
      have hone : (σ.ftable f).ref = 1 := by omega
      have hself : ((σ.setFile f (((σ.ftable f).setRef 0).setType .none)).ftable f).ref = 0 ∧
          ((σ.setFile f (((σ.ftable f).setRef 0).setType .none)).ftable f).type = .none := by
        rw [setFile_ftable, update_self]
        exact ⟨rfl, rfl⟩
      have hother : ∀ g, g ≠ f →
          (σ.setFile f (((σ.ftable f).setRef 0).setType .none)).ftable g = σ.ftable g :=
        fun g hg ↦ update_of_ne hg ..
      split
      next htype =>
        refine pipeclose_sat.imp fun _ σ' hσ' ↦ ?_
        obtain ⟨hsame, hft, hn, hnone, hopen⟩ := hσ'
        refine ⟨⟨hsame.proc, hsame.ofile⟩, h.drop hone hsame.ofile (hft ▸ hself)
          (fun g hg ↦ hft ▸ hother g hg) (fun p hp ↦ hnone p (h.made p (hn ▸ hp))) fun p w ↦ ?_⟩
        rw [hopen]
        refine and_congr_right fun _ ↦ not_congr ⟨fun ⟨hp, hw⟩ ↦ ⟨htype, hp.symm, hw.symm⟩, ?_⟩
        exact fun hend ↦ ⟨hend.2.1.symm, hend.2.2.symm⟩
      next htype =>
        refine ⟨⟨rfl, rfl⟩, h.drop hone rfl hself hother h.made fun p w ↦ ?_⟩
        exact ⟨fun hopen ↦ ⟨hopen, fun hend ↦ htype hend.1⟩, And.left⟩

/-- The pipe of a file has been made. -/
theorem Counted.end_lt (h : Counted σ held) {g : FileId} {p : ℕ} {w : Bool}
    (hg : (σ.ftable g).IsEnd p w) : p < σ.npipes := by
  obtain ⟨q, hq, -⟩ := (h.ends p w).2 ⟨g, hg⟩
  refine lt_of_not_ge fun hle ↦ ?_
  exact nomatch (h.made p hle).symm.trans hq

/-- The two files of a new pipe. -/
theorem makePipe_sat {f0 f1 : FileId} {page : ℕ} (h : Counted σ held) (hne : f0 ≠ f1)
    (h0 : (σ.ftable f0).type = .none) (h1 : (σ.ftable f1).type = .none)
    (hr0 : (σ.ftable f0).ref ≠ 0) (hr1 : (σ.ftable f1).ref ≠ 0) :
    (makePipe f0 f1 page).Sat σ (fun _ σ' ↦ SameDesc σ σ' ∧ Counted σ' held) fun _ ↦ True := by
  rw [makePipe, sat_get_bind, sat_modify_bind, sat_modify_bind, sat_modify]
  rw [addPipe_ftable, setFile_ftable, update_of_ne hne.symm, addPipe_ftable]
  obtain ⟨σ', hσ'⟩ : ∃ σ', σ' = ((σ.addPipe ⟨page, true, true⟩).setFile f0
    ((σ.ftable f0).setPipe false σ.npipes)).setFile f1 ((σ.ftable f1).setPipe true σ.npipes) := ⟨_, rfl⟩
  rw [← hσ']
  have hf1 : σ'.ftable f1 = (σ.ftable f1).setPipe true σ.npipes := by
    rw [hσ', setFile_ftable, update_self]
  have hf0 : σ'.ftable f0 = (σ.ftable f0).setPipe false σ.npipes := by
    rw [hσ', setFile_ftable, update_of_ne hne, setFile_ftable, update_self]
  have hother : ∀ g, g ≠ f0 → g ≠ f1 → σ'.ftable g = σ.ftable g := by
    intro g hg0 hg1
    rw [hσ', setFile_ftable, update_of_ne hg1, setFile_ftable, update_of_ne hg0,
      addPipe_ftable]
  have hpipe : σ'.pipe = update σ.pipe σ.npipes (some ⟨page, true, true⟩) := by
    rw [hσ', setFile_pipe, setFile_pipe, addPipe_pipe]
  have href : ∀ g, (σ'.ftable g).ref = (σ.ftable g).ref := by
    intro g
    rcases eq_or_ne g f1 with rfl | hg1
    · rw [hf1]
      rfl
    · rcases eq_or_ne g f0 with rfl | hg0
      · rw [hf0]
        rfl
      · rw [hother g hg0 hg1]
  -- The new files are the ends of the new pipe.
  have hend : ∀ g p w, (σ'.ftable g).IsEnd p w ↔
      (p = σ.npipes ∧ g = if w then f1 else f0) ∨ (σ.ftable g).IsEnd p w := by
    intro g p w
    rcases eq_or_ne g f1 with rfl | hg1
    · have hnot : ¬(σ.ftable g).IsEnd p w := fun he ↦ nomatch h1.symm.trans he.1
      rw [hf1]
      cases w with
      | true => exact ⟨fun he ↦ .inl ⟨he.2.1.symm, rfl⟩, fun he ↦
          ⟨rfl, (he.resolve_right hnot).1.symm, rfl⟩⟩
      | false => exact ⟨fun he ↦ (nomatch he.2.2), fun he ↦
          absurd (he.resolve_right hnot).2 hne.symm⟩
    · rcases eq_or_ne g f0 with rfl | hg0
      · have hnot : ¬(σ.ftable g).IsEnd p w := fun he ↦ nomatch h0.symm.trans he.1
        rw [hf0]
        cases w with
        | true => exact ⟨fun he ↦ (nomatch he.2.2), fun he ↦
            absurd (he.resolve_right hnot).2 hne⟩
        | false => exact ⟨fun he ↦ .inl ⟨he.2.1.symm, rfl⟩, fun he ↦
            ⟨rfl, (he.resolve_right hnot).1.symm, rfl⟩⟩
      · rw [hother g hg0 hg1]
        refine ⟨.inr, fun he ↦ he.resolve_left fun ⟨_, hg⟩ ↦ ?_⟩
        cases w with
        | true => exact hg1 hg
        | false => exact hg0 hg
  refine ⟨by rw [hσ']; exact ⟨rfl, rfl⟩, fun g ↦ ?_, fun g hg ↦ ?_, fun p hp ↦ ?_, ?_, fun p w ↦ ?_⟩
  · rw [href, h.refs, hσ']
    rfl
  · rw [href] at hg
    have hg1 : g ≠ f1 := fun he ↦ hr1 (he ▸ hg)
    have hg0 : g ≠ f0 := fun he ↦ hr0 (he ▸ hg)
    rw [hother g hg0 hg1]
    exact h.closed g hg
  · have hle : σ.npipes + 1 ≤ p := by
      rwa [hσ'] at hp
    rw [hpipe, update_of_ne (by omega)]
    exact h.made p (by omega)
  · intro g g' p w hg hg'
    rcases (hend g p w).1 hg with ⟨hp, heq⟩ | hold
    · rcases (hend g' p w).1 hg' with ⟨-, heq'⟩ | hold'
      · rw [heq, heq']
      · exact absurd (h.end_lt hold') (by omega)
    · rcases (hend g' p w).1 hg' with ⟨hp, -⟩ | hold'
      · exact absurd (h.end_lt hold) (by omega)
      · exact h.single hold hold'
  · have hiff : σ'.Open p w ↔ p = σ.npipes ∨ σ.Open p w := by
      rw [Open, hpipe]
      rcases eq_or_ne p σ.npipes with rfl | hp
      · rw [update_self]
        refine ⟨fun _ ↦ .inl rfl, fun _ ↦ ⟨_, rfl, ?_⟩⟩
        cases w <;> rfl
      · rw [update_of_ne hp]
        exact ⟨.inr, fun ho ↦ ho.resolve_left hp⟩
    rw [hiff, h.ends]
    constructor
    · intro ho
      rcases ho with rfl | ⟨g, hg⟩
      · exact ⟨_, (hend _ _ w).2 (.inl ⟨rfl, rfl⟩)⟩
      · exact ⟨g, (hend g p w).2 (.inr hg)⟩
    · intro ⟨g, hg⟩
      rcases (hend g p w).1 hg with ⟨hp, -⟩ | hg
      · exact .inl hp
      · exact .inr ⟨g, hg⟩

/-! ### System calls -/

/-- `pipealloc` gives out both ends or nothing. -/
theorem pipealloc_sat (h : Counted σ 0) : pipealloc.Sat σ (fun r σ' ↦ SameDesc σ σ' ∧
    (r = none → Counted σ' 0) ∧ ∀ f0 f1, r = some (f0, f1) → Counted σ' (one f0 + one f1))
      fun _ ↦ True := by
  rw [pipealloc]
  refine (filealloc_sat h).bind fun r σ₁ h₁ ↦ ?_
  obtain ⟨hsame₁, hnone₁, hsome₁⟩ := h₁
  cases r with
  | none =>
    obtain rfl := hnone₁ rfl
    exact ⟨hsame₁, fun _ ↦ h, nofun⟩
  | some f0 =>
    obtain ⟨-, hcount₁, href₁, htype₁, -⟩ := hsome₁ f0 rfl
    rw [zero_add] at hcount₁
    refine (filealloc_sat hcount₁).bind fun r σ₂ h₂ ↦ ?_
    obtain ⟨hsame₂, hnone₂, hsome₂⟩ := h₂
    cases r with
    | none =>
      obtain rfl := hnone₂ rfl
      refine (fileclose_sat hcount₁).bind fun _ σ₃ h₃ ↦ ?_
      rw [sub_self] at h₃
      exact ⟨⟨h₃.1.proc.trans hsame₁.proc, h₃.1.ofile.trans hsame₁.ofile⟩, fun _ ↦ h₃.2, nofun⟩
    | some f1 =>
      obtain ⟨hzero₂, hcount₂, href₂, htype₂, hother₂⟩ := hsome₂ f1 rfl
      have hne : f0 ≠ f1 := by
        rintro rfl
        omega
      have hsame : SameDesc σ σ₂ :=
        ⟨hsame₂.proc.trans hsame₁.proc, hsame₂.ofile.trans hsame₁.ofile⟩
      refine sat_bind.2 (sat_vm fun r m ↦ ?_)
      have hcount : Counted (σ₂.setTable (σ₂.table.setMem m)) (one f0 + one f1) := { hcount₂ with }
      cases r with
      | none =>
        refine (fileclose_sat (f := f0) hcount).bind fun _ σ₃ h₃ ↦ ?_
        rw [add_sub_cancel_left] at h₃
        refine (fileclose_sat (f := f1) h₃.2).bind fun _ σ₄ h₄ ↦ ?_
        rw [sub_self] at h₄
        exact ⟨⟨h₄.1.proc.trans (h₃.1.proc.trans hsame.proc),
          h₄.1.ofile.trans (h₃.1.ofile.trans hsame.ofile)⟩, fun _ ↦ h₄.2, nofun⟩
      | some page =>
        have hf0 : σ₂.ftable f0 = σ₁.ftable f0 := hother₂ f0 hne
        refine (makePipe_sat hcount hne ?_ htype₂ ?_ ?_).bind fun _ σ₃ h₃ ↦ ?_
        · rw [setTable_ftable, hf0]
          exact htype₁
        · rw [setTable_ftable, hf0, href₁]
          decide
        · rw [setTable_ftable, href₂]
          decide
        · refine ⟨⟨h₃.1.proc.trans hsame.proc, h₃.1.ofile.trans hsame.ofile⟩, nofun, ?_⟩
          rintro _ _ ⟨⟩
          exact h₃.2

theorem sysDup_sat (h : Counted σ 0) {fd : Fd} :
    (sysDup c fd).Sat σ (fun _ σ' ↦ Counted σ' 0 ∧ Kept c σ σ') fun _ ↦ True := by
  rw [sysDup, sat_get_bind]
  split
  · exact ⟨h, .refl c σ⟩
  next f hf =>
    refine (fdalloc_sat h).bind fun r σ₁ h₁ ↦ ?_
    obtain ⟨-, hkept, hnone, hsome⟩ := h₁
    cases r with
    | none =>
      obtain rfl := hnone rfl
      exact ⟨h, hkept⟩
    | some fd' =>
      refine (filedup_sat (hsome fd' rfl).1).bind fun _ σ₂ h₂ ↦ ?_
      rw [sub_add_cancel] at h₂
      exact ⟨h₂.2, hkept.trans (h₂.1.kept c)⟩

theorem sysClose_sat (h : Counted σ 0) {fd : Fd} :
    (sysClose c fd).Sat σ (fun _ σ' ↦ Counted σ' 0 ∧ Kept c σ σ') fun _ ↦ True := by
  rw [sysClose, sat_get_bind]
  split
  · exact ⟨h, .refl c σ⟩
  next f hf =>
    refine (fileclose_sat (h.clear hf)).bind fun _ σ₁ h₁ ↦ ?_
    rw [add_sub_cancel_right] at h₁
    exact ⟨h₁.2, (kept_setOfile σ c fd none).trans (h₁.1.kept c)⟩

theorem sysOpen_sat (h : Counted σ 0) {ip : Option ℕ} {readable writable : Bool} :
    (sysOpen c ip readable writable).Sat σ (fun _ σ' ↦ Counted σ' 0 ∧ Kept c σ σ') fun _ ↦ True := by
  cases ip with
  | none => exact ⟨h, .refl c σ⟩
  | some ip =>
    rw [sysOpen]
    refine (filealloc_sat h).bind fun r σ₁ h₁ ↦ ?_
    obtain ⟨hsame₁, hnone₁, hsome₁⟩ := h₁
    cases r with
    | none =>
      obtain rfl := hnone₁ rfl
      exact ⟨h, .refl c σ₁⟩
    | some f =>
      obtain ⟨-, hcount₁, href₁, htype₁, -⟩ := hsome₁ f rfl
      refine (fdalloc_sat hcount₁).bind fun r σ₂ h₂ ↦ ?_
      obtain ⟨hft, hkept, hnone₂, hsome₂⟩ := h₂
      cases r with
      | none =>
        obtain rfl := hnone₂ rfl
        refine (fileclose_sat hcount₁).bind fun _ σ₃ h₃ ↦ ?_
        rw [add_sub_cancel_right] at h₃
        exact ⟨h₃.2, (hsame₁.kept c).trans (h₃.1.kept c)⟩
      | some fd =>
        have hcount₂ := (hsome₂ fd rfl).1
        rw [add_sub_cancel_right] at hcount₂
        rw [← hft] at href₁ htype₁
        refine ⟨hcount₂.setFile ?_ (fun p w ↦ ?_) (hcount₂.refs f) fun _ _ ↦ rfl,
          ((hsame₁.kept c).trans hkept).trans ⟨rfl, fun _ _ _ ↦ rfl⟩⟩
        · exact fun h0 ↦ absurd (href₁.symm.trans h0) one_ne_zero
        · exact ⟨fun he ↦ (nomatch he.1), fun he ↦ nomatch htype₁.symm.trans he.1⟩

theorem sysPipe_sat (h : Counted σ 0) :
    (sysPipe c).Sat σ (fun _ σ' ↦ Counted σ' 0 ∧ Kept c σ σ') fun _ ↦ True := by
  rw [sysPipe]
  refine (pipealloc_sat h).bind fun r σ₁ h₁ ↦ ?_
  obtain ⟨hsame₁, hnone₁, hsome₁⟩ := h₁
  cases r with
  | none => exact ⟨hnone₁ rfl, hsame₁.kept c⟩
  | some fs =>
    obtain ⟨rf, wf⟩ := fs
    have hcount₁ := hsome₁ rf wf rfl
    -- Closing both files is right wherever they are still held.
    have hclose : ∀ σ₂, Counted σ₂ (one rf + one wf) → Kept c σ σ₂ →
        (do fileclose rf; fileclose wf; return -1 : Desc ℤ).Sat σ₂
          (fun _ σ' ↦ Counted σ' 0 ∧ Kept c σ σ') fun _ ↦ True := by
      intro σ₂ hcount₂ hkept₂
      refine (fileclose_sat (f := rf) hcount₂).bind fun _ σ₃ h₃ ↦ ?_
      rw [add_sub_cancel_left] at h₃
      refine (fileclose_sat (f := wf) h₃.2).bind fun _ σ₄ h₄ ↦ ?_
      rw [sub_self] at h₄
      exact ⟨h₄.2, (hkept₂.trans (h₃.1.kept c)).trans (h₄.1.kept c)⟩
    refine (fdalloc_sat hcount₁).bind fun r σ₂ h₂ ↦ ?_
    obtain ⟨-, hkept₂, hnone₂, hsome₂⟩ := h₂
    cases r with
    | none =>
      obtain rfl := hnone₂ rfl
      exact hclose σ₂ hcount₁ (hsame₁.kept c)
    | some fd0 =>
      obtain ⟨hcount₂, hfd0⟩ := hsome₂ fd0 rfl
      rw [add_sub_cancel_left] at hcount₂
      refine (fdalloc_sat hcount₂).bind fun r σ₃ h₃ ↦ ?_
      obtain ⟨-, hkept₃, hnone₃, hsome₃⟩ := h₃
      cases r with
      | none =>
        obtain rfl := hnone₃ rfl
        refine hclose _ ?_ (((hsame₁.kept c).trans hkept₂).trans (kept_setOfile σ₃ c fd0 none))
        rw [add_comm]
        exact hcount₂.clear hfd0
      | some fd1 =>
        have hcount₃ := (hsome₃ fd1 rfl).1
        rw [sub_self] at hcount₃
        exact ⟨hcount₃, ((hsame₁.kept c).trans hkept₂).trans hkept₃⟩

/-! ### `exit`, `thread_exit`, `fork` and `thread_create` -/

/-- `exit` closes all files of the process. -/
theorem closeFiles_sat (h : Counted σ 0) : (closeFiles c).Sat σ (fun _ σ' ↦
    Counted σ' 0 ∧ Kept c σ σ' ∧ ∀ fd, σ'.ofile (c, fd) = none) fun _ ↦ True := by
  -- The descriptors that are no longer to come are closed.
  refine (Sat.forEach (P := fun (l : List Fd) (σ' : Files) ↦ Counted σ' 0 ∧ Kept c σ σ' ∧
    ∀ fd, fd ∉ l → σ'.ofile (c, fd) = none) ?_ ?_).imp ?_
  · exact ⟨h, .refl c σ, fun fd hfd ↦ absurd (List.mem_finRange fd) hfd⟩
  · intro fd l σ₁ hpost
    obtain ⟨hcount, hkept, hnone⟩ := hpost
    rw [sat_get_bind]
    split
    next hfd =>
      refine ⟨hcount, hkept, fun fd' hfd' ↦ ?_⟩
      rcases eq_or_ne fd' fd with rfl | hne
      · exact hfd
      · exact hnone fd' (List.not_mem_cons_of_ne_of_not_mem hne hfd')
    next f hfd =>
      refine (fileclose_sat hcount).bind fun _ σ₂ h₂ ↦ ?_
      obtain ⟨hsame, hcount₂⟩ := h₂
      rw [← hsame.ofile] at hfd
      have hcount₃ := hcount₂.clear hfd
      rw [sub_add_cancel] at hcount₃
      refine ⟨hcount₃, (hkept.trans (hsame.kept c)).trans (kept_setOfile σ₂ c fd none), ?_⟩
      intro fd' hfd'
      rw [setOfile_ofile]
      rcases eq_or_ne fd' fd with rfl | hne
      · exact update_self ..
      · rw [update_of_ne fun heq ↦ hne (congrArg Prod.snd heq), hsame.ofile]
        exact hnone fd' (List.not_mem_cons_of_ne_of_not_mem hne hfd')
  · intro _ σ' hpost
    obtain ⟨hcount, hkept, hnone⟩ := hpost
    exact ⟨hcount, hkept, fun fd ↦ hnone fd List.not_mem_nil⟩

/-- `fork` gives the child the files of the parent. -/
theorem dupFiles_sat {np : Slot} (h : Counted σ 0) (hnp : ∀ fd, σ.ofile (np, fd) = none) :
    (dupFiles c np).Sat σ (fun _ σ' ↦ Counted σ' 0 ∧ Kept np σ σ') fun _ ↦ True := by
  -- The descriptors still to come are free.
  refine (Sat.forEach (P := fun (l : List Fd) (σ' : Files) ↦ l.Nodup ∧ Counted σ' 0 ∧
    Kept np σ σ' ∧ ∀ fd ∈ l, σ'.ofile (np, fd) = none) ?_ ?_).imp ?_
  · exact ⟨List.nodup_finRange _, h, .refl np σ, fun fd _ ↦ hnp fd⟩
  · intro fd l σ₁ hpost
    obtain ⟨hnodup, hcount, hkept, hnone⟩ := hpost
    rw [List.nodup_cons] at hnodup
    rw [sat_get_bind]
    split
    · exact ⟨hnodup.2, hcount, hkept, fun fd' hfd' ↦ hnone fd' (List.mem_cons_of_mem _ hfd')⟩
    next f hf =>
      refine (filedup_sat hcount).bind fun _ σ₂ h₂ ↦ ?_
      obtain ⟨hsame, hcount₂⟩ := h₂
      have hfree : σ₂.ofile (np, fd) = none := by
        rw [hsame.ofile]
        exact hnone fd List.mem_cons_self
      have hcount₃ := hcount₂.set (f := f) hfree
      rw [add_sub_cancel_right] at hcount₃
      refine ⟨hnodup.2, hcount₃, (hkept.trans (hsame.kept np)).trans
        (kept_setOfile σ₂ np fd (some f)), fun fd' hfd' ↦ ?_⟩
      have hne : fd' ≠ fd := by
        rintro rfl
        exact hnodup.1 hfd'
      rw [setOfile_ofile, update_of_ne fun heq ↦ hne (congrArg Prod.snd heq), hsame.ofile]
      exact hnone fd' (List.mem_cons_of_mem _ hfd')
  · intro _ σ' hpost
    obtain ⟨_, hcount, hkept, _⟩ := hpost
    exact ⟨hcount, hkept⟩

/-- Files are accounted for, and only those who are alive have descriptors. -/
structure Inv (σ : Files) : Prop where
  counted : Counted σ 0
  clean : ∀ k fd, ¬σ.table.Alive k → σ.ofile (k, fd) = none

/-- A call of a process that is alive keeps the accounts. -/
theorem Inv.kept (h : Inv σ) (hcount : Counted σ' 0) (hkept : Kept c σ σ') (hc : σ.table.Alive c) :
    Inv σ' := by
  have halive : ∀ k, σ'.table.Alive k ↔ σ.table.Alive k := by
    intro k
    rw [Ptable.Alive, Ptable.Alive, hkept.proc]
  refine ⟨hcount, fun k fd hk ↦ ?_⟩
  rw [halive] at hk
  have hne : k ≠ c := by
    rintro rfl
    exact hk hc
  rw [hkept.other k fd hne]
  exact h.clean k fd hk

/-- A call on the process table keeps the account if those who are ended by it have no descriptors. -/
theorem onTable_sat (h : Inv σ) (hmay : σ.table.MayCall c)
    (hdone : ∀ k, σ.table.Alive k → σ.table.Ends c a k → ∀ fd, σ.ofile (k, fd) = none) :
    (onTable c a).Sat σ (fun r σ' ↦ ∀ x, r = some x → Inv σ' ∧ σ'.ofile = σ.ofile) fun _ ↦ True := by
  rw [Sat, onTable]
  dsimp only
  split
  next r σ' hrun =>
    split at hrun
    next r' t hcall =>
      obtain ⟨rfl, rfl⟩ := Prod.mk.inj (Except.ok.inj hrun)
      intro x hx
      have heffect := (Ptable.call_effect hmay.used).of_ok hcall x hx
      refine ⟨⟨⟨h.counted.refs, h.counted.closed, h.counted.made, h.counted.single,
        h.counted.ends⟩, fun k fd hk ↦ ?_⟩, rfl⟩
      by_cases halive : σ.table.Alive k
      · by_cases hends : σ.table.Ends c a k
        · exact hdone k halive hends fd
        · exact absurd ((heffect.fate hmay.used k).alive_after halive hends).1 hk
      · exact h.clean k fd halive
    · cases hrun
  · trivial

/-- Before a call ends its caller, the descriptors of the caller are closed. -/
theorem closeBefore_sat (h : Inv σ) (hmay : σ.table.MayCall c) (hends : σ.table.EndsOnlyItself c a) :
    (closeBefore c a).Sat σ (fun _ σ' ↦ Inv σ' ∧ σ'.table.MayCall c ∧
      ∀ k, σ'.table.Alive k → σ'.table.Ends c a k → ∀ fd, σ'.ofile (k, fd) = none) fun _ ↦ True := by
  have hclose : (∀ s : Ptable, s.proc = σ.table.proc → ∀ k, s.Ends c a k → σ.table.Ends c a k) →
      (closeFiles c).Sat σ (fun _ σ' ↦ Inv σ' ∧ σ'.table.MayCall c ∧
        ∀ k, σ'.table.Alive k → σ'.table.Ends c a k → ∀ fd, σ'.ofile (k, fd) = none)
        fun _ ↦ True := by
    intro hproc
    refine (closeFiles_sat h.counted).imp fun _ σ' hσ' ↦ ?_
    obtain ⟨hcount, hkept, hnone⟩ := hσ'
    refine ⟨h.kept hcount hkept hmay.alive, ?_, fun k halive hk fd ↦ ?_⟩
    · rwa [Ptable.MayCall, hkept.proc]
    · rw [Ptable.Alive, hkept.proc] at halive
      obtain ⟨rfl, -⟩ := hends k halive (hproc σ'.table hkept.proc k hk)
      exact hnone fd
  cases a with
  | exit =>
    refine hclose fun s hs k hk ↦ ?_
    rwa [Ptable.Ends, Ptable.EndedBy, hs] at hk
  | threadExit v => exact hclose fun s hs k hk ↦ hk
  | wait => exact ⟨h, hmay, fun k halive hk ↦ absurd rfl (hends k halive hk).2⟩
  | fork | kill pid | sbrk n | exec prog | threadCreate | threadJoin thread => exact ⟨h, hmay, fun _ _ hk ↦ hk.elim⟩

/-- So does a call on the process table that ends nobody else. -/
theorem procCall_sat (h : Inv σ) (hmay : σ.table.MayCall c) (hends : σ.table.EndsOnlyItself c a) :
    (procCall c a).Sat σ (fun r σ' ↦ ∀ x, r = some x → Inv σ') fun _ ↦ True := by
  rw [procCall]
  refine (closeBefore_sat h hmay hends).bind fun _ σ₁ h₁ ↦ ?_
  obtain ⟨hinv₁, hmay₁, hdone₁⟩ := h₁
  refine (onTable_sat hinv₁ hmay₁ hdone₁).bind fun r σ₂ h₂ ↦ ?_
  cases r with
  | none => exact sat_bind.2 ((sat_true _ _).imp fun _ _ _ ↦ nofun)
  | some x =>
    obtain ⟨hinv₂, hofile⟩ := h₂ x rfl
    cases hfree : σ₁.table.freeSlot with
    | none => exact fun _ _ ↦ hinv₂
    | some np =>
      rw [dupAfter, sat_bind, sat_get_bind]
      split
      next hnew =>
        refine (dupFiles_sat hinv₂.counted fun fd ↦ ?_).imp fun _ σ₃ h₃ ↦ ?_
        · rw [hofile]
          exact hinv₁.clean np fd fun halive ↦ halive.1 (Ptable.unused_of_freeSlot hfree)
        · exact fun _ _ ↦ hinv₂.kept h₃.1 h₃.2 ⟨by rw [hnew.2]; nofun, by rw [hnew.2]; nofun⟩
      · exact fun _ _ ↦ hinv₂

/-! ### Runs -/

/-- The call ends nobody else who is alive. -/
def Orderly (σ : Files) : Slot × FileOp → Prop
  | (c, .call a) => σ.table.EndsOnlyItself c a
  | _ => True

instance (σ : Files) : ∀ l, Decidable (σ.Orderly l)
  | (c, .call a) => inferInstanceAs (Decidable (σ.table.EndsOnlyItself c a))
  | (_, .openFile _ _ _) | (_, .pipe) | (_, .dup _) | (_, .close _) => .isTrue trivial

/-- The open files are accounted for. -/
structure Accounted (σ : Files) : Prop where
  /-- The reference count of a file is the number of descriptors of slots in use that name it. -/
  refs : ∀ f, (σ.ftable f).ref = ((Finset.univ.filter fun i : Slot × Fd ↦
    (σ.table.proc i.1).state ≠ .UNUSED ∧ σ.ofile i = some f).card : ℤ)
  unused : ∀ k fd, (σ.table.proc k).state = .UNUSED → σ.ofile (k, fd) = none
  /-- An end of a pipe is open as long as a slot in use has a descriptor for it. -/
  pipes : ∀ p w, σ.Open p w ↔ ∃ k fd f, (σ.table.proc k).state ≠ .UNUSED ∧
    σ.ofile (k, fd) = some f ∧ (σ.ftable f).IsEnd p w

theorem Inv.accounted (h : Inv σ) : Accounted σ := by
  have hused : ∀ i : Slot × Fd, ∀ f, σ.ofile i = some f → (σ.table.proc i.1).state ≠ .UNUSED := by
    intro i f hi hunused
    have hnone := h.clean i.1 i.2 fun halive ↦ halive.1 hunused
    cases hnone.symm.trans hi
  refine ⟨fun f ↦ ?_, fun k fd hk ↦ h.clean k fd fun halive ↦ halive.1 hk, fun p w ↦ ?_⟩
  · rw [h.counted.refs f, Pi.zero_apply, add_zero, count]
    refine congrArg (fun s : Finset (Slot × Fd) ↦ (s.card : ℤ)) (Finset.filter_congr fun i _ ↦ ?_)
    exact ⟨fun hi ↦ ⟨hused i f hi, hi⟩, And.right⟩
  · rw [h.counted.ends]
    constructor
    · intro hpost
      obtain ⟨f, hf⟩ := hpost
      -- A file that is an end of a pipe has a reference, and so a descriptor.
      have hpos : 0 < count σ.ofile f := by
        have href := h.counted.refs f
        rw [Pi.zero_apply, add_zero] at href
        refine lt_of_le_of_ne count_nonneg fun h0 ↦ ?_
        cases (h.counted.closed f (href.trans h0.symm)).symm.trans hf.1
      obtain ⟨i, hi⟩ := count_pos.1 hpos
      exact ⟨i.1, i.2, f, hused i f hi, hi, hf⟩
    · intro hpost
      obtain ⟨k, fd, f, _, _, hf⟩ := hpost
      exact ⟨f, hf⟩

/-- An orderly system call keeps the account. -/
theorem Inv.step {l : Slot × FileOp} (h : Inv σ) (hord : σ.Orderly l)
    (hstep : σ.step l = some (.ok σ')) : Inv σ' := by
  obtain ⟨c, op⟩ := l
  rw [Files.step] at hstep
  split at hstep
  next hmay =>
    have hsat : (run c op).Sat σ (fun r σ' ↦ ∀ x, r = some x → Inv σ') fun _ ↦ True := by
      cases op with
      | openFile ip readable writable =>
        refine sat_bind.2 ((sysOpen_sat h.counted).imp fun _ σ₁ h₁ ↦ ?_)
        exact fun _ _ ↦ h.kept h₁.1 h₁.2 (Ptable.MayCall.alive hmay)
      | pipe =>
        refine sat_bind.2 ((sysPipe_sat h.counted).imp fun _ σ₁ h₁ ↦ ?_)
        exact fun _ _ ↦ h.kept h₁.1 h₁.2 (Ptable.MayCall.alive hmay)
      | dup fd =>
        refine sat_bind.2 ((sysDup_sat h.counted).imp fun _ σ₁ h₁ ↦ ?_)
        exact fun _ _ ↦ h.kept h₁.1 h₁.2 (Ptable.MayCall.alive hmay)
      | close fd =>
        refine sat_bind.2 ((sysClose_sat h.counted).imp fun _ σ₁ h₁ ↦ ?_)
        exact fun _ _ ↦ h.kept h₁.1 h₁.2 (Ptable.MayCall.alive hmay)
      | call a => exact procCall_sat h hmay hord
    split at hstep
    next x τ hrun =>
      obtain rfl := Except.ok.inj (Option.some.inj hstep)
      exact hsat.of_ok hrun x rfl
    · cases hstep
    · cases Option.some.inj hstep
  · cases hstep

/-- No file is open after the boot. -/
theorem start_inv (s : Ptable) : Inv (start s) := by
  refine ⟨⟨fun f ↦ ?_, fun _ _ ↦ rfl, fun _ _ ↦ rfl, fun hf ↦ (nomatch hf.1), fun p w ↦ ?_⟩,
    fun _ _ _ ↦ rfl⟩
  · have hzero : ¬0 < count (start s).ofile f := by
      rw [count_pos]
      exact nofun
    have hnonneg := count_nonneg (e := (start s).ofile) (a := f)
    show 0 = count (start s).ofile f + 0
    omega
  · constructor
    · intro ⟨q, hq, _⟩
      cases hq
    · intro ⟨f, hf⟩
      cases hf.1

/-- **Open files are accounted for.** In every run of `open`, `pipe`, `dup`, `close` and the calls on processes
and threads, each orderly, after every call the reference count of each file is the number of
descriptors for it, free slots have no descriptors, and an end of a pipe is open exactly as long as
there is a descriptor for it. -/
theorem files_accounted {s : Ptable} {ls : List (Slot × FileOp)}
    (hrun : Machine.Run (Machine.guarded Orderly step) (start s) ls σ) : Accounted σ := by
  refine (hrun.invariant (P := Inv) (start_inv s) ?_).accounted
  intro τ τ' l hinv hstep
  obtain ⟨hord, hstep⟩ := Machine.guarded_eq_some.1 hstep
  exact hinv.step hord hstep

/-- A child makes a pipe and a thread, the thread closes the write end and exits, and then the child
exits: its end goes with it. -/
theorem files_accounted_pipe : ∃ freelist s ls σ, Ptable.boot freelist = .ok s ∧
    Machine.Run (Machine.guarded Orderly step) (start s) ls σ ∧
      ls = [(0, .call .fork), (1, .pipe), (1, .call .threadCreate), (2, .close 1),
        (2, .call (.threadExit 0)), (1, .call (.threadJoin 0)), (1, .call .exit), (0, .call .wait)] ∧
      σ.npipes = 1 ∧ σ.pipe 0 = none ∧ Accounted σ :=
  Ptable.exists_boot_run_of (List.range' 1 300) _ (fun σ ↦ σ.npipes = 1 ∧ σ.pipe 0 = none) (by decide +kernel)
    fun s σ _ hrun hσ ↦ ⟨rfl, hσ.1, hσ.2, files_accounted hrun⟩

/-- A child makes a pipe and a thread, exits while the thread is alive, and is reaped: the slot of the
thread is free and still has descriptors, and the pipe stays open. -/
theorem exit_keeps_files : ∃ freelist s ls σ, Ptable.boot freelist = .ok s ∧
    Machine.Run step (start s) ls σ ∧
      ls = [(0, .call .fork), (1, .pipe), (1, .call .threadCreate), (1, .call .exit),
        (0, .call .wait)] ∧
      (σ.table.proc 2).state = .UNUSED ∧ σ.ofile (2, 0) = some 0 ∧ (σ.ftable 0).ref = 1 ∧
      ¬Accounted σ := by
  refine Ptable.exists_boot_run_of (List.range' 1 300) _ (fun σ ↦ (σ.table.proc 2).state = .UNUSED ∧
    σ.ofile (2, 0) = some 0 ∧ (σ.ftable 0).ref = 1) (by decide +kernel) fun s σ _ _ hσ ↦
      ⟨rfl, hσ.1, hσ.2.1, hσ.2.2, fun h ↦ ?_⟩
  cases (h.unused 2 0 hσ.1).symm.trans hσ.2.1

end Held

end Files

end Xv6
