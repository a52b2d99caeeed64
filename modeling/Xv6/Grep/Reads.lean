import Mathlib.Data.List.TakeWhile
import Xv6.Grep.Match

/-!
# How `grep` reads

The function `grep` of `grep.c`, on the results of its `read` calls. The buffer is the list of its `m` bytes; as
there is no NUL in the input, `strchr` looks through all of them. What is behind the last newline is kept for the
next turn of the loop, but if there was no newline then nothing is kept. So a `read` that ends no line loses the
bytes of that line (`grep_prints_iff`).
-/

namespace Xv6

namespace Grep

/-- `sizeof(buf)`. -/
def BUFSIZE : ℕ := 1024

/-- The inner loop, from `p` on: what is written, and the bytes from the last `p` on. -/
def scan (pattern : List UInt8) (p : List UInt8) : List UInt8 × List UInt8 :=
  match _h : p.dropWhile (· ≠ ch '\n') with
  | [] => ([], p)
  | q :: rest =>
    let line := p.takeWhile (· ≠ ch '\n')
    let out := scan pattern rest
    ((if isMatch pattern line then line ++ [q] else []) ++ out.1, out.2)
termination_by p.length
decreasing_by
  have hle := (List.dropWhile_suffix (· ≠ ch '\n') (l := p)).length_le
  rw [_h, List.length_cons] at hle
  omega

/-- What `grep` writes, when there is `buf` in the buffer and the next calls of `read` give `reads`. -/
def grep (pattern : List UInt8) : List UInt8 → List (List UInt8) → List UInt8
  | _, [] => []
  | buf, n :: reads =>
    let out := scan pattern (buf ++ n)
    -- `if(p == buf) m = 0;`
    let buf' := if out.2.length = (buf ++ n).length then [] else out.2
    out.1 ++ grep pattern buf' reads

/-- Lines, each with its newline. -/
def unlines (ls : List (List UInt8)) : List UInt8 := ls.flatMap (· ++ [ch '\n'])

section

variable {pattern p x l buf : List UInt8} {ls reads : List (List UInt8)}

theorem unlines_cons : unlines (l :: ls) = l ++ ch '\n' :: unlines ls := by
  rw [unlines, List.flatMap_cons, List.append_assoc]
  rfl

theorem scan_of_notMem (h : ch '\n' ∉ p) : scan pattern p = ([], p) := by
  have hnil : p.dropWhile (· ≠ ch '\n') = [] := by
    exact List.dropWhile_eq_nil_iff.2 fun c hc ↦ decide_eq_true fun heq ↦ h (heq ▸ hc)
  rw [scan]
  split
  · rfl
  next q rest heq => cases hnil.symm.trans heq

/-- The inner loop on a line. -/
theorem scan_line (h : ch '\n' ∉ l) : scan pattern (l ++ ch '\n' :: p) =
    ((if isMatch pattern l then l ++ [ch '\n'] else []) ++ (scan pattern p).1, (scan pattern p).2) := by
  have hall : ∀ c ∈ l, decide (c ≠ ch '\n') = true := fun c hc ↦ decide_eq_true fun heq ↦ h (heq ▸ hc)
  have hdrop : (l ++ ch '\n' :: p).dropWhile (· ≠ ch '\n') = ch '\n' :: p := by
    rw [List.dropWhile_append_of_pos hall, List.dropWhile_cons_of_neg (by simp)]
  have htake : (l ++ ch '\n' :: p).takeWhile (· ≠ ch '\n') = l := by
    rw [List.takeWhile_append_of_pos hall, List.takeWhile_cons_of_neg (by simp), List.append_nil]
  rw [scan]
  split
  next heq => cases hdrop.symm.trans heq
  next q rest heq =>
    obtain ⟨rfl, rfl⟩ := List.cons.inj (hdrop.symm.trans heq)
    rw [htake]

/-- The lines that end in the buffer are dealt with, and what is left begins the next line. -/
theorem exists_scan (pattern : List UInt8) (hls : ∀ l ∈ ls, ch '\n' ∉ l) (h : p ++ x = unlines ls) :
    ∃ ls₁ ls₂ rest, ls = ls₁ ++ ls₂ ∧ p = unlines ls₁ ++ rest ∧ ch '\n' ∉ rest ∧ rest ++ x = unlines ls₂ ∧
      scan pattern p = (unlines (ls₁.filter (isMatch pattern)), rest) := by
  induction ls generalizing p with
  | nil =>
    obtain ⟨rfl, rfl⟩ := List.append_eq_nil_iff.1 h
    exact ⟨[], [], [], rfl, rfl, List.not_mem_nil, rfl, scan_of_notMem List.not_mem_nil⟩
  | cons l ls ih =>
    by_cases hp : ch '\n' ∈ p
    · -- The first newline ends the first line.
      have hl := hls l List.mem_cons_self
      rw [unlines_cons] at h
      obtain ⟨p', rfl, h'⟩ : ∃ p', p = l ++ ch '\n' :: p' ∧ p' ++ x = unlines ls := by
        rcases List.append_eq_append_iff.1 h with ⟨a, rfl, -⟩ | ⟨a, rfl, ha⟩
        · exact absurd (List.mem_append_left _ hp) hl
        · cases a with
          | nil => exact absurd (List.append_nil l ▸ hp) hl
          | cons c p' =>
            obtain ⟨rfl, h'⟩ := List.cons.inj ha
            exact ⟨p', rfl, h'.symm⟩
      obtain ⟨ls₁, ls₂, rest, hsplit, hp', hrest, hx, hscan⟩ := ih (fun l hl ↦ hls l (List.mem_cons_of_mem _ hl)) h'
      refine ⟨l :: ls₁, ls₂, rest, by rw [hsplit]; rfl, ?_, hrest, hx, ?_⟩
      · rw [unlines_cons, List.append_assoc, hp']
        rfl
      · rw [scan_line hl, hscan, List.filter_cons]
        split
        · rw [unlines_cons, List.append_assoc]; rfl
        · rfl
    · exact ⟨[], l :: ls, p, rfl, rfl, hp, h, scan_of_notMem hp⟩

/-- If every `read` ends a line, then what is kept begins the next line. -/
theorem grep_eq (hls : ∀ l ∈ ls, ch '\n' ∉ l) (hreads : ∀ n ∈ reads, ch '\n' ∈ n) (hbuf : ch '\n' ∉ buf)
    (h : buf ++ reads.flatten = unlines ls) :
    grep pattern buf reads = unlines (ls.filter (isMatch pattern)) := by
  induction reads generalizing buf ls with
  | nil =>
    rw [List.flatten_nil, List.append_nil] at h
    cases ls with
    | nil => rfl
    | cons l ls => exact absurd (by rw [h, unlines_cons]; simp) hbuf
  | cons n reads ih =>
    rw [List.flatten_cons, ← List.append_assoc] at h
    obtain ⟨ls₁, ls₂, rest, rfl, hp, hrest, hx, hscan⟩ := exists_scan pattern hls h
    have hne : rest.length ≠ (buf ++ n).length := by
      intro heq
      have hrest' : rest = buf ++ n := List.IsSuffix.eq_of_length ⟨_, hp.symm⟩ heq
      exact hrest (hrest' ▸ List.mem_append_right _ (hreads n List.mem_cons_self))
    rw [grep, hscan]
    rw [if_neg hne, ih (fun l hl ↦ hls l (List.mem_append_right _ hl))
      (fun n hn ↦ hreads n (List.mem_cons_of_mem _ hn)) hrest hx, List.filter_append, unlines, unlines, unlines,
      List.flatMap_append]

theorem isMatch_nil : isMatch [] l = true := by cases l <;> rfl

/-- With the empty pattern, which matches every line, the inner loop loses nothing. -/
theorem length_scan : (scan [] p).1.length + (scan [] p).2.length = p.length ∧ ch '\n' ∉ (scan [] p).2 := by
  induction p using scan.induct [] with
  | case1 p hnil =>
    have hp : ch '\n' ∉ p := fun h ↦ of_decide_eq_true (List.dropWhile_eq_nil_iff.1 hnil _ h) rfl
    rw [scan_of_notMem hp]
    exact ⟨Nat.zero_add _, hp⟩
  | case2 p q rest hrest ih =>
    have hlen := congrArg List.length (List.takeWhile_append_dropWhile (p := (· ≠ ch '\n')) (l := p))
    rw [scan]
    split
    next heq => cases hrest.symm.trans heq
    next q' rest' heq =>
      obtain ⟨rfl, rfl⟩ := List.cons.inj (hrest.symm.trans heq)
      dsimp only
      rw [if_pos isMatch_nil]
      refine ⟨?_, ih.2⟩
      rw [hrest, List.length_append, List.length_cons] at hlen
      rw [List.length_append, List.length_append, List.length_singleton]
      omega

/-- The whole loop writes no more than there is to read, and less if a `read` ends no line. -/
theorem length_grep (hbuf : ch '\n' ∉ buf) : (grep [] buf reads).length ≤ buf.length + reads.flatten.length ∧
    ((∃ n ∈ reads, n ≠ [] ∧ ch '\n' ∉ n) → (grep [] buf reads).length < buf.length + reads.flatten.length) := by
  induction reads generalizing buf with
  | nil => exact ⟨Nat.zero_le _, fun ⟨n, hn, _⟩ ↦ nomatch hn⟩
  | cons n reads ih =>
    obtain ⟨hlen, hrest⟩ := length_scan (p := buf ++ n)
    rw [List.length_append] at hlen
    rw [grep, List.flatten_cons, List.length_append, List.length_append, List.length_append]
    split
    next h =>
      obtain ⟨hle, hlt⟩ := ih List.not_mem_nil
      rw [List.length_nil] at hle hlt
      refine ⟨by omega, fun ⟨n', hn', hne, hnl⟩ ↦ ?_⟩
      rcases List.mem_cons.1 hn' with rfl | hn'
      · have := List.length_pos_of_ne_nil hne
        omega
      · have := hlt ⟨n', hn', hne, hnl⟩
        omega
    next h =>
      obtain ⟨hle, hlt⟩ := ih hrest
      refine ⟨by omega, fun ⟨n', hn', hne, hnl⟩ ↦ ?_⟩
      rcases List.mem_cons.1 hn' with rfl | hn'
      · -- Without a newline everything would be left.
        rw [scan_of_notMem fun h ↦ (List.mem_append.1 h).elim hbuf hnl] at h
        exact absurd (List.length_append ..) h
      · have := hlt ⟨n', hn', hne, hnl⟩
        omega

end

/-- **What `grep` writes depends on the reads.** It writes the lines that match, whatever the pattern is, exactly if
every `read` ends a line. -/
theorem grep_prints_iff {ls reads : List (List UInt8)}
    (hls : ∀ l ∈ ls, ch '\n' ∉ l ∧ 0 ∉ l ∧ l.length + 1 < BUFSIZE)
    (hreads : ∀ n ∈ reads, n ≠ [] ∧ n.length < BUFSIZE) (h : reads.flatten = unlines ls) :
    (∀ pattern, grep pattern [] reads = unlines (ls.filter (isMatch pattern))) ↔
      ∀ n ∈ reads, ch '\n' ∈ n := by
  refine ⟨fun hall n hn ↦ ?_, fun hnl pattern ↦ grep_eq (fun l hl ↦ (hls l hl).1) hnl List.not_mem_nil h⟩
  by_contra hnot
  have hlt := (length_grep List.not_mem_nil).2 ⟨n, hn, (hreads n hn).1, hnot⟩
  rw [hall, List.filter_eq_self.2 fun l _ ↦ isMatch_nil, h, List.length_nil, Nat.zero_add] at hlt
  exact Nat.lt_irrefl _ hlt

/-- Two lines, each in a read of its own. -/
theorem grep_prints_iff_twoLines : grep [ch 'b'] [] [[ch 'a', ch '\n'], [ch 'b', ch '\n']] = [ch 'b', ch '\n'] :=
  (@grep_prints_iff [[ch 'a'], [ch 'b']] [[ch 'a', ch '\n'], [ch 'b', ch '\n']] (by decide) (by decide) rfl).2
    (by decide) [ch 'b']

/-- A line in two reads: its first byte is lost. -/
theorem grep_loses_byte : grep [] [] [[ch 'a', ch 'b', ch '\n']] = [ch 'a', ch 'b', ch '\n'] ∧
    grep [] [] [[ch 'a'], [ch 'b', ch '\n']] = [ch 'b', ch '\n'] := by
  decide +kernel

end Grep

end Xv6
