import Xv6.Sh.Basic
import Mathlib.Data.List.TakeWhile

/-!
# The tokens of a line

`tokens` is the sequence of tokens of a string: words are maximal, and so is `>>`. The parser looks at the
line only through `peek` and `gettoken`, and these are described here in terms of the tokens that are left
(`peek_eq`, `gettoken_cons`, `gettoken_nil`).
-/

namespace Xv6

namespace Sh

/-- A token. -/
inductive Tok where
  /-- `|` -/
  | bar
  /-- `(` -/
  | lparen
  /-- `)` -/
  | rparen
  /-- `;` -/
  | semi
  /-- `&` -/
  | amp
  /-- `<` -/
  | lt
  /-- `>` -/
  | gt
  /-- `>>` -/
  | append
  /-- A word. -/
  | word (w : List UInt8)
  deriving DecidableEq

/-- The token that is one symbol. -/
def symbol (c : UInt8) : Option Tok :=
  if c = ch '|' then some .bar
  else if c = ch '(' then some .lparen
  else if c = ch ')' then some .rparen
  else if c = ch ';' then some .semi
  else if c = ch '&' then some .amp
  else if c = ch '<' then some .lt
  else if c = ch '>' then some .gt
  else none

/-- The tokens of a string. -/
def tokens : List UInt8 → List Tok
  | [] => []
  | c :: s =>
    if strchr whitespace c then
      tokens s
    else if c = ch '>' ∧ s.head? = some (ch '>') then
      .append :: tokens s.tail
    else
      match symbol c with
      | some t => t :: tokens s
      | none => .word (c :: s.takeWhile wordChar) :: tokens (s.dropWhile wordChar)
termination_by s => s.length
decreasing_by
  · exact Nat.lt_succ_self _
  · exact Nat.lt_succ_of_le (List.length_tail ▸ Nat.sub_le _ _)
  · exact Nat.lt_succ_self _
  · exact Nat.lt_succ_of_le (List.length_dropWhile_le _ s)

/-- What `gettoken` returns for a token. -/
def Tok.code : Tok → UInt8
  | .bar => ch '|'
  | .lparen => ch '('
  | .rparen => ch ')'
  | .semi => ch ';'
  | .amp => ch '&'
  | .lt => ch '<'
  | .gt => ch '>'
  | .append => ch '+'
  | .word _ => ch 'a'

/-- The symbol that a token begins with. -/
def Tok.first : Tok → Option UInt8
  | .append => some (ch '>')
  | .word _ => none
  | t => some t.code

/-- The next token begins with one of these symbols. -/
def startsWith (toks : List Char) : List Tok → Bool
  | [] => false
  | t :: _ => t.first.any fun c ↦ strchr (toks.map ch) c

/-- A maximal word of the line, and its text. -/
structure IsWord (s : List UInt8) (x : Slice) (w : List UInt8) : Prop where
  ne_nil : w ≠ []
  chars : ∀ c ∈ w, wordChar c = true
  drop : s.drop x.q = w ++ s.drop x.eq
  eq : x.eq = x.q + w.length
  stop : ∀ c ∈ s[x.eq]?, wordChar c = false

/-- At offset `ps` the tokens `ts` are left. -/
structure At (s : List UInt8) (ps : ℕ) (ts : List Tok) : Prop where
  le : ps ≤ s.length
  tokens : tokens (s.drop ps) = ts

variable {s : List UInt8} {ps : ℕ} {ts : List Tok}

/-! ### Blanks -/

/-- What is left after a loop that skips characters. -/
theorem drop_skip (p : UInt8 → Bool) (s : List UInt8) (i : ℕ) :
    s.drop (skip p s i) = (s.drop i).dropWhile p := by
  obtain ⟨l, hl⟩ : ∃ l, l = s.drop i := ⟨_, rfl⟩
  rw [skip, ← List.drop_drop, ← hl]
  calc l.drop (l.takeWhile p).length
      = (l.takeWhile p ++ l.dropWhile p).drop (l.takeWhile p).length := by
        rw [List.takeWhile_append_dropWhile]
    _ = l.dropWhile p := List.drop_left

variable {i : ℕ} {c : UInt8} {r : List UInt8} {t : Tok}

theorem skip_le (p : UInt8 → Bool) (hi : i ≤ s.length) : skip p s i ≤ s.length := by
  have hle : ((s.drop i).takeWhile p).length ≤ (s.drop i).length :=
    (List.takeWhile_prefix p).length_le
  rw [List.length_drop] at hle
  rw [skip]
  omega

/-- White space between tokens does not count. -/
theorem tokens_dropWhile (s : List UInt8) : tokens (s.dropWhile (strchr whitespace)) = tokens s := by
  induction s with
  | nil => rfl
  | cons c s ih =>
    rw [List.dropWhile_cons]
    split
    next h => rw [ih, tokens, if_pos h]
    · rfl

/-- Blanks are no tokens. -/
theorem At.skip (h : At s ps ts) : At s (skip (strchr whitespace) s ps) ts where
  le := skip_le _ h.le
  tokens := by rw [drop_skip, tokens_dropWhile, h.tokens]

theorem charAt_eq (h : s.drop i = c :: r) : charAt s i = c := by
  rw [charAt, List.getD_eq_getElem?_getD, ← Nat.add_zero i, ← List.getElem?_drop, h]
  rfl

theorem charAt_eq_zero (h : s.drop i = []) : charAt s i = 0 := by
  rw [charAt, List.getD_eq_getElem?_getD, ← Nat.add_zero i, ← List.getElem?_drop, h]
  rfl

/-- The loop stops at a character that it does not skip. -/
theorem skip_stop {p : UInt8 → Bool} (h : s.drop (skip p s i) = c :: r) : p c = false := by
  rw [drop_skip] at h
  have hne : (s.drop i).dropWhile p ≠ [] := by
    rw [h]
    exact List.cons_ne_nil c r
  have hhead := List.head_dropWhile_not p hne
  simpa only [h, List.head_cons] using hhead

/-! ### Symbols -/

/-- The symbols that `gettoken` knows. -/
theorem symbol_eq_some (h : symbol c = some t) : t.code = c ∧ t.first = some c ∧ (∀ w, t ≠ .word w) ∧
      (c = ch '|' ∨ c = ch '(' ∨ c = ch ')' ∨ c = ch ';' ∨ c = ch '&' ∨ c = ch '<' ∨ c = ch '>') := by
  rw [symbol] at h
  iterate 7
    split at h
    next hc =>
      obtain rfl := Option.some.inj h
      subst hc
      exact ⟨rfl, rfl, nofun, by decide⟩
  cases h

/-- Everything else is part of a word. -/
theorem symbol_eq_none (h : symbol c = none) : strchr symbols c = false ∧
    ¬(c = ch '|' ∨ c = ch '(' ∨ c = ch ')' ∨ c = ch ';' ∨ c = ch '&' ∨ c = ch '<') ∧ c ≠ ch '>' := by
  rw [symbol] at h
  iterate 7
    split at h
    · cases h
  simp_all [strchr, symbols]

theorem tokens_append (r : List UInt8) : tokens (ch '>' :: ch '>' :: r) = .append :: tokens r := by
  rw [tokens, if_neg (by decide), if_pos ⟨rfl, rfl⟩]
  rfl

theorem tokens_symbol (hwhite : strchr whitespace c = false) (hnot : ¬(c = ch '>' ∧ r.head? = some (ch '>')))
    (h : symbol c = some t) : tokens (c :: r) = t :: tokens r := by
  rw [tokens, if_neg (Bool.eq_false_iff.1 hwhite), if_neg hnot, h]

theorem tokens_word (hwhite : strchr whitespace c = false) (h : symbol c = none) :
    tokens (c :: r) = .word ((c :: r).takeWhile wordChar) :: tokens ((c :: r).dropWhile wordChar) := by
  obtain ⟨hsymbol, -, hgt⟩ := symbol_eq_none h
  have hc : wordChar c = true := by
    rw [wordChar, hwhite, hsymbol]
    rfl
  rw [tokens, if_neg (Bool.eq_false_iff.1 hwhite), if_neg fun hand ↦ hgt hand.1, h,
    List.takeWhile_cons_of_pos hc, List.dropWhile_cons_of_pos hc]

/-! ### `gettoken` and `peek` -/

variable (hs : 0 ∉ s)

include hs

/-- The line has no zero before its end. -/
theorem ne_zero_of_drop (h : s.drop i = c :: r) : c ≠ 0 := by
  have hmem : c ∈ s := List.mem_of_mem_drop (h ▸ List.mem_cons_self)
  exact fun heq ↦ hs (heq ▸ hmem)

/-- The `switch` passes over the next token. -/
theorem scan_cons {q : ℕ} (hq : s.drop q = c :: r) (hwhite : strchr whitespace c = false) :
    ∃ t, tokens (c :: r) = t :: tokens (s.drop (scan s q).2) ∧
      (scan s q).1 = t.code ∧ (scan s q).2 ≤ s.length ∧
      (t.first = some c ∨ t.first = none ∧ strchr symbols c = false) ∧
      ∀ w, t = .word w → IsWord s ⟨q, (scan s q).2⟩ w := by
  have hchar : charAt s q = c := charAt_eq hq
  have hc := ne_zero_of_drop hs hq
  have hlen : s.length = q + (r.length + 1) := by
    have hlen := congrArg List.length hq
    rw [List.length_drop, List.length_cons] at hlen
    omega
  have hnext : s.drop (q + 1) = r := by
    rw [← List.drop_drop, hq]
    rfl
  by_cases happend : c = ch '>' ∧ r.head? = some (ch '>')
  · -- `>>`
    obtain ⟨rfl, hhead⟩ := happend
    obtain ⟨r', rfl⟩ := List.head?_eq_some_iff.1 hhead
    have hscan : scan s q = (ch '+', q + 2) := by
      rw [scan, hchar, if_neg hc, if_neg (by decide), if_pos rfl, if_pos (charAt_eq hnext)]
    have hrest : s.drop (q + 2) = r' := by
      rw [← Nat.add_assoc q 1 1, ← List.drop_drop, hnext]
      rfl
    rw [hscan]
    refine ⟨.append, ?_, rfl, ?_, .inl rfl, nofun⟩
    · rw [tokens_append, hrest]
    · rw [hlen, List.length_cons]
      omega
  rcases hsymbol : symbol c with - | t
  · -- a word
    obtain ⟨hnot, hcases, hgt⟩ := symbol_eq_none hsymbol
    have hword : wordChar c = true := by
      rw [wordChar, hwhite, hnot]
      rfl
    have hscan : scan s q = (ch 'a', skip wordChar s q) := by
      rw [scan, hchar, if_neg hc, if_neg hcases, if_neg hgt]
    rw [hscan]
    refine ⟨.word ((c :: r).takeWhile wordChar), ?_, rfl, skip_le _ (by omega), .inr ⟨rfl, hnot⟩, ?_⟩
    · rw [tokens_word hwhite hsymbol, drop_skip, hq]
    · intro w hw
      obtain rfl := Tok.word.inj hw
      refine ⟨?_, fun c' hc' ↦ List.mem_takeWhile_imp hc', ?_, ?_, fun c' hc' ↦ ?_⟩
      · rw [List.takeWhile_cons_of_pos hword]
        exact List.cons_ne_nil _ _
      · rw [drop_skip, hq, List.takeWhile_append_dropWhile]
      · show skip wordChar s q = _
        rw [skip, hq]
      · rw [← List.head?_drop] at hc'
        obtain ⟨r', hr'⟩ := List.head?_eq_some_iff.1 hc'
        exact skip_stop hr'
  · -- another symbol
    obtain ⟨hcode, hfirst, hne, hcases⟩ := symbol_eq_some hsymbol
    have hscan : scan s q = (c, q + 1) := by
      rw [scan, hchar, if_neg hc]
      by_cases hgt : c = ch '>'
      · -- it is not followed by another one
        have hsecond : charAt s (q + 1) ≠ ch '>' := by
          rcases r with - | ⟨c', r'⟩
          · rw [charAt_eq_zero hnext]
            decide
          · rw [charAt_eq hnext]
            exact fun h ↦ happend ⟨hgt, congrArg some h⟩
        subst hgt
        rw [if_neg (by decide), if_pos rfl, if_neg hsecond]
      · rw [if_pos]
        simpa only [hgt, or_false] using hcases
    rw [hscan]
    refine ⟨t, ?_, hcode.symm, by omega, .inl hfirst, fun w hw ↦ absurd hw (hne w)⟩
    rw [tokens_symbol hwhite happend hsymbol, hnext]

/-- `gettoken` returns the first token and stands at the next one. -/
theorem gettoken_cons (h : At s ps (t :: ts)) :
    (gettoken s ps).ret = t.code ∧ At s (gettoken s ps).ps ts ∧
      ∀ w, t = .word w → IsWord s (gettoken s ps).text w := by
  have hskip := h.skip
  rcases hq : s.drop (skip (strchr whitespace) s ps) with - | ⟨c, r⟩
  · have htokens := hskip.tokens
    rw [hq, tokens] at htokens
    cases htokens
  · obtain ⟨t', htokens, hcode, hle, -, hword⟩ := scan_cons hs hq (skip_stop hq)
    rw [← hq, hskip.tokens] at htokens
    obtain ⟨rfl, hts⟩ := List.cons.inj htokens
    exact ⟨hcode, At.skip ⟨hle, hts.symm⟩, hword⟩

theorem drop_skip_nil (h : At s ps []) : s.drop (skip (strchr whitespace) s ps) = [] := by
  have htokens := h.skip.tokens
  rcases hq : s.drop (skip (strchr whitespace) s ps) with - | ⟨c, r⟩
  · rfl
  · obtain ⟨t, hcons, -⟩ := scan_cons hs hq (skip_stop hq)
    rw [hq, hcons] at htokens
    cases htokens

/-- At the end of the line it returns 0. -/
theorem gettoken_nil (h : At s ps []) : (gettoken s ps).ret = 0 ∧ At s (gettoken s ps).ps [] := by
  have hnil := drop_skip_nil hs h
  have hscan : scan s (skip (strchr whitespace) s ps) = (0, skip (strchr whitespace) s ps) := by
    rw [scan, charAt_eq_zero hnil, if_pos rfl]
  refine ⟨?_, ?_⟩
  · rw [gettoken, hscan]
  · rw [gettoken, hscan]
    exact h.skip.skip

/-- `peek` looks at the next token. -/
theorem peek_eq (h : At s ps ts) (toks : List Char) (htoks : toks.map ch ⊆ symbols) :
    ∃ ps', peek s ps toks = (startsWith toks ts, ps') ∧ At s ps' ts := by
  refine ⟨_, Prod.ext ?_ rfl, h.skip⟩
  rw [peek]
  rcases hq : s.drop (skip (strchr whitespace) s ps) with - | ⟨c, r⟩
  · have htokens := h.skip.tokens
    rw [hq, tokens] at htokens
    rw [charAt_eq_zero hq, ← htokens]
    rfl
  · obtain ⟨t, hcons, -, -, hfirst, -⟩ := scan_cons hs hq (skip_stop hq)
    have htokens := h.skip.tokens
    rw [hq, hcons] at htokens
    rw [charAt_eq hq, ← htokens, decide_eq_true (ne_zero_of_drop hs hq), Bool.true_and, startsWith]
    rcases hfirst with hfirst | ⟨hfirst, hnot⟩
    · rw [hfirst]
      rfl
    · rw [hfirst]
      refine Bool.eq_false_iff.2 fun hmem ↦ Bool.eq_false_iff.1 hnot ?_
      exact List.contains_iff_mem.2 (htoks (List.contains_iff_mem.1 hmem))

/-- `s == es` after blanks. -/
theorem peek_nil (h : At s ps ts) : (peek s ps []).2 = s.length ↔ ts = [] := by
  constructor
  · intro heq
    rw [← h.skip.tokens, show skip (strchr whitespace) s ps = s.length from heq, List.drop_length,
      tokens]
  · rintro rfl
    have hle := List.drop_eq_nil_iff.1 (drop_skip_nil hs h)
    exact Nat.le_antisymm h.skip.le hle

end Sh

end Xv6
