import Xv6.Sh.Tokens
import Mathlib.Data.List.Forall2
import Mathlib.Logic.Function.Iterate

/-!
# The grammar of the shell

The parser accepts exactly what the grammar derives, and its tree is the one of the derivation
(`parsecmd_correct`).

A derivation is tied to the parser by the tokens that it leaves. `Parses` says that a parse function returns,
that what it returns has been derived, and that whatever can be derived is returned, if the rest is such that
the derivation cannot go on. It has a lemma for each way in which parse functions are put together.
-/

namespace Xv6

namespace Sh

/-! ### The grammar -/

/-- A redirection. -/
structure Redir (α : Type) where
  /-- The file. -/
  file : α
  /-- How it is opened. -/
  mode : ℕ
  /-- The file descriptor. -/
  fd : ℕ

/-- Redirections around a command, the first one innermost. -/
def wrap {α : Type} (c : Cmd α) (rs : List (Redir α)) : Cmd α :=
  rs.foldl (fun c r ↦ .redir c r.file r.mode r.fd) c

/-- The tokens of redirections, with the mode and the file descriptor. -/
def redirection : Tok → Option (ℕ × ℕ)
  | .lt => some (O_RDONLY, 0)
  | .gt | .append => some (O_WRONLY ||| O_CREATE, 1)
  | _ => none

/-- `redir*`, with `redir := ('<' | '>' | '>>') word`. -/
inductive Redirs : List Tok → List (Redir (List UInt8)) → Prop where
  /-- None. -/
  | nil : Redirs [] []
  /-- One more in front. -/
  | cons {t : Tok} {w : List UInt8} {mode fd : ℕ} {ts : List Tok} {rs : List (Redir (List UInt8))}
      (ht : redirection t = some (mode, fd)) (h : Redirs ts rs) :
      Redirs (t :: .word w :: ts) (⟨w, mode, fd⟩ :: rs)

/-- `(word redir*)*`. -/
inductive Words : List Tok → List (List UInt8) → List (Redir (List UInt8)) → Prop where
  /-- None. -/
  | nil : Words [] [] []
  /-- A word and its redirections. -/
  | cons {w : List UInt8} {ts us : List Tok} {rs rs' : List (Redir (List UInt8))}
      {ws : List (List UInt8)} (hr : Redirs ts rs) (hw : Words us ws rs') :
      Words (.word w :: (ts ++ us)) (w :: ws) (rs ++ rs')

/-- The nonterminals with commands. -/
inductive Nonterminal where
  /-- `line := pipe '&'* [';' line]` -/
  | line
  /-- `pipe := exec ['|' pipe]` -/
  | pipe
  /-- `exec := '(' line ')' redir* | redir* (word redir*)*` -/
  | exec

/-- The derivations, with their trees. -/
inductive Derives : Nonterminal → List Tok → Cmd (List UInt8) → Prop where
  /-- `pipe '&'*` -/
  | last {ts : List Tok} {c : Cmd (List UInt8)} (k : ℕ) (h : Derives .pipe ts c) :
      Derives .line (ts ++ List.replicate k .amp) (Cmd.back^[k] c)
  /-- `pipe '&'* ';' line` -/
  | seq {ts us : List Tok} {c d : Cmd (List UInt8)} (k : ℕ) (hl : Derives .pipe ts c)
      (hr : Derives .line us d) :
      Derives .line (ts ++ (List.replicate k .amp ++ .semi :: us)) (.list (Cmd.back^[k] c) d)
  /-- `exec` -/
  | single {ts : List Tok} {c : Cmd (List UInt8)} (h : Derives .exec ts c) : Derives .pipe ts c
  /-- `exec '|' pipe` -/
  | pipe {ts us : List Tok} {c d : Cmd (List UInt8)} (hl : Derives .exec ts c)
      (hr : Derives .pipe us d) : Derives .pipe (ts ++ .bar :: us) (.pipe c d)
  /-- `'(' line ')' redir*` -/
  | block {ts us : List Tok} {c : Cmd (List UInt8)} {rs : List (Redir (List UInt8))}
      (hl : Derives .line ts c) (hr : Redirs us rs) :
      Derives .exec (.lparen :: (ts ++ .rparen :: us)) (wrap c rs)
  /-- `redir* (word redir*)*`, with fewer than `MAXARGS` words. -/
  | simple {ts us : List Tok} {ws : List (List UInt8)} {rs rs' : List (Redir (List UInt8))}
      (hr : Redirs ts rs) (hw : Words us ws rs') (hlt : ws.length < MAXARGS) :
      Derives .exec (ts ++ us) (wrap (.exec ws) (rs ++ rs'))

/-! ### Trees with pointers, and trees with strings -/

/-- Two trees of the same shape, with related strings. -/
inductive Cmd.Rel {α β : Type} (R : α → β → Prop) : Cmd α → Cmd β → Prop where
  /-- Commands. -/
  | exec {xs : List α} {ws : List β} (h : List.Forall₂ R xs ws) : Rel R (.exec xs) (.exec ws)
  /-- Redirections. -/
  | redir {c : Cmd α} {d : Cmd β} {x : α} {w : β} {mode fd : ℕ} (h : Rel R c d) (hx : R x w) :
      Rel R (.redir c x mode fd) (.redir d w mode fd)
  /-- Pipes. -/
  | pipe {c c' : Cmd α} {d d' : Cmd β} (h : Rel R c d) (h' : Rel R c' d') :
      Rel R (.pipe c c') (.pipe d d')
  /-- Lists. -/
  | list {c c' : Cmd α} {d d' : Cmd β} (h : Rel R c d) (h' : Rel R c' d') :
      Rel R (.list c c') (.list d d')
  /-- Commands in the background. -/
  | back {c : Cmd α} {d : Cmd β} (h : Rel R c d) : Rel R (.back c) (.back d)

section Rel

variable {α β : Type} {R : α → β → Prop} {c : Cmd α} {d : Cmd β}

theorem Cmd.Rel.unique (hR : ∀ x w w', R x w → R x w' → w = w') (h : c.Rel R d) {d' : Cmd β}
    (h' : c.Rel R d') : d = d' := by
  induction h generalizing d' with
  | exec h =>
    cases h' with
    | exec h' =>
      refine congrArg Cmd.exec ?_
      exact List.right_unique_forall₂' hR h h'
  | redir _ hx ih =>
    cases h' with
    | redir h' hx' => rw [ih h', hR _ _ _ hx hx']
  | pipe _ _ ih₁ ih₂ =>
    cases h' with
    | pipe h₁ h₂ => rw [ih₁ h₁, ih₂ h₂]
  | list _ _ ih₁ ih₂ =>
    cases h' with
    | list h₁ h₂ => rw [ih₁ h₁, ih₂ h₂]
  | back _ ih =>
    cases h' with
    | back h' => rw [ih h']

theorem Cmd.Rel.addArg (h : c.Rel R d) {x : α} {w : β} (hx : R x w) :
    (c.addArg x).Rel R (d.addArg w) := by
  induction h with
  | exec h => exact .exec (List.rel_append h (.cons hx .nil))
  | redir _ hf ih => exact .redir ih hf
  | pipe h h' => exact .pipe h h'
  | list h h' => exact .list h h'
  | back h => exact .back h

end Rel

/-- Redirections are wrapped from the inside out. -/
theorem wrap_append {α : Type} (c : Cmd α) (rs rs' : List (Redir α)) :
    wrap c (rs ++ rs') = wrap (wrap c rs) rs' :=
  List.foldl_append

/-- An argument goes to the command inside. -/
theorem addArg_wrap {α : Type} (c : Cmd α) (rs : List (Redir α)) (w : α) :
    (wrap c rs).addArg w = wrap (c.addArg w) rs := by
  induction rs generalizing c with
  | nil => rfl
  | cons r rs ih => exact ih _

/-- A slice of the line is one word. -/
theorem IsWord.unique {s : List UInt8} {x : Slice} {w w' : List UInt8} (h : IsWord s x w)
    (h' : IsWord s x w') : w = w' := by
  have hlen : w.length = w'.length := by
    have heq := h.eq
    have heq' := h'.eq
    omega
  exact (List.append_inj (h.drop.symm.trans h'.drop) hlen).1

/-- The tree that the parser has built for a command. -/
def Reads (s : List UInt8) (cmd : Cmd Slice) (c : Cmd (List UInt8)) : Prop := cmd.Rel (IsWord s) c

/-! ### Parse functions -/

/-- The tokens that may follow what is derived. -/
def Follow (toks : List Tok) (rest : List Tok) : Prop := ∀ t ∈ rest.head?, t ∈ toks

/-- The parse function `x` returns. If it returns a command `c` and leaves the tokens `rest`, then `D rest c`;
and if `D rest c` then it returns this, provided that `F rest`. -/
def Parses (s : List UInt8) (F : List Tok → Prop) (D : List Tok → Cmd (List UInt8) → Prop)
    (x : ℕ → Parse (Cmd Slice × ℕ)) : Prop :=
  ∃ r, Returns x r ∧
    (∀ cmd ps, r = .ok (cmd, ps) → ∃ rest c, D rest c ∧ At s ps rest ∧ Reads s cmd c) ∧
    ∀ rest c, D rest c → F rest → ∃ cmd ps, r = .ok (cmd, ps) ∧ At s ps rest ∧ Reads s cmd c

namespace Parses

variable {s : List UInt8} {F F' : List Tok → Prop} {D D' : List Tok → Cmd (List UInt8) → Prop}
  {x : ℕ → Parse (Cmd Slice × ℕ)}

/-- A call. -/
theorem succ (h : Parses s F D fun n ↦ x (n + 1)) : Parses s F D x := by
  obtain ⟨r, hr, hspec⟩ := h
  exact ⟨r, hr.succ, hspec⟩

/-- The same in other words. -/
theorem mono (h : Parses s F' D' x) (hsound : ∀ rest c, D' rest c → D rest c)
    (hcomplete : ∀ rest c, D rest c → F rest → D' rest c ∧ F' rest) : Parses s F D x := by
  obtain ⟨r, hr, hs, hc⟩ := h
  refine ⟨r, hr, fun cmd ps hok ↦ ?_, fun rest c hD hF ↦ ?_⟩
  · obtain ⟨rest, c, hD, hat⟩ := hs cmd ps hok
    exact ⟨rest, c, hsound rest c hD, hat⟩
  · obtain ⟨hD', hF'⟩ := hcomplete rest c hD hF
    exact hc rest c hD' hF'

/-- `return`. -/
theorem pure {cmd : Cmd Slice} {ps : ℕ} {rest : List Tok} {c : Cmd (List UInt8)} (hat : At s ps rest)
    (hreads : Reads s cmd c) (hD : D rest c) (hF : ∀ rest' c', D rest' c' → F rest' →
      rest' = rest ∧ c' = c) : Parses s F D fun _ ↦ Pure.pure (cmd, ps) := by
  refine ⟨.ok (cmd, ps), .of_forall fun _ ↦ rfl, fun cmd' ps' hok ↦ ?_, fun rest' c' hD' hF' ↦ ?_⟩
  · obtain ⟨rfl, rfl⟩ := Prod.mk.inj (Except.ok.inj hok)
    exact ⟨rest, c, hD, hat, hreads⟩
  · obtain ⟨rfl, rfl⟩ := hF rest' c' hD' hF'
    exact ⟨cmd, ps, rfl, hat, hreads⟩

/-- `panic`. -/
theorem throw {e : SyntaxError} (h : ∀ rest c, D rest c → ¬F rest) :
    Parses s F D fun _ ↦ MonadExcept.throw e :=
  ⟨.error e, .of_forall fun _ ↦ rfl, nofun, fun rest c hD hF ↦ absurd hF (h rest c hD)⟩

/-- One parse function after another. -/
theorem bind {F₁ : List Tok → Prop} {D₁ : List Tok → Cmd (List UInt8) → Prop}
    {G : List Tok → Cmd (List UInt8) → List Tok → Cmd (List UInt8) → Prop}
    {f : ℕ → Cmd Slice × ℕ → Parse (Cmd Slice × ℕ)} (hx : Parses s F₁ D₁ x)
    (hf : ∀ cmd ps rest c, D₁ rest c → At s ps rest → Reads s cmd c →
      Parses s F (G rest c) fun n ↦ f n (cmd, ps))
    (hsound : ∀ rest c rest' c', D₁ rest c → G rest c rest' c' → D rest' c')
    (hcomplete : ∀ rest' c', D rest' c' → F rest' → ∃ rest c, D₁ rest c ∧ F₁ rest ∧ G rest c rest' c') :
    Parses s F D fun n ↦ x n >>= f n := by
  obtain ⟨r, hr, hs, hc⟩ := hx
  cases r with
  | error e =>
    refine ⟨.error e, hr.bind_error, nofun, fun rest' c' hD hF ↦ ?_⟩
    obtain ⟨rest, c, hD₁, hF₁, -⟩ := hcomplete rest' c' hD hF
    obtain ⟨cmd, ps, hok, -⟩ := hc rest c hD₁ hF₁
    cases hok
  | ok p =>
    obtain ⟨cmd, ps⟩ := p
    obtain ⟨rest, c, hD₁, hat, hreads⟩ := hs cmd ps rfl
    obtain ⟨r', hr', hs', hc'⟩ := hf cmd ps rest c hD₁ hat hreads
    refine ⟨r', hr.bind_ok hr', fun cmd' ps' hok ↦ ?_, fun rest' c' hD hF ↦ ?_⟩
    · obtain ⟨rest', c', hD₂, hat'⟩ := hs' cmd' ps' hok
      exact ⟨rest', c', hsound rest c rest' c' hD₁ hD₂, hat'⟩
    · -- what has been returned first is what the derivation begins with
      obtain ⟨rest₁, c₁, hD₁, hF₁, hD₂⟩ := hcomplete rest' c' hD hF
      obtain ⟨cmd₁, ps₁, hok, hat₁, hreads₁⟩ := hc rest₁ c₁ hD₁ hF₁
      obtain ⟨rfl, rfl⟩ := Prod.mk.inj (Except.ok.inj hok)
      obtain rfl : rest₁ = rest := hat₁.tokens.symm.trans hat.tokens
      obtain rfl : c₁ = c := hreads₁.unique (fun _ _ _ h h' ↦ h.unique h') hreads
      exact hc' rest' c' hD₂ hF

end Parses

/-! ### Redirections -/

variable {s : List UInt8}

/-- The commands that redirections from `ts` on make of `c`. -/
def RedirsFrom (ts : List Tok) (c : Cmd (List UInt8)) (rest : List Tok) (c' : Cmd (List UInt8)) : Prop :=
  ∃ us rs, ts = us ++ rest ∧ Redirs us rs ∧ c' = wrap c rs

/-- The test in the loop of `parseredirs`. -/
theorem startsWith_redirection (t : Tok) (ts : List Tok) :
    startsWith ['<', '>'] (t :: ts) = (redirection t).isSome := by
  cases t with
  | bar | lparen | rparen | semi | amp | lt | gt | append | word => rfl

variable {t : Tok} {cmd : Cmd Slice} {c : Cmd (List UInt8)} {ps : ℕ} {ts : List Tok}

theorem code_eq_a (h : t.code = ch 'a') : ∃ w, t = .word w := by
  cases t with
  | word w => exact ⟨w, rfl⟩
  | bar | lparen | rparen | semi | amp | lt | gt | append => exact absurd h (by decide)

/-- A symbol is known by its first character. -/
theorem eq_of_first {u : Tok} (ht : t ∈ [Tok.bar, .lparen, .rparen, .semi, .amp]) (h : u.first = some t.code) :
    u = t := by
  simp only [List.mem_cons, List.not_mem_nil, or_false] at ht
  rcases ht with rfl | rfl | rfl | rfl | rfl
  all_goals
    cases u with
    | bar | lparen | rparen | semi | amp | lt | gt | append => first | rfl | cases h
    | word => cases h

/-- `peek` for one symbol. -/
theorem startsWith_eq_false (ht : t ∈ [Tok.bar, .lparen, .rparen, .semi, .amp]) {c : Char}
    (hc : ch c = t.code) {rest : List Tok} (h : ¬∃ mid, rest = t :: mid) : startsWith [c] rest = false := by
  rcases rest with - | ⟨u, rest⟩
  · rfl
  · refine Bool.eq_false_iff.2 fun hstart ↦ h ⟨rest, ?_⟩
    rw [startsWith, Option.any_eq_true] at hstart
    obtain ⟨x, hx, hmem⟩ := hstart
    have hxc : x = ch c := List.mem_singleton.1 (List.contains_iff_mem.1 hmem)
    exact congrArg (· :: rest) (eq_of_first ht (by rw [hx, hxc, hc]))

/-- The `switch` of `parseredirs`. -/
theorem redir_eq {mode fd : ℕ} (ht : redirection t = some (mode, fd)) (cmd : Cmd Slice) (x : Slice) :
    (if t.code = ch '<' then .redir cmd x O_RDONLY 0
      else if t.code = ch '>' then .redir cmd x (O_WRONLY ||| O_CREATE) 1
      else if t.code = ch '+' then .redir cmd x (O_WRONLY ||| O_CREATE) 1
      else cmd) = .redir cmd x mode fd := by
  cases t with
  | lt | gt | append =>
    obtain ⟨rfl, rfl⟩ := Prod.mk.inj (Option.some.inj ht)
    rfl
  | bar | lparen | rparen | semi | amp | word => cases ht

/-- `parseredirs` reads the redirections at the beginning of the tokens. -/
theorem parses_redirs (hs : 0 ∉ s) (ts : List Tok) (hat : At s ps ts) (hreads : Reads s cmd c) :
    Parses s (fun rest ↦ startsWith ['<', '>'] rest = false) (RedirsFrom ts c)
      fun n ↦ parseredirs s n cmd ps := by
  induction hn : ts.length using Nat.strong_induction_on generalizing ts cmd c ps with
  | _ n ih =>
  refine .succ ?_
  obtain ⟨ps₁, hpeek, hat₁⟩ := peek_eq hs hat ['<', '>'] (by decide)
  simp only [parseredirs, hpeek]
  cases hstart : startsWith ['<', '>'] ts with
  | false =>
    refine .pure hat₁ hreads ⟨[], [], rfl, .nil, rfl⟩ fun rest' c' hD _ ↦ ?_
    obtain ⟨us, rs, rfl, hr, rfl⟩ := hD
    cases hr with
    | nil => exact ⟨rfl, rfl⟩
    | cons ht =>
      rw [List.cons_append, startsWith_redirection, ht] at hstart
      cases hstart
  | true =>
    rcases ts with - | ⟨t, ts⟩
    · cases hstart
    have hsome := hstart
    rw [startsWith_redirection] at hsome
    obtain ⟨⟨mode, fd⟩, ht⟩ := Option.isSome_iff_exists.1 hsome
    obtain ⟨hcode, hat₂, -⟩ := gettoken_cons hs hat₁
    -- A derivation that is not over here has the file name next.
    have hnext : ∀ {rest c'}, RedirsFrom (t :: ts) c rest c' → startsWith ['<', '>'] rest = false →
        ∃ w ts', ts = .word w :: ts' ∧ RedirsFrom ts' (.redir c w mode fd) rest c' := by
      intro rest c' hD hF
      obtain ⟨us, rs, hts, hr, rfl⟩ := hD
      cases hr with
      | nil =>
        rw [show rest = t :: ts from hts.symm, hstart] at hF
        cases hF
      | @cons t' w mode' fd' ts' rs' ht' hr' =>
        obtain ⟨rfl, rfl⟩ := List.cons.inj hts
        obtain ⟨rfl, rfl⟩ := Prod.mk.inj (Option.mem_unique ht ht')
        exact ⟨w, ts' ++ rest, rfl, ts', rs', rfl, hr', rfl⟩
    by_cases hfile : (gettoken s (gettoken s ps₁).ps).ret = ch 'a'
    · rcases ts with - | ⟨t₂, ts⟩
      · rw [(gettoken_nil hs hat₂).1] at hfile
        exact absurd hfile (by decide)
      obtain ⟨hcode₂, hat₃, hword⟩ := gettoken_cons hs hat₂
      obtain ⟨w, rfl⟩ := code_eq_a (hcode₂.symm.trans hfile)
      simp only [hfile, hcode, redir_eq ht, ne_eq, not_true_eq_false, if_false, if_true]
      refine (ih _ ?_ ts hat₃ (.redir hreads (hword w rfl)) rfl).mono ?_ ?_
      · rw [← hn, List.length_cons, List.length_cons]
        omega
      · intro rest c' hD
        obtain ⟨us, rs, rfl, hr, rfl⟩ := hD
        exact ⟨t :: .word w :: us, _, rfl, .cons ht hr, rfl⟩
      · intro rest c' hD hF
        obtain ⟨w', ts', hts, hD'⟩ := hnext hD hF
        obtain ⟨hw, rfl⟩ := List.cons.inj hts
        obtain rfl := Tok.word.inj hw
        exact ⟨hD', hF⟩
    · simp only [hfile, ne_eq, not_false_eq_true, if_true]
      refine .throw fun rest c' hD hF ↦ ?_
      obtain ⟨w, ts', rfl, -⟩ := hnext hD hF
      exact hfile (gettoken_cons hs hat₂).1

/-! ### Arguments -/

/-- Arguments stored one after another. -/
def addArgs {α : Type} (c : Cmd α) (ws : List α) : Cmd α := ws.foldl (fun c w ↦ c.addArg w) c

theorem addArgs_wrap {α : Type} (c : Cmd α) (rs : List (Redir α)) (ws : List α) :
    addArgs (wrap c rs) ws = wrap (addArgs c ws) rs := by
  induction ws generalizing c with
  | nil => rfl
  | cons w ws ih =>
    show addArgs ((wrap c rs).addArg w) ws = wrap (addArgs (c.addArg w) ws) rs
    rw [addArg_wrap, ih]

theorem addArgs_exec {α : Type} (ws ws' : List α) : addArgs (.exec ws) ws' = .exec (ws ++ ws') := by
  induction ws' generalizing ws with
  | nil => rw [List.append_nil]; rfl
  | cons w ws' ih =>
    show addArgs (.exec (ws ++ [w])) ws' = _
    rw [ih, List.append_assoc]
    rfl

/-- The commands that words and redirections from `ts` on make of `c`, which has `argc` words. -/
def WordsFrom (ts : List Tok) (argc : ℕ) (c : Cmd (List UInt8)) (rest : List Tok)
    (c' : Cmd (List UInt8)) : Prop :=
  ∃ us ws rs, ts = us ++ rest ∧ Words us ws rs ∧ argc + ws.length < MAXARGS ∧
    c' = wrap (addArgs c ws) rs

/-- The tokens that may follow a nonterminal. -/
def follow : Nonterminal → List Tok
  | .line => [.rparen]
  | .pipe => [.rparen, .amp, .semi]
  | .exec => [.rparen, .amp, .semi, .bar]

/-- The test in the loop of `parseexec`. -/
theorem startsWith_of_follow (h : Follow (follow .exec) (t :: ts)) :
    startsWith ['|', ')', '&', ';'] (t :: ts) = true := by
  cases t with
  | bar | rparen | semi | amp => rfl
  | lparen | lt | gt | append | word => exact absurd (h _ rfl) (by simp [follow])

theorem startsWith_redirection_of_follow (h : Follow (follow .exec) ts) :
    startsWith ['<', '>'] ts = false := by
  rcases ts with - | ⟨t, ts⟩
  · rfl
  · have hstart := startsWith_of_follow h
    cases t with
    | bar | rparen | semi | amp | lparen | word => rfl
    | lt | gt | append => cases hstart

/-- The loop of `parseexec` reads words and redirections. -/
theorem parses_args (hs : 0 ∉ s) (ts : List Tok) {argc : ℕ} (hargc : argc < MAXARGS) (hat : At s ps ts)
    (hreads : Reads s cmd c) :
    Parses s (Follow (follow .exec)) (WordsFrom ts argc c) fun n ↦ parseargs s n argc cmd ps := by
  induction hn : ts.length using Nat.strong_induction_on generalizing ts argc cmd c ps with
  | _ n ih =>
  refine .succ ?_
  obtain ⟨ps₁, hpeek, hat₁⟩ := peek_eq hs hat ['|', ')', '&', ';'] (by decide)
  simp only [parseargs, hpeek]
  -- The derivation is over where nothing is left, or at a token that may follow.
  have hnil : WordsFrom ts argc c ts c := ⟨[], [], [], rfl, .nil, hargc, rfl⟩
  cases hstart : startsWith ['|', ')', '&', ';'] ts with
  | true =>
    refine .pure hat₁ hreads hnil fun rest' c' hD _ ↦ ?_
    obtain ⟨us, ws, rs, rfl, hw, -, rfl⟩ := hD
    cases hw with
    | nil => exact ⟨rfl, rfl⟩
    | cons => cases hstart
  | false =>
    rcases ts with - | ⟨t, ts⟩
    · obtain ⟨hret, hat₂⟩ := gettoken_nil hs hat₁
      simp only [hret, if_true, Bool.false_eq_true, if_false]
      refine .pure hat₂ hreads hnil fun rest' c' hD _ ↦ ?_
      obtain ⟨us, ws, rs, hts, hw, -, rfl⟩ := hD
      obtain ⟨rfl, rfl⟩ := List.append_eq_nil_iff.1 hts.symm
      cases hw
      exact ⟨rfl, rfl⟩
    obtain ⟨hcode, hat₂, hword⟩ := gettoken_cons hs hat₁
    have hzero : t.code ≠ 0 := by
      cases t with
      | bar | lparen | rparen | semi | amp | lt | gt | append => decide
      | word => exact (by decide : ch 'a' ≠ 0)
    -- Otherwise it goes on with a word.
    have hnext : ∀ {rest c'}, WordsFrom (t :: ts) argc c rest c' → Follow (follow .exec) rest →
        argc + 1 < MAXARGS ∧ ∃ w rest₁ c₁, t = .word w ∧ RedirsFrom ts (c.addArg w) rest₁ c₁ ∧
          startsWith ['<', '>'] rest₁ = false ∧ WordsFrom rest₁ (argc + 1) c₁ rest c' := by
      intro rest c' hD hF
      obtain ⟨us, ws, rs, hts, hw, hlt, rfl⟩ := hD
      cases hw with
      | nil =>
        rw [← show t :: ts = rest from hts] at hF
        rw [startsWith_of_follow hF] at hstart
        cases hstart
      | @cons w us₁ us₂ rs₁ rs₂ ws hr hw =>
        obtain ⟨rfl, rfl⟩ := List.cons.inj hts
        rw [List.length_cons] at hlt
        refine ⟨by omega, w, us₂ ++ rest, _, rfl, ⟨us₁, rs₁, List.append_assoc .., hr, rfl⟩, ?_,
          us₂, ws, rs₂, rfl, hw, by omega, ?_⟩
        · cases hw with
          | nil => exact startsWith_redirection_of_follow hF
          | cons => rfl
        · rw [addArgs_wrap, ← wrap_append]
          rfl
    by_cases ha : t.code = ch 'a'
    · obtain ⟨w, rfl⟩ := code_eq_a ha
      simp only [hcode, ha, ne_eq, not_true_eq_false, if_false, Bool.false_eq_true]
      by_cases hmany : argc + 1 ≥ MAXARGS
      · simp only [hmany, if_true]
        refine .throw fun rest c' hD hF ↦ ?_
        have hlt := (hnext hD hF).1
        omega
      · simp only [hmany, if_false]
        refine (parses_redirs hs ts hat₂ (hreads.addArg (hword w rfl))).bind
          (G := fun rest c ↦ WordsFrom rest (argc + 1) c) ?_ ?_ ?_
        · intro cmd₁ ps₂ rest c₁ hD hat₃ hreads₁
          obtain ⟨us, rs, rfl, -, -⟩ := hD
          refine ih _ ?_ rest (by omega) hat₃ hreads₁ rfl
          rw [← hn, List.length_cons, List.length_append]
          omega
        · intro rest c₁ rest' c' hD₁ hD₂
          obtain ⟨us₁, rs₁, rfl, hr, rfl⟩ := hD₁
          obtain ⟨us₂, ws, rs₂, rfl, hw, hlt, rfl⟩ := hD₂
          refine ⟨.word w :: (us₁ ++ us₂), w :: ws, rs₁ ++ rs₂, ?_, .cons hr hw, ?_, ?_⟩
          · rw [List.cons_append, List.append_assoc]
          · rw [List.length_cons]
            omega
          · rw [addArgs_wrap, ← wrap_append]
            rfl
        · intro rest' c' hD hF
          obtain ⟨-, w', rest₁, c₁, hw, hD₁, hF₁, hD₂⟩ := hnext hD hF
          obtain rfl := Tok.word.inj hw
          exact ⟨rest₁, c₁, hD₁, hF₁, hD₂⟩
    · simp only [hcode, hzero, ha, ne_eq, not_false_eq_true, if_true, if_false, Bool.false_eq_true]
      refine .throw fun rest c' hD hF ↦ ?_
      obtain ⟨-, w, -, -, rfl, -⟩ := hnext hD hF
      exact ha rfl

/-! ### Commands -/

/-- What is derived from `ts` on. -/
def DerivesFrom (nt : Nonterminal) (ts rest : List Tok) (c : Cmd (List UInt8)) : Prop :=
  ∃ us, ts = us ++ rest ∧ Derives nt us c

/-- A parse function for a nonterminal, where the tokens `ts` are left. -/
def ParsesAs (s : List UInt8) (nt : Nonterminal) (ts : List Tok)
    (x : ℕ → Parse (Cmd Slice × ℕ)) : Prop :=
  Parses s (Follow (follow nt)) (DerivesFrom nt ts) x

/-- The commands that `&` from `ts` on makes of `c`. -/
def BacksFrom (ts : List Tok) (c : Cmd (List UInt8)) (rest : List Tok) (c' : Cmd (List UInt8)) : Prop :=
  ∃ k, ts = List.replicate k .amp ++ rest ∧ c' = Cmd.back^[k] c

/-- The loop of `parseline` reads ampersands. -/
theorem parses_backs (hs : 0 ∉ s) (ts : List Tok) (hat : At s ps ts) (hreads : Reads s cmd c) :
    Parses s (fun rest ↦ startsWith ['&'] rest = false) (BacksFrom ts c)
      fun n ↦ parsebacks s n cmd ps := by
  induction ts generalizing cmd c ps with
  | nil =>
    refine .succ ?_
    obtain ⟨ps₁, hpeek, hat₁⟩ := peek_eq hs hat ['&'] (by decide)
    simp only [parsebacks, hpeek]
    refine .pure hat₁ hreads ⟨0, rfl, rfl⟩ fun rest' c' hD _ ↦ ?_
    obtain ⟨k, hts, rfl⟩ := hD
    obtain ⟨hk, rfl⟩ := List.append_eq_nil_iff.1 hts.symm
    rw [List.replicate_eq_nil_iff] at hk
    rw [hk]
    exact ⟨rfl, rfl⟩
  | cons t ts ih =>
    refine .succ ?_
    obtain ⟨ps₁, hpeek, hat₁⟩ := peek_eq hs hat ['&'] (by decide)
    simp only [parsebacks, hpeek]
    by_cases hamp : t = .amp
    · subst hamp
      obtain ⟨-, hat₂, -⟩ := gettoken_cons hs hat₁
      refine (ih hat₂ (.back hreads)).mono ?_ ?_
      · intro rest c' hD
        obtain ⟨k, rfl, rfl⟩ := hD
        exact ⟨k + 1, rfl, rfl⟩
      · intro rest c' hD hF
        obtain ⟨k, hts, rfl⟩ := hD
        cases k with
        | zero =>
          rw [← show Tok.amp :: ts = rest from hts] at hF
          cases hF
        | succ k => exact ⟨⟨k, (List.cons.inj hts).2, rfl⟩, hF⟩
    · have hstart : startsWith ['&'] (t :: ts) = false := by
        refine startsWith_eq_false (t := .amp) (by decide) rfl fun h ↦ ?_
        obtain ⟨mid, heq⟩ := h
        exact hamp (List.cons.inj heq).1
      simp only [hstart, Bool.false_eq_true, if_false]
      refine .pure hat₁ hreads ⟨0, rfl, rfl⟩ fun rest' c' hD _ ↦ ?_
      obtain ⟨k, hts, rfl⟩ := hD
      cases k with
      | zero => exact ⟨hts.symm, rfl⟩
      | succ k => exact absurd (List.cons.inj hts).1 hamp

/-- A simple command does not begin with a parenthesis. -/
theorem simple_ne_lparen {us rest : List Tok} {rs rs' : List (Redir (List UInt8))} {ws : List (List UInt8)}
    (hr : Redirs ts rs) (hw : Words us ws rs') : ts ++ us ≠ .lparen :: rest := by
  intro h
  cases hr with
  | nil =>
    cases hw with
    | nil => cases h
    | cons => exact nomatch (List.cons.inj h).1
  | cons ht =>
    rw [(List.cons.inj h).1] at ht
    cases ht

/-- A block: the redirections after the parenthesis. -/
theorem parses_block (hs : 0 ∉ s) (hat : At s ps (.lparen :: ts))
    (hline : ∀ ps, At s ps ts → ParsesAs s .line ts fun n ↦ parseline s n ps) :
    ParsesAs s .exec (.lparen :: ts) fun n ↦ parseblock s n ps := by
  refine Parses.succ ?_
  obtain ⟨ps₁, hpeek, hat₁⟩ := peek_eq hs hat ['('] (by decide)
  simp only [parseblock, hpeek]
  obtain ⟨-, hat₂, -⟩ := gettoken_cons hs hat₁
  refine (hline _ hat₂).bind (G := fun rest c rest' c' ↦
    ∃ mid, rest = .rparen :: mid ∧ RedirsFrom mid c rest' c') ?_ ?_ ?_
  · intro cmd ps₂ rest c _ hat₃ hreads
    obtain ⟨ps₃, hpeek₃, hat₄⟩ := peek_eq hs hat₃ [')'] (by decide)
    simp only [hpeek₃]
    by_cases hclosed : ∃ mid, rest = .rparen :: mid
    · obtain ⟨mid, rfl⟩ := hclosed
      obtain ⟨-, hat₅, -⟩ := gettoken_cons hs hat₄
      refine (parses_redirs hs mid hat₅ hreads).mono (fun rest' c' hD ↦ ⟨mid, rfl, hD⟩) ?_
      intro rest' c' hD hF
      obtain ⟨mid', heq, hD⟩ := hD
      obtain rfl := (List.cons.inj heq).2
      exact ⟨hD, startsWith_redirection_of_follow hF⟩
    · have hstart : startsWith [')'] rest = false :=
        startsWith_eq_false (by decide) rfl hclosed
      simp only [hstart, Bool.not_false, if_true]
      refine .throw fun rest' c' hD _ ↦ ?_
      obtain ⟨mid, rfl, -⟩ := hD
      exact hclosed ⟨mid, rfl⟩
  · intro rest c rest' c' hD₁ hD₂
    obtain ⟨us, rfl, hderives⟩ := hD₁
    obtain ⟨mid, rfl, vs, rs, rfl, hr, rfl⟩ := hD₂
    refine ⟨.lparen :: (us ++ .rparen :: vs), ?_, .block hderives hr⟩
    rw [List.cons_append, List.append_assoc, List.cons_append]
  · intro rest' c' hD hF
    obtain ⟨us, hts, hderives⟩ := hD
    cases hderives with
    | @block us₁ us₂ c rs hl hr =>
      rw [List.cons_append, List.append_assoc] at hts
      obtain rfl := (List.cons.inj hts).2
      refine ⟨.rparen :: (us₂ ++ rest'), c, ⟨us₁, rfl, hl⟩, ?_, us₂ ++ rest', rfl, us₂, rs, rfl, hr, rfl⟩
      intro t ht
      obtain rfl := Option.some.inj ht
      exact List.mem_singleton_self _
    | @simple us₁ us₂ ws rs rs' hr hw hlt =>
      -- nothing would be derived, and a parenthesis does not follow
      rcases hus : us₁ ++ us₂ with - | ⟨t, us⟩
      · rw [hus] at hts
        exact absurd (hF .lparen (by rw [← show Tok.lparen :: ts = rest' from hts]; rfl)) (by decide)
      · rw [hus] at hts
        obtain rfl := (List.cons.inj hts).1
        exact absurd hus (simple_ne_lparen hr hw)

/-- `parseexec` reads a command, if `parseline` reads what is in parentheses. -/
theorem parses_exec (hs : 0 ∉ s) (hat : At s ps ts) (hline : ∀ ts' ps, ts'.length < ts.length → At s ps ts' →
      ParsesAs s .line ts' fun n ↦ parseline s n ps) : ParsesAs s .exec ts fun n ↦ parseexec s n ps := by
  refine Parses.succ ?_
  obtain ⟨ps₁, hpeek, hat₁⟩ := peek_eq hs hat ['('] (by decide)
  simp only [parseexec, hpeek]
  by_cases hblock : ∃ ts', ts = .lparen :: ts'
  · obtain ⟨ts', rfl⟩ := hblock
    exact parses_block hs hat₁ fun ps hat ↦ hline ts' ps (Nat.lt_succ_self _) hat
  · have hstart : startsWith ['('] ts = false :=
      startsWith_eq_false (by decide) rfl hblock
    simp only [hstart, Bool.false_eq_true, if_false]
    refine (parses_redirs hs ts hat₁ (.exec .nil)).bind
      (G := fun rest c ↦ WordsFrom rest 0 c) ?_ ?_ ?_
    · intro cmd ps₂ rest c _ hat₂ hreads
      exact parses_args hs rest (by decide) hat₂ hreads
    · intro rest c rest' c' hD₁ hD₂
      obtain ⟨us₁, rs, rfl, hr, rfl⟩ := hD₁
      obtain ⟨us₂, ws, rs', rfl, hw, hlt, rfl⟩ := hD₂
      refine ⟨us₁ ++ us₂, (List.append_assoc ..).symm, ?_⟩
      rw [addArgs_wrap, addArgs_exec, ← wrap_append]
      rw [Nat.zero_add] at hlt
      exact .simple hr hw hlt
    · intro rest' c' hD hF
      obtain ⟨us, rfl, hderives⟩ := hD
      cases hderives with
      | block => exact absurd ⟨_, rfl⟩ hblock
      | @simple us₁ us₂ ws rs rs' hr hw hlt =>
        refine ⟨us₂ ++ rest', wrap (.exec []) rs, ⟨us₁, rs, List.append_assoc .., hr, rfl⟩, ?_,
          us₂, ws, rs', rfl, hw, by omega, ?_⟩
        · cases hw with
          | nil => exact startsWith_redirection_of_follow hF
          | cons => rfl
        · rw [addArgs_wrap, addArgs_exec, ← wrap_append]
          rfl

/-- What may come after a command: nothing, or the token `t` and what `nt` derives, which `op` joins to the command. -/
def TailFrom (t : Tok) (nt : Nonterminal) (op : Cmd (List UInt8) → Cmd (List UInt8) → Cmd (List UInt8)) (ts : List Tok)
    (c : Cmd (List UInt8)) (rest : List Tok) (c' : Cmd (List UInt8)) : Prop :=
  (rest = ts ∧ c' = c) ∨ ∃ mid d, ts = t :: mid ∧ DerivesFrom nt mid rest d ∧ c' = op c d

/-- The ends of `parsepipe` and `parseline`. -/
theorem parses_tail (hs : 0 ∉ s) (hat : At s ps ts) (hreads : Reads s cmd c) {t : Tok} {nt : Nonterminal} {x : Char}
    (htoks : [x].map ch ⊆ symbols) (ht : t ∈ [Tok.bar, .lparen, .rparen, .semi, .amp]) (hx : ch x = t.code)
    (hstart : ∀ mid, startsWith [x] (t :: mid) = true) (hnt : t ∉ follow nt)
    {op : Cmd (List UInt8) → Cmd (List UInt8) → Cmd (List UInt8)} {op' : Cmd Slice → Cmd Slice → Cmd Slice}
    (hop : ∀ {right d}, Reads s right d → Reads s (op' cmd right) (op c d)) {parse : ℕ → ℕ → Parse (Cmd Slice × ℕ)}
    (hparse : ∀ mid ps, ts = t :: mid → At s ps mid → ParsesAs s nt mid fun n ↦ parse n ps) :
    Parses s (Follow (follow nt)) (TailFrom t nt op ts c) fun n ↦ do
      let (more, ps) := peek s ps [x]
      if more then
        let (right, ps) ← parse n (gettoken s ps).ps
        return (op' cmd right, ps)
      else
        return (cmd, ps) := by
  obtain ⟨ps₁, hpeek, hat₁⟩ := peek_eq hs hat [x] htoks
  simp only [hpeek]
  by_cases hmore : ∃ mid, ts = t :: mid
  · obtain ⟨mid, rfl⟩ := hmore
    obtain ⟨-, hat₂, -⟩ := gettoken_cons hs hat₁
    simp only [hstart, if_true]
    refine (hparse mid _ rfl hat₂).bind (G := fun ts d rest c' ↦ rest = ts ∧ c' = op c d) ?_ ?_ ?_
    · intro right ps₃ rest d _ hat₃ hright
      exact .pure hat₃ (hop hright) ⟨rfl, rfl⟩ fun rest' c' hD _ ↦ hD
    · intro rest d rest' c' hD hrest
      obtain ⟨rfl, rfl⟩ := hrest
      exact .inr ⟨mid, d, rfl, hD, rfl⟩
    · intro rest' c' hD hF
      rcases hD with ⟨rfl, -⟩ | ⟨mid', d, heq, hD, rfl⟩
      · exact absurd (hF t rfl) hnt
      · obtain rfl := (List.cons.inj heq).2
        exact ⟨rest', d, hD, hF, rfl, rfl⟩
  · have hstop : startsWith [x] ts = false := startsWith_eq_false ht hx hmore
    simp only [hstop, Bool.false_eq_true, if_false]
    refine .pure hat₁ hreads (.inl ⟨rfl, rfl⟩) fun rest c' hD _ ↦ ?_
    rcases hD with hD | ⟨mid, d, heq, -⟩
    · exact hD
    · exact absurd ⟨mid, heq⟩ hmore

/-- `parsepipe` reads commands with bars between them. -/
theorem parses_pipe (hs : 0 ∉ s) (hat : At s ps ts) (hline : ∀ ts' ps, ts'.length < ts.length → At s ps ts' →
      ParsesAs s .line ts' fun n ↦ parseline s n ps) : ParsesAs s .pipe ts fun n ↦ parsepipe s n ps := by
  induction hn : ts.length using Nat.strong_induction_on generalizing ts ps with
  | _ n ih =>
  refine Parses.succ ?_
  refine (parses_exec hs hat hline).bind (G := TailFrom .bar .pipe .pipe) ?_ ?_ ?_
  · intro cmd ps₁ rest c hD hat₁ hreads
    obtain ⟨us, rfl, -⟩ := hD
    refine parses_tail hs hat₁ hreads (by decide) (by decide) rfl (fun _ ↦ rfl) (by decide) (.pipe hreads) ?_
    rintro mid ps rfl hat
    have hlen : mid.length < (us ++ .bar :: mid).length := by
      rw [List.length_append, List.length_cons]
      omega
    exact ih _ (hn ▸ hlen) hat (fun ts' ps hts' ↦ hline ts' ps (hts'.trans hlen)) rfl
  · intro rest c rest' c' hD₁ hD₂
    obtain ⟨us, rfl, hl⟩ := hD₁
    rcases hD₂ with ⟨rfl, rfl⟩ | ⟨mid, d, rfl, ⟨vs, rfl, hr⟩, rfl⟩
    · exact ⟨us, rfl, .single hl⟩
    · exact ⟨us ++ .bar :: vs, by rw [List.append_assoc]; rfl, .pipe hl hr⟩
  · intro rest' c' hD hF
    obtain ⟨us, rfl, hderives⟩ := hD
    cases hderives with
    | single hl =>
      refine ⟨rest', c', ⟨us, rfl, hl⟩, fun t ht ↦ ?_, .inl ⟨rfl, rfl⟩⟩
      exact List.mem_append_left [.bar] (hF t ht)
    | @pipe us₁ us₂ c d hl hr =>
      refine ⟨.bar :: (us₂ ++ rest'), c, ⟨us₁, by rw [List.append_assoc]; rfl, hl⟩, ?_,
        .inr ⟨us₂ ++ rest', d, rfl, ⟨us₂, rfl, hr⟩, rfl⟩⟩
      intro t ht
      obtain rfl := Option.some.inj ht
      decide

/-- `parseline` reads a line. -/
theorem parses_line (hs : 0 ∉ s) (hat : At s ps ts) : ParsesAs s .line ts fun n ↦ parseline s n ps := by
  induction hn : ts.length using Nat.strong_induction_on generalizing ts ps with
  | _ n ih =>
  refine Parses.succ ?_
  have hline : ∀ ts' ps, ts'.length < ts.length → At s ps ts' →
      ParsesAs s .line ts' fun n ↦ parseline s n ps :=
    fun ts' ps hlt hat ↦ ih _ (hn ▸ hlt) hat rfl
  -- After the pipe and `&` there may be `;` and another line.
  refine (parses_pipe hs hat hline).bind (G := fun rest c rest' c' ↦
    ∃ mid c₁, BacksFrom rest c mid c₁ ∧ TailFrom .semi .line .list mid c₁ rest' c') ?_ ?_ ?_
  · intro cmd ps₁ rest c hD hat₁ hreads
    obtain ⟨us, rfl, -⟩ := hD
    refine (parses_backs hs rest hat₁ hreads).bind (G := TailFrom .semi .line .list) ?_ ?_ ?_
    · intro cmd₁ ps₂ rest₁ c₁ hD₁ hat₂ hreads₁
      obtain ⟨k, rfl, -⟩ := hD₁
      refine parses_tail hs hat₂ hreads₁ (by decide) (by decide) rfl (fun _ ↦ rfl) (by decide) (.list hreads₁) ?_
      rintro mid ps rfl hat
      refine hline mid ps ?_ hat
      rw [List.length_append, List.length_append, List.length_cons]
      omega
    · intro mid c₁ rest' c' hD₁ hD₂
      exact ⟨mid, c₁, hD₁, hD₂⟩
    · intro rest' c' hD hF
      obtain ⟨mid, c₁, hD₁, hD₂⟩ := hD
      refine ⟨mid, c₁, hD₁, ?_, hD₂⟩
      rcases hD₂ with ⟨rfl, -⟩ | ⟨mid', d, rfl, -⟩
      · rcases rest' with - | ⟨t, rest'⟩
        · rfl
        · obtain rfl := List.mem_singleton.1 (hF t rfl)
          rfl
      · rfl
  · intro rest c rest' c' hD₁ hD₂
    obtain ⟨us, rfl, hl⟩ := hD₁
    obtain ⟨mid, c₁, ⟨k, rfl, rfl⟩, hD₂⟩ := hD₂
    rcases hD₂ with ⟨rfl, rfl⟩ | ⟨mid', d, rfl, ⟨vs, rfl, hr⟩, rfl⟩
    · exact ⟨us ++ List.replicate k .amp, (List.append_assoc ..).symm, .last k hl⟩
    · refine ⟨us ++ (List.replicate k .amp ++ .semi :: vs), ?_, .seq k hl hr⟩
      rw [List.append_assoc, List.append_assoc]
      rfl
  · intro rest' c' hD hF
    obtain ⟨us, rfl, hderives⟩ := hD
    have hreplicate : ∀ (k : ℕ) (l : List Tok), Follow (follow .pipe) l →
        Follow (follow .pipe) (List.replicate k .amp ++ l) := by
      intro k l hl
      cases k with
      | zero => exact hl
      | succ k =>
        intro t ht
        obtain rfl := Option.some.inj ht
        decide
    cases hderives with
    | @last us₁ c k hl =>
      refine ⟨List.replicate k .amp ++ rest', c, ⟨us₁, List.append_assoc .., hl⟩,
        hreplicate k rest' fun t ht ↦ ?_, rest', _, ⟨k, rfl, rfl⟩, .inl ⟨rfl, rfl⟩⟩
      exact List.mem_append_left [.amp, .semi] (hF t ht)
    | @seq us₁ us₂ c d k hl hr =>
      refine ⟨List.replicate k .amp ++ (.semi :: (us₂ ++ rest')), c, ⟨us₁, ?_, hl⟩,
        hreplicate k _ fun t ht ↦ ?_, .semi :: (us₂ ++ rest'), _, ⟨k, rfl, rfl⟩,
        .inr ⟨us₂ ++ rest', d, rfl, ⟨us₂, rfl, hr⟩, rfl⟩⟩
      · rw [List.append_assoc, List.append_assoc]
        rfl
      · obtain rfl := Option.some.inj ht
        decide

/-! ### The strings -/

/-- The line after some of the NULs of `nulterminate` have been stored. -/
structure Cut (s buf : List UInt8) : Prop where
  length : buf.length = s.length + 1
  keep : ∀ (i : ℕ) c, s[i]? = some c → wordChar c = true → buf[i]? = some c

section Cut

variable {buf : List UInt8} {x : Slice} {w : List UInt8}

theorem Cut.init (s : List UInt8) : Cut s (s ++ [0]) where
  length := List.length_append
  keep := fun i c hc _ ↦ by
    rw [List.getElem?_append_left (List.getElem?_eq_some_iff.1 hc).1, hc]

/-- A NUL is stored at the end of a word. -/
theorem Cut.set (h : Cut s buf) (hx : IsWord s x w) : Cut s (buf.set x.eq 0) where
  length := by rw [List.length_set, h.length]
  keep := fun i c hc hword ↦ by
    rw [List.getElem?_set_ne, h.keep i c hc hword]
    rintro rfl
    exact nomatch (hx.stop c hc).symm.trans hword

/-- `nulterminate` ends a word. -/
theorem Cut.getElem?_set (h : Cut s buf) (hx : IsWord s x w) : (buf.set x.eq 0)[x.eq]? = some 0 := by
  have hlen := congrArg List.length hx.drop
  rw [List.length_append, List.length_drop, List.length_drop] at hlen
  have hpos := List.length_pos_of_ne_nil hx.ne_nil
  have heq := hx.eq
  refine List.getElem?_set_self ?_
  rw [h.length]
  omega

theorem getElem?_set_zero {i j : ℕ} (h : buf[i]? = some 0) : (buf.set j 0)[i]? = some 0 := by
  rw [List.getElem?_set]
  split
  next heq =>
    rw [heq, if_pos (List.getElem?_eq_some_iff.1 h).1]
  · exact h

/-- A word with a NUL at its end is a string. -/
theorem Cut.cstring_eq (h : Cut s buf) (hs : 0 ∉ s) (hx : IsWord s x w) (hnul : buf[x.eq]? = some 0) :
    cstring buf x = w := by
  have hdrop : buf.drop x.q = w ++ buf.drop x.eq := by
    refine List.ext_getElem? fun i ↦ ?_
    rw [List.getElem?_drop, List.getElem?_append]
    split
    next hi =>
      have hsome : s[x.q + i]? = w[i]? := by
        rw [← List.getElem?_drop, hx.drop, List.getElem?_append_left hi]
      have hw : w[i]? = some w[i] := List.getElem?_eq_getElem hi
      rw [hw] at hsome ⊢
      exact h.keep _ _ hsome (hx.chars _ (List.getElem_mem hi))
    next hi =>
      have heq := hx.eq
      rw [List.getElem?_drop]
      congr 1
      omega
  obtain ⟨r, hr⟩ : ∃ r, buf.drop x.eq = 0 :: r := by
    rw [← List.head?_drop] at hnul
    exact List.head?_eq_some_iff.1 hnul
  have hmem : ∀ c ∈ w, c ∈ s := fun c hc ↦
    List.mem_of_mem_drop (i := x.q) (hx.drop ▸ List.mem_append_left _ hc)
  rw [cstring, hdrop, hr, List.takeWhile_append_of_pos, List.takeWhile_cons_of_neg, List.append_nil]
  · decide
  · intro c hc
    exact decide_eq_true fun heq : c = 0 ↦ hs (heq ▸ hmem c hc)

end Cut

/-- After `nulterminate` the pointers in the tree point to the words, and it stays so when more NULs are
stored. -/
theorem nulterminate_spec (hs : 0 ∉ s) (h : Reads s cmd c) {buf : List UInt8} (hcut : Cut s buf) :
    Cut s (nulterminate buf cmd) ∧ (∀ i : ℕ, buf[i]? = some 0 → (nulterminate buf cmd)[i]? = some 0) ∧
      ∀ buf', Cut s buf' → (∀ i : ℕ, (nulterminate buf cmd)[i]? = some 0 → buf'[i]? = some 0) →
        cmd.map (cstring buf') = c := by
  induction h generalizing buf with
  | @exec xs ws hxs =>
    have hargs : Cut s (nulterminate buf (.exec xs)) ∧
        (∀ i : ℕ, buf[i]? = some 0 → (nulterminate buf (.exec xs))[i]? = some 0) ∧
        ∀ buf', Cut s buf' → (∀ i : ℕ, (nulterminate buf (.exec xs))[i]? = some 0 → buf'[i]? = some 0) →
          xs.map (cstring buf') = ws := by
      induction hxs generalizing buf with
      | nil => exact ⟨hcut, fun _ h ↦ h, fun _ _ _ ↦ rfl⟩
      | @cons x w xs ws hx hxs ih =>
        obtain ⟨hcut', hzero, hmap⟩ := ih (hcut.set hx)
        refine ⟨hcut', fun i hi ↦ hzero i (getElem?_set_zero hi), fun buf' hbuf' hle ↦ ?_⟩
        rw [List.map_cons, hbuf'.cstring_eq hs hx (hle _ (hzero _ (hcut.getElem?_set hx))),
          hmap buf' hbuf' hle]
    obtain ⟨hcut', hzero, hmap⟩ := hargs
    exact ⟨hcut', hzero, fun buf' hbuf' hle ↦ congrArg Cmd.exec (hmap buf' hbuf' hle)⟩
  | @redir c d x w mode fd _ hx ih =>
    obtain ⟨hcut', hzero, hmap⟩ := ih hcut
    refine ⟨hcut'.set hx, fun i hi ↦ getElem?_set_zero (hzero i hi), fun buf' hbuf' hle ↦ ?_⟩
    rw [Cmd.map, hmap buf' hbuf' fun i hi ↦ hle i (getElem?_set_zero hi),
      hbuf'.cstring_eq hs hx (hle _ (hcut'.getElem?_set hx))]
  | pipe _ _ ih₁ ih₂ | list _ _ ih₁ ih₂ =>
    obtain ⟨hcut₁, hzero₁, hmap₁⟩ := ih₁ hcut
    obtain ⟨hcut₂, hzero₂, hmap₂⟩ := ih₂ hcut₁
    refine ⟨hcut₂, fun i hi ↦ hzero₂ i (hzero₁ i hi), fun buf' hbuf' hle ↦ ?_⟩
    rw [Cmd.map, hmap₁ buf' hbuf' fun i hi ↦ hle i (hzero₂ i hi), hmap₂ buf' hbuf' hle]
  | back _ ih =>
    obtain ⟨hcut', hzero, hmap⟩ := ih hcut
    exact ⟨hcut', hzero, fun buf' hbuf' hle ↦ congrArg Cmd.back (hmap buf' hbuf' hle)⟩

/-! ### The parser -/

/-- **The parser is correct.** For every line without a NUL, `parsecmd` comes to an end. It returns a tree
exactly when the tokens of the line derive from `line`, and then its strings and its shape are those of the
derivation; otherwise it reports an error. -/
theorem parsecmd_correct (s : List UInt8) (hs : 0 ∉ s) : ∃ r, Returns (parsecmd s) r ∧
    ∀ c, (∃ cmd buf, r = .ok (cmd, buf) ∧ cmd.map (cstring buf) = c) ↔
      Derives .line (tokens s) c := by
  have hat : At s 0 (tokens s) := ⟨Nat.zero_le _, rfl⟩
  obtain ⟨r, hr, hsound, hcomplete⟩ := parses_line hs hat
  cases r with
  | error e =>
    refine ⟨.error e, hr.bind_error, fun c ↦ ⟨fun h ↦ ?_, fun h ↦ ?_⟩⟩
    · obtain ⟨cmd, buf, hok, -⟩ := h
      cases hok
    · obtain ⟨cmd, ps, hok, -⟩ := hcomplete [] c ⟨_, (List.append_nil _).symm, h⟩ nofun
      cases hok
  | ok p =>
    obtain ⟨cmd, ps⟩ := p
    obtain ⟨rest, c₀, ⟨us, hts, hderives⟩, hat', hreads⟩ := hsound cmd ps rfl
    have hstrings : cmd.map (cstring (nulterminate (s ++ [0]) cmd)) = c₀ := by
      obtain ⟨hcut, -, hmap⟩ := nulterminate_spec hs hreads (.init s)
      exact hmap _ hcut fun _ h ↦ h
    by_cases hend : rest = []
    · have hlen := (peek_nil hs hat').2 hend
      refine ⟨.ok (cmd, nulterminate (s ++ [0]) cmd), hr.bind_ok (.of_forall fun n ↦ ?_), fun c ↦
        ⟨fun h ↦ ?_, fun h ↦ ?_⟩⟩
      · exact (if_neg (not_not_intro hlen)).trans rfl
      · obtain ⟨cmd', buf, hok, rfl⟩ := h
        obtain ⟨rfl, rfl⟩ := Prod.mk.inj (Except.ok.inj hok)
        rw [hstrings, hts, hend, List.append_nil]
        exact hderives
      · obtain ⟨cmd', ps', hok, -, hreads'⟩ :=
          hcomplete [] c ⟨_, (List.append_nil _).symm, h⟩ nofun
        obtain ⟨rfl, rfl⟩ := Prod.mk.inj (Except.ok.inj hok)
        obtain rfl := hreads'.unique (fun _ _ _ h h' ↦ h.unique h') hreads
        exact ⟨cmd, _, rfl, hstrings⟩
    · have hlen : (peek s ps []).2 ≠ s.length := fun h ↦ hend ((peek_nil hs hat').1 h)
      refine ⟨.error (.leftovers (s.drop (peek s ps []).2)), hr.bind_ok (.of_forall fun n ↦ ?_),
        fun c ↦ ⟨fun h ↦ ?_, fun h ↦ ?_⟩⟩
      · exact (if_pos hlen).trans rfl
      · obtain ⟨cmd', buf, hok, -⟩ := h
        cases hok
      · obtain ⟨cmd', ps', hok, hat'', -⟩ :=
          hcomplete [] c ⟨_, (List.append_nil _).symm, h⟩ nofun
        obtain ⟨rfl, rfl⟩ := Prod.mk.inj (Except.ok.inj hok)
        exact absurd (hat'.tokens.symm.trans hat''.tokens) hend

/-- `a <b|(c)&` -/
theorem parsecmd_correct_pipe : ∃ r, Returns (parsecmd ("a <b|(c)&".toList.map ch)) r ∧
    ∀ c, (∃ cmd buf, r = .ok (cmd, buf) ∧ cmd.map (cstring buf) = c) ↔
      Derives .line (tokens ("a <b|(c)&".toList.map ch)) c :=
  parsecmd_correct _ (by decide)

/-- **The NULs do not spoil the words.** When `parsecmd` returns a tree, every string in it, read up to its NUL from
the line with all NULs stored, is the word from `q` to `eq` that it was parsed from. -/
theorem strings_are_words (hs : 0 ∉ s) {buf : List UInt8} (h : Returns (parsecmd s) (.ok (cmd, buf))) :
    cmd.Rel (IsWord s) (cmd.map (cstring buf)) := by
  have hat : At s 0 (tokens s) := ⟨Nat.zero_le _, rfl⟩
  obtain ⟨r, hr, hsound, -⟩ := parses_line hs hat
  cases r with
  | error e => cases h.unique hr.bind_error
  | ok p =>
    obtain ⟨cmd₀, ps⟩ := p
    obtain ⟨-, c, -, -, hreads⟩ := hsound cmd₀ ps rfl
    by_cases hlen : (peek s ps []).2 = s.length
    · have hok := h.unique (hr.bind_ok (.of_forall fun n ↦ (if_neg (not_not_intro hlen)).trans rfl))
      obtain ⟨rfl, rfl⟩ := Prod.mk.inj (Except.ok.inj hok)
      obtain ⟨hcut, -, hmap⟩ := nulterminate_spec hs hreads (.init s)
      rw [hmap _ hcut fun _ h ↦ h]
      exact hreads
    · exact nomatch h.unique (hr.bind_ok (.of_forall fun n ↦ (if_pos hlen).trans rfl))

/-- `a>b`, where a NUL replaces the symbol. -/
theorem strings_are_words_redir : ∃ cmd, Returns (parsecmd ("a>b".toList.map ch)) (.ok (cmd, [ch 'a', 0, ch 'b', 0])) ∧
    cmd.Rel (IsWord ("a>b".toList.map ch)) (cmd.map (cstring [ch 'a', 0, ch 'b', 0])) := by
  have h : Returns (parsecmd ("a>b".toList.map ch)) (.ok (.redir (.exec [⟨0, 1⟩]) ⟨2, 3⟩ (O_WRONLY ||| O_CREATE) 1,
      [ch 'a', 0, ch 'b', 0])) := by
    refine ⟨7, fun m hm ↦ ?_⟩
    obtain ⟨k, rfl⟩ := Nat.exists_eq_add_of_le' hm
    rfl
  exact ⟨_, h, strings_are_words (by decide) h⟩

end Sh

end Xv6
