import Mathlib.Computability.Language

/-!
# The pattern matcher of `grep`

`match`, `matchhere` and `matchstar` of `grep.c`. A string is the list of its characters before the NUL, so that
`re[0] == '\0'` says that the list is empty. `matchhere` and `matchstar` call each other; the recursion is on the
pattern, and in `matchstar` on the text.

A pattern is a sequence of items, with `*` behind what is repeated, and `$` may stand at the end. The code finds a
match exactly if a part of the text is in the language of the items (`isMatch_iff`).
-/

namespace Xv6

namespace Grep

/-- A character constant. -/
def ch (c : Char) : UInt8 := c.toUInt8

/-- `matchstar(c, re, text)`: search for `c*re` at beginning of text. Here `here` is `matchhere(re, ·)`. -/
def matchstar (c : UInt8) (here : List UInt8 → Bool) : List UInt8 → Bool
  | [] => here []
  | t :: text => here (t :: text) || ((t = c || c = ch '.') && matchstar c here text)

/-- `if(*text!='\0' && (c=='.' || c==*text)) return matchhere(re, text+1); return 0;`. -/
def matchone (c : UInt8) (here : List UInt8 → Bool) : List UInt8 → Bool
  | [] => false
  | t :: text => (c = ch '.' || c = t) && here text

/-- Search for `re` at beginning of text. -/
def matchhere : List UInt8 → List UInt8 → Bool
  | [] => fun _ ↦ true
  | [c] => if c = ch '$' then List.isEmpty else matchone c fun text ↦ matchhere [] text
  | c :: s :: re =>
    if s = ch '*' then
      matchstar c fun text ↦ matchhere re text
    else
      matchone c fun text ↦ matchhere (s :: re) text

/-- The loop of `match`: it must look at the empty string. -/
def search (re : List UInt8) : List UInt8 → Bool
  | [] => matchhere re []
  | t :: text => matchhere re (t :: text) || search re text

/-- `match(re, text)`. -/
def isMatch (re text : List UInt8) : Bool :=
  if re.head? = some (ch '^') then
    matchhere re.tail text
  else
    search re text

/-! ### The language of a pattern -/

/-- An item of a pattern: a character, where `.` is any, once or any number of times. -/
inductive Item where
  | once (c : UInt8)
  | many (c : UInt8)

/-- The character `t` is one that `c` stands for. -/
def Stands (c t : UInt8) : Prop := c = ch '.' ∨ c = t

/-- The strings of one character that `c` stands for. -/
def charLanguage (c : UInt8) : Language UInt8 := {w | ∃ t, Stands c t ∧ w = [t]}

open Computability in
/-- What an item matches. -/
def Item.language : Item → Language UInt8
  | .once c => charLanguage c
  | .many c => (charLanguage c)∗

/-- The items of a pattern, and whether there is a `$` at its end. -/
def items : List UInt8 → List Item × Bool
  | [] => ([], false)
  | [c] => if c = ch '$' then ([], true) else ([.once c], false)
  | c :: s :: re =>
    if s = ch '*' then
      (.many c :: (items re).1, (items re).2)
    else
      (.once c :: (items (s :: re)).1, (items (s :: re)).2)

/-- The language of a sequence of items. -/
def language (is : List Item) : Language UInt8 := (is.map Item.language).prod

/-- The text begins with a string of the language of the items, and with `eol` that is all of it. -/
def Begins (is : List Item) (eol : Bool) (text : List UInt8) : Prop :=
  ∃ w rest, text = w ++ rest ∧ w ∈ language is ∧ (eol = true → rest = [])

/-! ### The matcher -/

section

variable {c : UInt8} {re text : List UInt8} {is : List Item} {eol : Bool}

theorem begins_once : Begins (.once c :: is) eol text ↔
    ∃ t text', text = t :: text' ∧ Stands c t ∧ Begins is eol text' := by
  constructor
  · intro ⟨w, rest, htext, hw, heol⟩
    obtain ⟨_, ⟨t, ht, rfl⟩, w', hw', rfl⟩ := Language.mem_mul.1 hw
    exact ⟨t, w' ++ rest, htext, ht, w', rest, rfl, hw', heol⟩
  · rintro ⟨t, _, htext, ht, w, rest, rfl, hw, heol⟩
    have ht : [t] ∈ charLanguage c := ⟨t, ht, rfl⟩
    exact ⟨t :: w, rest, htext, Language.append_mem_mul ht hw, heol⟩

open Computability in
/-- A repetition is empty, or it begins with a character. -/
theorem begins_many : Begins (.many c :: is) eol text ↔ Begins is eol text ∨
    ∃ t text', text = t :: text' ∧ Stands c t ∧ Begins (.many c :: is) eol text' := by
  have hstar : language (.many c :: is) = language is + language (.once c :: .many c :: is) := by
    show (charLanguage c)∗ * language is = language is + charLanguage c * ((charLanguage c)∗ * language is)
    rw [← mul_assoc, ← one_add_mul, Language.one_add_self_mul_kstar_eq_kstar]
  rw [← begins_once]
  constructor
  · intro ⟨w, rest, htext, hw, heol⟩
    rw [hstar] at hw
    exact hw.imp (fun hw ↦ ⟨w, rest, htext, hw, heol⟩) fun hw ↦ ⟨w, rest, htext, hw, heol⟩
  · intro h
    rcases h with ⟨w, rest, htext, hw, heol⟩ | ⟨w, rest, htext, hw, heol⟩
    · exact ⟨w, rest, htext, hstar ▸ .inl hw, heol⟩
    · exact ⟨w, rest, htext, hstar ▸ .inr hw, heol⟩

theorem begins_nil : Begins [] eol text ↔ (eol = true → text = []) := by
  constructor
  · intro ⟨w, rest, htext, hw, heol⟩ h
    rw [htext, (Language.mem_one w).1 hw, heol h]
    rfl
  · exact fun h ↦ ⟨[], text, rfl, Language.nil_mem_one, h⟩

theorem matchstar_iff {here : List UInt8 → Bool} (h : ∀ text, here text = true ↔ Begins is eol text) :
    matchstar c here text = true ↔ Begins (.many c :: is) eol text := by
  induction text with
  | nil =>
    rw [matchstar, h, begins_many]
    exact ⟨.inl, fun h ↦ h.resolve_right fun ⟨_, _, h, _⟩ ↦ nomatch h⟩
  | cons t text ih =>
    rw [matchstar, begins_many, Bool.or_eq_true, h, Bool.and_eq_true, ih, Bool.or_eq_true, decide_eq_true_eq,
      decide_eq_true_eq]
    refine or_congr_right ⟨fun ⟨ht, hb⟩ ↦ ⟨t, text, rfl, ht.symm.imp_right Eq.symm, hb⟩, ?_⟩
    rintro ⟨_, _, ⟨⟩, ht, hb⟩
    exact ⟨ht.symm.imp_left Eq.symm, hb⟩

theorem matchone_iff {here : List UInt8 → Bool} (h : ∀ text, here text = true ↔ Begins is eol text) :
    matchone c here text = true ↔ Begins (.once c :: is) eol text := by
  rw [begins_once]
  cases text with
  | nil => exact iff_of_false nofun fun ⟨_, _, h, _⟩ ↦ nomatch h
  | cons t text =>
    rw [matchone, Bool.and_eq_true, h, Bool.or_eq_true, decide_eq_true_eq, decide_eq_true_eq]
    refine ⟨fun h ↦ ⟨t, text, rfl, h⟩, ?_⟩
    rintro ⟨_, _, ⟨⟩, h⟩
    exact h

theorem matchhere_iff : matchhere re text = true ↔ Begins (items re).1 (items re).2 text := by
  induction re using items.induct generalizing text with
  | case1 => exact iff_of_true rfl (begins_nil.2 nofun)
  | case2 =>
    rw [matchhere, items, if_pos rfl, if_pos rfl, begins_nil, List.isEmpty_iff]
    exact ⟨fun h _ ↦ h, fun h ↦ h rfl⟩
  | case3 c hc =>
    rw [matchhere, items, if_neg hc, if_neg hc]
    exact matchone_iff fun _ ↦ iff_of_true rfl (begins_nil.2 nofun)
  | case4 c re ih =>
    rw [matchhere, items, if_pos rfl, if_pos rfl]
    exact matchstar_iff fun _ ↦ ih
  | case5 c s re hs ih =>
    rw [matchhere, items, if_neg hs, if_neg hs]
    exact matchone_iff fun _ ↦ ih

/-- The loop of `match` looks at every rest of the text. -/
theorem search_iff : search re text = true ↔ ∃ p rest, text = p ++ rest ∧ matchhere re rest = true := by
  induction text with
  | nil =>
    rw [search]
    refine ⟨fun h ↦ ⟨[], [], rfl, h⟩, ?_⟩
    intro ⟨p, rest, htext, h⟩
    rwa [(List.append_eq_nil_iff.1 htext.symm).2] at h
  | cons t text ih =>
    rw [search, Bool.or_eq_true, ih]
    constructor
    · rintro (h | ⟨p, rest, rfl, h⟩)
      · exact ⟨[], t :: text, rfl, h⟩
      · exact ⟨t :: p, rest, rfl, h⟩
    · rintro ⟨p, rest, htext, h⟩
      cases p with
      | nil => exact .inl (htext ▸ h)
      | cons t' p => exact .inr ⟨p, rest, (List.cons.inj htext).2, h⟩

end

/-- The pattern without `^`, and whether it was there. -/
def unanchored (re : List UInt8) : List UInt8 × Bool :=
  if re.head? = some (ch '^') then (re.tail, true) else (re, false)

/-- **The matcher is correct.** It succeeds exactly if a part of the text is in the language of the pattern: one at
the beginning if there is a `^` before it, and one at the end if there is a `$` behind it. -/
theorem isMatch_iff (re text : List UInt8) : isMatch re text = true ↔
    ∃ p w rest, text = p ++ w ++ rest ∧ w ∈ language (items (unanchored re).1).1 ∧
      ((unanchored re).2 = true → p = []) ∧ ((items (unanchored re).1).2 = true → rest = []) := by
  rw [isMatch, unanchored]
  split
  · rw [matchhere_iff]
    constructor
    · intro ⟨w, rest, htext, hw, heol⟩
      exact ⟨[], w, rest, htext, hw, fun _ ↦ rfl, heol⟩
    · intro ⟨p, w, rest, htext, hw, hp, heol⟩
      exact ⟨w, rest, by rw [htext, hp rfl]; rfl, hw, heol⟩
  · simp only [search_iff, matchhere_iff]
    constructor
    · rintro ⟨p, _, rfl, w, rest, rfl, hw, heol⟩
      exact ⟨p, w, rest, (List.append_assoc ..).symm, hw, nofun, heol⟩
    · intro ⟨p, w, rest, htext, hw, _, heol⟩
      exact ⟨p, w ++ rest, by rw [htext, List.append_assoc], w, rest, rfl, hw, heol⟩

end Grep

end Xv6
