import Xv6.Malloc.Basic
import Xv6.Lib.Machine

/-!
# The list of free blocks

The free blocks are in a cycle that begins at `base`, in the order of their addresses, and there is always
something between two of them. Together with the blocks that the program has they take up exactly the memory
that has been obtained from `sbrk` (`free_list`).

The cycle is described as a list of blocks that begins with the one of `base`, which has length 0. In the list,
`free` and `malloc` change one place: `free` links the block in behind the last one below it, and `malloc` takes a
block or the end of it.
-/

namespace Xv6

open Function

namespace Malloc

open Region

/-! ### Links -/

/-- Where a list begins. -/
def first (stop : ℕ) : List Region → ℕ
  | [] => stop
  | b :: _ => b.addr

/-- The headers of the blocks link them in this order, and the last one to `stop`. -/
def Linked (hdr : ℕ → Header) (stop : ℕ) : List Region → Prop
  | [] => True
  | b :: l => (hdr b.addr).ptr = first stop l ∧ 8 * (hdr b.addr).size = b.len ∧ Linked hdr stop l

variable {hdr hdr' : ℕ → Header} {stop : ℕ} {l m : List Region} {b c : Region}

theorem first_append (stop : ℕ) (l m : List Region) : first stop (l ++ m) = first (first stop m) l := by
  cases l with
  | nil | cons b l => rfl

theorem linked_cons : Linked hdr stop (b :: l) ↔
    (hdr b.addr).ptr = first stop l ∧ 8 * (hdr b.addr).size = b.len ∧ Linked hdr stop l :=
  Iff.rfl

theorem linked_append : Linked hdr stop (l ++ m) ↔ Linked hdr (first stop m) l ∧ Linked hdr stop m := by
  induction l with
  | nil => exact (iff_of_eq (true_and _)).symm
  | cons b l ih =>
    rw [List.cons_append, linked_cons, linked_cons, ih, first_append]
    simp only [and_assoc]

/-- Other headers do not matter. -/
theorem Linked.congr (h : Linked hdr stop l) (heq : ∀ b ∈ l, hdr' b.addr = hdr b.addr) :
    Linked hdr' stop l := by
  induction l with
  | nil => trivial
  | cons b l ih =>
    obtain ⟨hptr, hsize, hl⟩ := h
    refine ⟨?_, ?_, ih hl fun c hc ↦ heq c (List.mem_cons_of_mem _ hc)⟩
    · rw [heq b List.mem_cons_self, hptr]
    · rw [heq b List.mem_cons_self, hsize]

theorem join_of_ne (hdr : ℕ → Header) {b next a : ℕ} (h : a ≠ b) : join hdr b next a = hdr a := by
  rw [join]
  split
  all_goals exact update_of_ne h _ _

/-- `join` links a block in front of a list. -/
theorem linked_join (h : Linked hdr stop l) (hb : ∀ c ∈ l, b.addr ≠ c.addr)
    (hsize : 8 * (hdr b.addr).size = b.len) (hstop : l = [] → b.stop ≠ stop)
    (hlt : ∀ c ∈ b :: l, c.stop < 2 ^ 32) :
    Linked (join hdr b.addr (first stop l)) stop (link b l) := by
  have hplus : plus b.addr (hdr b.addr).size = b.stop := by
    rw [plus, hsize, ← Region.stop, Nat.mod_eq_of_lt (hlt b List.mem_cons_self)]
  cases l with
  | nil =>
    have hne : b.stop ≠ first stop [] := hstop rfl
    rw [join, hplus, if_neg hne]
    refine ⟨?_, ?_, trivial⟩
    · rw [update_self]
    · rw [update_self, hsize]
  | cons c l =>
    obtain ⟨hptr, hcsize, hl⟩ := h
    rw [join, hplus, link]
    split
    next heq =>
      have heq : b.stop = c.addr := heq
      rw [if_pos heq]
      have hl' : Linked (update hdr b.addr ⟨(hdr c.addr).ptr,
          ((hdr b.addr).size + (hdr c.addr).size) % 2 ^ 32⟩) stop l := by
        refine hl.congr fun d hd ↦ update_of_ne (hb d (List.mem_cons_of_mem _ hd)).symm _ _
      refine ⟨?_, ?_, hl'⟩
      · rw [update_self]
        exact hptr
      · have hc := hlt c (List.mem_cons_of_mem _ List.mem_cons_self)
        simp only [Region.stop] at heq hc
        rw [update_self]
        show 8 * (((hdr b.addr).size + (hdr c.addr).size) % 2 ^ 32) = b.len + c.len
        omega
    next hne =>
      have hne : b.stop ≠ c.addr := hne
      rw [if_neg hne]
      have hupdate : ∀ d ∈ c :: l, update hdr b.addr ⟨c.addr, (hdr b.addr).size⟩ d.addr =
          hdr d.addr := fun d hd ↦ update_of_ne (hb d hd).symm _ _
      refine ⟨?_, ?_, Linked.congr ⟨hptr, hcsize, hl⟩ hupdate⟩
      · rw [update_self]
      · rw [update_self]
        exact hsize

/-! ### The heap -/

/-- The free blocks are `L`, of which the first one is that of `base`, other blocks are `others`, and the memory is
what has been obtained from `sbrk` in the segments `segs`. -/
structure HeapInv (base : ℕ) (h : Heap) (L others segs : List Region) : Prop where
  /-- The list begins with `base`. -/
  head : L.head? = some ⟨base, 0⟩
  linked : Linked h.hdr base L
  apart : L.IsChain Apart
  base_or_pos : ∀ b ∈ L, b = ⟨base, 0⟩ ∨ 0 < b.len
  /-- `freep` points to a block of the list. -/
  freep : ∃ b ∈ L, b.addr = h.freep
  sizes : ∀ b ∈ others, 8 * (h.hdr b.addr).size = b.len ∧ 0 < b.len
  tile : ∀ x, cover x (L ++ others) = cover x segs
  fresh : ∀ x, cover x segs ≤ 1
  /-- `base` is an address. -/
  base_pos : 0 < base
  base_lt : base < 2 ^ 32
  range : ∀ s ∈ segs, base + 8 ≤ s.addr ∧ s.stop < 2 ^ 32

instance : Trans Apart Apart Apart where
  trans := Apart.trans

namespace HeapInv

variable {base : ℕ} {h : Heap} {L others segs : List Region}

theorem pairwise (hi : HeapInv base h L others segs) : L.Pairwise Apart :=
  List.isChain_iff_pairwise.1 hi.apart

theorem eq_cons (hi : HeapInv base h L others segs) : L = ⟨base, 0⟩ :: L.tail := by
  obtain ⟨l, hl⟩ := List.head?_eq_some_iff.1 hi.head
  rw [hl]
  rfl

variable {d c : Region}

/-- A block of memory is in the range of what has been obtained. -/
theorem range_of_mem (hi : HeapInv base h L others segs) (hb : b ∈ L ++ others) (hpos : 0 < b.len) :
    base + 8 ≤ b.addr ∧ b.stop < 2 ^ 32 := by
  have hcover : ∀ x, b.Has x → ∃ s ∈ segs, s.Has x := by
    intro x hx
    rw [← cover_pos, ← hi.tile x]
    exact cover_pos.2 ⟨b, hb, hx⟩
  obtain ⟨s, hs, hsx⟩ := hcover b.addr ⟨Nat.le_refl _, by rw [Region.stop]; omega⟩
  obtain ⟨t, ht, htx⟩ := hcover (b.addr + b.len - 1) ⟨by omega, by rw [Region.stop]; omega⟩
  have hrs := (hi.range s hs).1
  have hrt := (hi.range t ht).2
  have hlt := htx.2
  refine ⟨hrs.trans hsx.1, ?_⟩
  rw [Region.stop]
  omega

/-- The first of the others is disjoint from all blocks. -/
theorem disjoint_cons (hi : HeapInv base h L (d :: others) segs) (hc : c ∈ L ++ others) (hpos : 0 < c.len) :
    d.stop ≤ c.addr ∨ c.stop ≤ d.addr := by
  refine disjoint_of_cover (fun x ↦ ?_) hc (hi.sizes d List.mem_cons_self).2 hpos
  have hperm : List.Perm (L ++ d :: others) (d :: (L ++ others)) := List.perm_middle
  rw [← cover_perm hperm, hi.tile]
  exact hi.fresh x

variable (hi : HeapInv base h L others segs)

include hi

/-- The order of the others does not matter. -/
theorem perm {others' : List Region} (hp : others.Perm others') : HeapInv base h L others' segs :=
  { hi with
    sizes := fun d hd ↦ hi.sizes d (hp.mem_iff.2 hd)
    tile := fun x ↦ by rw [← cover_perm (hp.append_left L), hi.tile] }

/-- Free blocks and others are disjoint. -/
theorem disjoint (hc : c ∈ L) (hd : d ∈ others) (hpos : 0 < c.len) :
    c.stop ≤ d.addr ∨ d.stop ≤ c.addr :=
  ((hi.perm (List.perm_cons_erase hd)).disjoint_cons (List.mem_append_left _ hc) hpos).symm

theorem base_le (hc : c ∈ L) : base ≤ c.addr ∧ c.stop < 2 ^ 32 := by
  rcases hi.base_or_pos _ hc with rfl | hpos
  · exact ⟨Nat.le_refl _, hi.base_lt⟩
  · have hrange := hi.range_of_mem (List.mem_append_left _ hc) hpos
    exact ⟨by omega, hrange.2⟩

/-- The headers of free blocks and of others are at different addresses. -/
theorem addr_ne (hc : c ∈ L) (hd : d ∈ others) : c.addr ≠ d.addr := by
  have hdpos := (hi.sizes d hd).2
  rcases hi.base_or_pos _ hc with rfl | hpos
  · have hrange := (hi.range_of_mem (List.mem_append_right _ hd) hdpos).1
    exact (Nat.lt_of_lt_of_le (Nat.lt_add_of_pos_right (by decide)) hrange).ne
  · have hdisjoint := hi.disjoint hc hd hpos
    simp only [Region.stop] at hdisjoint
    omega

end HeapInv

/-! ### The loop of `free` -/

section FreeLoop

variable {ε : Type} {base bp : ℕ}

/-- The loop goes on to the next block. -/
theorem freeLoop_next {p : ℕ} {r : Except ε ℕ} (h₁ : ¬(bp > p ∧ bp < (hdr p).ptr))
    (h₂ : ¬(p ≥ (hdr p).ptr ∧ (bp > p ∨ bp < (hdr p).ptr)))
    (h : Returns (fun n ↦ freeLoop hdr bp n (hdr p).ptr) r) :
    Returns (fun n ↦ freeLoop hdr bp n p) r := by
  refine .succ ?_
  simp only [freeLoop, h₁, h₂, if_false]
  exact h

/-- The loop stops. -/
theorem freeLoop_stop {p : ℕ} (h : (bp > p ∧ bp < (hdr p).ptr) ∨
      (p ≥ (hdr p).ptr ∧ (bp > p ∨ bp < (hdr p).ptr))) :
    Returns (fun n ↦ freeLoop hdr bp n p) (.ok p : Except ε ℕ) := by
  refine .succ (.of_forall fun n ↦ ?_)
  rw [freeLoop]
  split
  · rfl
  · next h₁ =>
    rw [if_pos (h.resolve_left h₁)]
    rfl

/-- From a block below `bp` the loop finds the last one. -/
theorem freeLoop_below (hl : Linked hdr base (b :: l)) (hchain : (b :: l).IsChain Apart)
    (hbase : ∀ c ∈ b :: l, base ≤ c.addr) (hne : ∀ c ∈ b :: l, bp ≠ c.addr) (hb : b.addr < bp) :
    ∃ pre p post, b :: l = pre ++ p :: post ∧ p.addr < bp ∧ (∀ c ∈ post.head?, bp < c.addr) ∧
      Returns (fun n ↦ freeLoop hdr bp n b.addr) (.ok p.addr : Except ε ℕ) := by
  induction l generalizing b with
  | nil =>
    refine ⟨[], b, [], rfl, hb, nofun, freeLoop_stop ?_⟩
    rw [hl.1]
    exact .inr ⟨hbase b List.mem_cons_self, .inl hb⟩
  | cons c l ih =>
    obtain ⟨hptr, -, hl⟩ := hl
    have hptr : (hdr b.addr).ptr = c.addr := hptr
    have hbc : b.addr < c.addr := (List.isChain_cons_cons.1 hchain).1.addr_lt
    rcases Nat.lt_or_ge bp c.addr with hlt | hge
    · refine ⟨[], b, c :: l, rfl, hb, ?_, freeLoop_stop ?_⟩
      · intro d hd
        obtain rfl := Option.some.inj hd
        exact hlt
      · rw [hptr]
        exact .inl ⟨hb, hlt⟩
    · have hcbp : c.addr < bp :=
        Nat.lt_of_le_of_ne hge (hne c (List.mem_cons_of_mem _ List.mem_cons_self)).symm
      obtain ⟨pre, p, post, heq, hp, hpost, hret⟩ := ih hl (List.isChain_cons_cons.1 hchain).2
        (fun d hd ↦ hbase d (List.mem_cons_of_mem _ hd))
        (fun d hd ↦ hne d (List.mem_cons_of_mem _ hd)) hcbp
      refine ⟨b :: pre, p, post, by rw [heq]; rfl, hp, hpost, freeLoop_next ?_ ?_ ?_⟩
      · omega
      · omega
      · rw [hptr]
        exact hret

/-- From a block above `bp` the loop comes to `base`. -/
theorem freeLoop_above {r : Except ε ℕ} (hl : Linked hdr base (b :: l))
    (hchain : (b :: l).IsChain Apart) (hbase : base < bp) (hb : bp < b.addr)
    (h : Returns (fun n ↦ freeLoop hdr bp n base) r) :
    Returns (fun n ↦ freeLoop hdr bp n b.addr) r := by
  induction l generalizing b with
  | nil =>
    have hptr : (hdr b.addr).ptr = base := hl.1
    refine freeLoop_next ?_ ?_ (by rwa [hptr])
    · omega
    · omega
  | cons c l ih =>
    obtain ⟨hptr, -, hl⟩ := hl
    have hptr : (hdr b.addr).ptr = c.addr := hptr
    have hbc : b.addr < c.addr := (List.isChain_cons_cons.1 hchain).1.addr_lt
    refine freeLoop_next ?_ ?_ ?_
    · omega
    · omega
    · rw [hptr]
      exact ih hl (List.isChain_cons_cons.1 hchain).2 (hb.trans hbc)

/-- The loop finds the last free block below `bp`. -/
theorem freeLoop_spec {h : Heap} {L others segs : List Region} (hi : HeapInv base h L others segs)
    (hbase : base < bp) (hne : ∀ c ∈ L, bp ≠ c.addr) :
    ∃ pre p post, L = pre ++ p :: post ∧ p.addr < bp ∧ (∀ c ∈ post.head?, bp < c.addr) ∧
      Returns (fun n ↦ freeLoop h.hdr bp n h.freep) (.ok p.addr : Except ε ℕ) := by
  have hlinked := hi.linked
  have hchain := hi.apart
  have hle : ∀ c ∈ L, base ≤ c.addr := fun c hc ↦ (hi.base_le hc).1
  -- from the beginning of the list
  have hall : ∃ pre p post, L = pre ++ p :: post ∧ p.addr < bp ∧ (∀ c ∈ post.head?, bp < c.addr) ∧
      Returns (fun n ↦ freeLoop h.hdr bp n base) (.ok p.addr : Except ε ℕ) := by
    rw [hi.eq_cons] at hlinked hchain hle hne ⊢
    exact freeLoop_below hlinked hchain hle hne hbase
  obtain ⟨f, hf, hfreep⟩ := hi.freep
  obtain ⟨pre, post, heq⟩ := List.append_of_mem hf
  rw [← hfreep]
  rw [heq] at hlinked hchain
  have hlinked' := (linked_append.1 hlinked).2
  have hchain' := (List.isChain_append.1 hchain).2.1
  have hmem : ∀ c ∈ f :: post, c ∈ L := fun c hc ↦ heq ▸ List.mem_append_right pre hc
  rcases Nat.lt_or_gt_of_ne (hne f hf) with hlt | hgt
  · obtain ⟨pre', p, post', heq', hp, hpost, hret⟩ := hall
    exact ⟨pre', p, post', heq', hp, hpost, freeLoop_above hlinked' hchain' hbase hlt hret⟩
  · obtain ⟨pre', p, post', heq', hp, hpost, hret⟩ := freeLoop_below hlinked' hchain'
      (fun c hc ↦ hle c (hmem c hc)) (fun c hc ↦ hne c (hmem c hc)) hgt
    refine ⟨pre ++ pre', p, post', ?_, hp, hpost, hret⟩
    rw [heq, heq', List.append_assoc]

end FreeLoop

/-! ### `free` -/

theorem first_link (stop : ℕ) (b : Region) (l : List Region) : first stop (link b l) = b.addr := by
  obtain ⟨c, m, heq, haddr, -⟩ := head_link b l
  rw [heq, ← haddr]
  rfl

theorem headerOf_add {a : ℕ} (h : a < 2 ^ 32) : headerOf (a + 8) = a := by
  rw [headerOf]
  omega

section Free

variable {ε : Type} {base : ℕ} {h : Heap} {L others segs : List Region}

/-- `free` adds the block to the list, joined with its neighbours. -/
theorem free_spec (hi : HeapInv base h L (b :: others) segs) : ∃ h' L',
    Returns (fun n ↦ free n h (b.addr + 8)) (.ok h' : Except ε Heap) ∧
      HeapInv base h' L' others segs ∧ ∃ c ∈ L', b.len ≤ c.len := by
  have hmem : b ∈ b :: others := List.mem_cons_self
  obtain ⟨hsize, hpos⟩ := hi.sizes b hmem
  obtain ⟨hbase, hstop⟩ := hi.range_of_mem (List.mem_append_right _ hmem) hpos
  have hlt : b.addr < 2 ^ 32 := by
    rw [Region.stop] at hstop
    omega
  have hne : ∀ c ∈ L, b.addr ≠ c.addr := fun c hc ↦ (hi.addr_ne hc hmem).symm
  obtain ⟨pre, p, post, heq, hp, hpost, hret⟩ := freeLoop_spec (ε := ε) hi (by omega) hne
  have hpL : p ∈ L := heq ▸ List.mem_append_right _ List.mem_cons_self
  have hpostL : ∀ c ∈ post, c ∈ L := fun c hc ↦
    heq ▸ List.mem_append_right _ (List.mem_cons_of_mem _ hc)
  have hpreL : ∀ c ∈ pre, c ∈ L := fun c hc ↦ heq ▸ List.mem_append_left _ hc
  -- The block is between the one that was found and the one behind it.
  have hpb : p.stop ≤ b.addr := by
    rcases hi.base_or_pos _ hpL with rfl | hppos
    · show base + 0 ≤ b.addr
      omega
    · have hdisjoint := hi.disjoint hpL hmem hppos
      simp only [Region.stop] at hdisjoint ⊢
      omega
  have hbc : ∀ c ∈ post.head?, b.stop ≤ c.addr := by
    intro c hc
    have hcL := hpostL c (List.mem_of_mem_head? hc)
    have hbc := hpost c hc
    rcases hi.base_or_pos _ hcL with rfl | hcpos
    · exact absurd (show b.addr < base from hbc) (by omega)
    · have hdisjoint := hi.disjoint hcL hmem hcpos
      simp only [Region.stop] at hdisjoint ⊢
      omega
  have hlinked := hi.linked
  have hpair := hi.pairwise
  have hchain := hi.apart
  rw [heq] at hlinked hpair hchain
  obtain ⟨hlpre, hlp⟩ := linked_append.1 hlinked
  obtain ⟨hptr, hpsize, hlpost⟩ := hlp
  obtain ⟨-, hppost, hprepost⟩ := List.pairwise_append.1 hpair
  have hppost' := (List.pairwise_cons.1 hppost).1
  -- The two `if` statements link the block in front of the rest, and the one that was found in front of it.
  have hne' : p.addr ≠ b.addr := fun h ↦ hne p hpL h.symm
  have hl₁ : Linked (join h.hdr b.addr (first base post)) base (link b post) := by
    refine linked_join hlpost (fun c hc ↦ hne c (hpostL c hc)) hsize (fun _ ↦ ?_) fun c hc ↦ ?_
    · rw [Region.stop]
      omega
    · rcases List.mem_cons.1 hc with rfl | hc
      · exact hstop
      · exact (hi.base_le (hpostL c hc)).2
  have hl₂ : Linked (join (join h.hdr b.addr (first base post)) p.addr b.addr) base
      (link p (link b post)) := by
    have hjoin := linked_join (b := p) hl₁ (fun c hc ↦ ?_) ?_ (fun hnil ↦ ?_) fun c hc ↦ ?_
    · rwa [first_link] at hjoin
    · obtain ⟨⟨d, hd, haddr, -⟩, -⟩ := mem_link hc
      rw [haddr]
      rcases List.mem_cons.1 hd with rfl | hd
      · exact hne'
      · exact (hppost' d hd).addr_lt.ne
    · rw [join_of_ne _ hne']
      exact hpsize
    · obtain ⟨c, m, hcons, -⟩ := head_link b post
      rw [hcons] at hnil
      cases hnil
    · rcases List.mem_cons.1 hc with rfl | hc
      · exact (hi.base_le hpL).2
      · obtain ⟨-, d, hd, hdstop⟩ := mem_link hc
        rw [hdstop]
        rcases List.mem_cons.1 hd with rfl | hd
        · exact hstop
        · exact (hi.base_le (hpostL d hd)).2
  refine ⟨⟨join (join h.hdr b.addr (first base post)) p.addr b.addr, p.addr⟩,
    pre ++ link p (link b post), ?_, ?_, ?_⟩
  · refine Returns.bind_ok (by rwa [headerOf_add hlt]) (.of_forall fun n ↦ ?_)
    rw [headerOf_add hlt, hptr]
    rfl
  · have hhead : (pre ++ link p (link b post)).head? = some ⟨base, 0⟩ := by
      have hhead := hi.head
      rw [heq] at hhead
      cases pre with
      | nil =>
        obtain rfl := Option.some.inj hhead
        obtain ⟨c, m, hcons, haddr, -⟩ := head_link b post
        rw [hcons, List.nil_append, link, if_neg]
        · rfl
        · rw [haddr]
          show base + 0 ≠ b.addr
          omega
      | cons a pre => exact hhead
    refine { hi with
        head := hhead
        linked := linked_append.2 ⟨?_, hl₂⟩
        apart := ?_
        base_or_pos := fun c hc ↦ ?_
        freep := ?_
        sizes := fun d hd ↦ ?_
        tile := fun x ↦ ?_ }
    · rw [first_link]
      refine hlpre.congr fun c hc ↦ ?_
      dsimp only
      rw [join_of_ne, join_of_ne]
      · exact fun h ↦ hne c (hpreL c hc) h.symm
      · exact (hprepost c hc p List.mem_cons_self).addr_lt.ne
    · obtain ⟨hcpre, hcpost, hlast⟩ := List.isChain_append.1 hchain
      refine List.isChain_append.2 ⟨hcpre, isChain_link (isChain_link ?_ hbc) fun c hc ↦ ?_, ?_⟩
      · exact (List.isChain_cons.1 hcpost).2
      · obtain ⟨d, m, hcons, haddr, -⟩ := head_link b post
        rw [hcons] at hc
        obtain rfl := Option.some.inj hc
        rw [haddr]
        exact hpb
      · intro x hx y hy
        obtain ⟨d, m, hcons, haddr, -⟩ := head_link p (link b post)
        rw [hcons] at hy
        obtain rfl := Option.some.inj hy
        rw [Apart, haddr]
        exact hlast x hx p rfl
    · rcases List.mem_append.1 hc with hc | hc
      · exact hi.base_or_pos c (hpreL c hc)
      obtain ⟨⟨d, hd, haddr, hlen⟩, -⟩ := mem_link hc
      rcases List.mem_cons.1 hd with rfl | hd
      · rcases hi.base_or_pos d hpL with rfl | hdpos
        · rcases Nat.eq_zero_or_pos c.len with hzero | hcpos
          · exact .inl (Region.ext haddr hzero)
          · exact .inr hcpos
        · exact .inr (hdpos.trans_le hlen)
      · obtain ⟨⟨e, he, -, helen⟩, -⟩ := mem_link hd
        refine .inr (Nat.lt_of_lt_of_le ?_ (helen.trans hlen))
        rcases List.mem_cons.1 he with rfl | he
        · exact hpos
        · refine (hi.base_or_pos e (hpostL e he)).resolve_left fun h ↦ ?_
          have hpe := hppost' e he
          have hple := (hi.base_le hpL).1
          rw [h, Apart, Region.stop] at hpe
          exact absurd hpe (by dsimp only; omega)
    · obtain ⟨c, m, hcons, haddr, -⟩ := head_link p (link b post)
      refine ⟨c, List.mem_append_right _ (hcons ▸ List.mem_cons_self), haddr⟩
    · have hd' : d ∈ b :: others := List.mem_cons_of_mem _ hd
      have hbd := hi.disjoint_cons (List.mem_append_right _ hd) (hi.sizes d hd').2
      dsimp only
      rw [join_of_ne _ (hi.addr_ne hpL hd').symm, join_of_ne]
      · exact hi.sizes d hd'
      · have hdpos := (hi.sizes d hd').2
        simp only [Region.stop] at hbd
        omega
    · rw [← hi.tile x, heq]
      simp only [cover_append, cover_cons, cover_link]
      omega
  · obtain ⟨c, hc, hlen⟩ := exists_mem_link (b := b) (l := post) List.mem_cons_self
    obtain ⟨d, hd, hlen'⟩ := exists_mem_link (b := p) (List.mem_cons_of_mem p hc)
    exact ⟨d, List.mem_append_right _ hd, hlen.trans hlen'⟩

/-! ### `malloc` -/

theorem plus_eq {a k n : ℕ} (hk : 8 * k = n) (h : a + n < 2 ^ 32) : plus a k = a + n := by
  rw [plus, hk, Nat.mod_eq_of_lt h]

variable {pre post : List Region} {prevp : Region}

variable (hi : HeapInv base h L others segs)

include hi

/-- The blocks around a block and the one before it. -/
theorem HeapInv.around (heq : L = pre ++ prevp :: b :: post) : (∀ c ∈ pre, c.addr < prevp.addr) ∧
      prevp.addr < b.addr ∧ ∀ c ∈ post, b.addr + b.len < c.addr := by
  have hpair := hi.pairwise
  rw [heq] at hpair
  obtain ⟨-, hpairp, hprepost⟩ := List.pairwise_append.1 hpair
  obtain ⟨hprevp, hpairb⟩ := List.pairwise_cons.1 hpairp
  exact ⟨fun c hc ↦ (hprepost c hc prevp List.mem_cons_self).addr_lt, (hprevp b List.mem_cons_self).addr_lt,
    (List.pairwise_cons.1 hpairb).1⟩

/-- The list begins with `base` also when what follows the first blocks changes. -/
theorem HeapInv.head_append {post' : List Region}
    (heq : L = pre ++ prevp :: post) : (pre ++ prevp :: post').head? = some ⟨base, 0⟩ := by
  have hhead := hi.head
  rw [heq] at hhead
  cases pre with
  | nil | cons a pre => exact hhead

variable (heq : L = pre ++ prevp :: b :: post)

include heq

/-- A block is taken from the list. -/
theorem takeAll_spec (hpos : 0 < b.len) : (takeAll h prevp.addr b.addr).1 = b.addr + 8 ∧
      HeapInv base (takeAll h prevp.addr b.addr).2 (pre ++ prevp :: post) (b :: others) segs := by
  have hlinked := hi.linked
  have hpair := hi.pairwise
  rw [heq] at hlinked hpair
  obtain ⟨hlpre, -, hpsize, hbptr, hbsize, hlpost⟩ := linked_append.1 hlinked
  obtain ⟨hpre, hpb, hpost⟩ := hi.around heq
  have hpL : prevp ∈ L := heq ▸ List.mem_append_right _ List.mem_cons_self
  have hbL : b ∈ L :=
    heq ▸ List.mem_append_right _ (List.mem_cons_of_mem _ List.mem_cons_self)
  have hsublist : (pre ++ prevp :: post).Sublist (pre ++ prevp :: b :: post) :=
    List.Sublist.append_left (List.Sublist.cons_cons _ (List.sublist_cons_self _ _)) _
  have hstop := (hi.range_of_mem (List.mem_append_left _ hbL) hpos).2
  rw [Region.stop] at hstop
  refine ⟨plus_eq (k := 1) rfl (by omega),
    { hi with
      head := hi.head_append heq
      linked := linked_append.2 ⟨hlpre.congr fun c hc ↦ ?_, ?_, ?_, hlpost.congr fun c hc ↦ ?_⟩
      apart := (hpair.sublist hsublist).isChain
      base_or_pos := fun c hc ↦ hi.base_or_pos c (heq ▸ hsublist.subset hc)
      freep := ⟨prevp, List.mem_append_right _ List.mem_cons_self, rfl⟩
      sizes := fun d hd ↦ ?_
      tile := fun x ↦ ?_ }⟩
  · exact update_of_ne (hpre c hc).ne _ _
  · dsimp only [takeAll]
    rw [update_self]
    exact hbptr
  · dsimp only [takeAll]
    rw [update_self]
    exact hpsize
  · have hc' := hpost c hc
    exact update_of_ne (by omega) _ _
  · dsimp only [takeAll]
    rcases List.mem_cons.1 hd with rfl | hd
    · rw [update_of_ne hpb.ne']
      exact ⟨hbsize, hpos⟩
    · rw [update_of_ne (hi.addr_ne hpL hd).symm]
      exact hi.sizes d hd
  · rw [← hi.tile x, heq]
    simp only [cover_append, cover_cons]
    omega

/-- The end of a block is taken. -/
theorem takeEnd_spec {nunits : ℕ}
    (hn : 0 < nunits) (hlt : nunits < (h.hdr b.addr).size) : ∃ c L', c.len = 8 * nunits ∧
      (takeEnd h prevp.addr b.addr nunits).1 = c.addr + 8 ∧
      HeapInv base (takeEnd h prevp.addr b.addr nunits).2 L' (c :: others) segs := by
  have hlinked := hi.linked
  have hpair := hi.pairwise
  rw [heq] at hlinked hpair
  obtain ⟨hlpre, hptr, hpsize, hbptr, hbsize, hlpost⟩ := linked_append.1 hlinked
  obtain ⟨hpre, hpb, hpost⟩ := hi.around heq
  have hbL : b ∈ L :=
    heq ▸ List.mem_append_right _ (List.mem_cons_of_mem _ List.mem_cons_self)
  have hpos : 0 < b.len := by omega
  have hstop := (hi.range_of_mem (List.mem_append_left _ hbL) hpos).2
  rw [Region.stop] at hstop
  -- The block that stays, and the one that is taken.
  obtain ⟨size, hsize⟩ : ∃ size, size = (h.hdr b.addr).size - nunits := ⟨_, rfl⟩
  obtain ⟨a, ha⟩ : ∃ a : Region, a = ⟨b.addr, 8 * size⟩ := ⟨_, rfl⟩
  obtain ⟨c, hc⟩ : ∃ c : Region, c = ⟨b.addr + 8 * size, 8 * nunits⟩ := ⟨_, rfl⟩
  have hca : c.addr = b.addr + 8 * size := by rw [hc]
  have haa : a.addr = b.addr := by rw [ha]
  have hplus : plus b.addr size = c.addr := by
    rw [hca]
    exact plus_eq rfl (by omega)
  obtain ⟨hdr', hhdr⟩ : ∃ hdr', hdr' = update (update h.hdr b.addr
    ⟨(h.hdr b.addr).ptr, size⟩) c.addr ⟨(update h.hdr b.addr
      ⟨(h.hdr b.addr).ptr, size⟩ c.addr).ptr, nunits⟩ := ⟨_, rfl⟩
  have htake : takeEnd h prevp.addr b.addr nunits = (c.addr + 8, ⟨hdr', prevp.addr⟩) := by
    rw [takeEnd, ← hsize, hhdr, hplus, plus_eq (k := 1) rfl (by omega)]
  have hother : ∀ x, x < b.addr ∨ b.addr + b.len ≤ x → hdr' x = h.hdr x := by
    intro x hx
    rw [hhdr, update_of_ne (by omega), update_of_ne (by omega)]
  have hself : hdr' b.addr = ⟨(h.hdr b.addr).ptr, size⟩ := by
    rw [hhdr, update_of_ne (by omega), update_self]
  have hlinked' : Linked hdr' base (pre ++ prevp :: a :: post) := by
    refine linked_append.2 ⟨hlpre.congr fun d hd ↦ hother _ ?_, ?_, ?_, ?_, ?_,
      hlpost.congr fun d hd ↦ hother _ ?_⟩
    · have hd' := hpre d hd
      omega
    · rw [hother _ (.inl hpb)]
      exact hptr.trans haa.symm
    · rw [hother _ (.inl hpb)]
      exact hpsize
    · rw [haa, hself]
      exact hbptr
    · rw [haa, hself, ha]
    · have hd' := hpost d hd
      omega
  rw [htake]
  refine ⟨c, pre ++ prevp :: a :: post, by rw [hc], rfl,
    { hi with
      head := hi.head_append heq
      linked := hlinked'
      apart := ?_
      base_or_pos := fun d hd ↦ ?_
      freep := ⟨prevp, List.mem_append_right _ List.mem_cons_self, rfl⟩
      sizes := fun d hd ↦ ?_
      tile := fun x ↦ ?_ }⟩
  · have hchain := hi.apart
    rw [heq] at hchain
    obtain ⟨hcpre, hcp, hlast⟩ := List.isChain_append.1 hchain
    obtain ⟨hpb', hcb⟩ := List.isChain_cons_cons.1 hcp
    obtain ⟨hbpost, hcpost⟩ := List.isChain_cons.1 hcb
    refine List.isChain_append.2 ⟨hcpre, List.isChain_cons_cons.2 ⟨?_, List.isChain_cons.2
      ⟨fun d hd ↦ ?_, hcpost⟩⟩, hlast⟩
    · rw [Apart, haa]
      exact hpb'
    · have hbd := hbpost d hd
      simp only [Apart, Region.stop, ha] at hbd ⊢
      omega
  · rcases List.mem_append.1 hd with hd | hd
    · exact hi.base_or_pos d (heq ▸ List.mem_append_left _ hd)
    · rcases List.mem_cons.1 hd with rfl | hd
      · exact hi.base_or_pos d (heq ▸ List.mem_append_right _ List.mem_cons_self)
      · rcases List.mem_cons.1 hd with rfl | hd
        · rw [ha]
          exact .inr (by dsimp only; omega)
        · exact hi.base_or_pos d (heq ▸ List.mem_append_right _
            (List.mem_cons_of_mem _ (List.mem_cons_of_mem _ hd)))
  · dsimp only
    rcases List.mem_cons.1 hd with rfl | hd
    · rw [hhdr, update_self, hc]
      exact ⟨rfl, by dsimp only; omega⟩
    · have hdisjoint := hi.disjoint hbL hd hpos
      have hdpos := (hi.sizes d hd).2
      simp only [Region.stop] at hdisjoint
      rw [hother _ (by omega)]
      exact hi.sizes d hd
  · have hsplit := cover_link x a (c :: post)
    rw [link, if_pos (by rw [ha, hc]; rfl)] at hsplit
    have hab : (⟨a.addr, a.len + c.len⟩ : Region) = b := by
      refine Region.ext haa ?_
      rw [ha, hc]
      dsimp only
      omega
    rw [hab] at hsplit
    rw [← hi.tile x, heq]
    simp only [cover_append, cover_cons] at hsplit ⊢
    omega

/-- A block that fits is taken from the list, or its end is. -/
theorem take_spec {nunits : ℕ}
    (hn : 0 < nunits) (hfit : (h.hdr b.addr).size ≥ nunits) : ∃ c L', c.len = 8 * nunits ∧
      (take h prevp.addr b.addr nunits).1 = c.addr + 8 ∧
      HeapInv base (take h prevp.addr b.addr nunits).2 L' (c :: others) segs := by
  rw [take]
  split
  · next hexact =>
    have hlinked := hi.linked
    rw [heq] at hlinked
    obtain ⟨-, -, -, -, hbsize, -⟩ := linked_append.1 hlinked
    obtain ⟨hap, hi'⟩ := takeAll_spec hi heq (by omega)
    exact ⟨b, _, by omega, hap, hi'⟩
  · next hmore => exact takeEnd_spec hi heq hn (by omega)

end Free

/-- What is assumed of the kernel: `sbrk` returns fresh memory, above all that it has returned before. -/
structure Sbrk (ε K : Type) (base : ℕ) where
  /-- `sbrk` -/
  sbrk : K → ℕ → Except ε (ℕ × K)
  /-- The memory that has been obtained from it. -/
  obtained : K → List Region
  /-- The states of the kernel for which this holds. -/
  Ok : K → Prop
  /-- It holds. -/
  law : ∀ {k k' : K} {n p : ℕ}, Ok k → 0 < n → n < 2 ^ 31 → sbrk k n = .ok (p, k') → Ok k' ∧
    ((p = FAILED ∧ obtained k' = obtained k) ∨
      (p ≠ FAILED ∧ obtained k' = ⟨p, n⟩ :: obtained k ∧ (∀ s ∈ obtained k, s.stop ≤ p) ∧
        base + 8 ≤ p ∧ p + n < 2 ^ 32))

/-- What `sbrk` does when `morecore` calls it for a number of bytes that is positive as an `int`. -/
def Sbrk.Answers {ε K : Type} {base : ℕ} (S : Sbrk ε K base) (k : K) (r : Except ε (ℕ × K)) : Prop :=
  ∃ n, 0 < n ∧ n < 2 ^ 31 ∧ S.sbrk k n = r

section Malloc

variable {ε K : Type} {base : ℕ} (S : Sbrk ε K base) {h : Heap} {k : K} {L others : List Region}

/-- Fresh memory is a block like any other. -/
theorem HeapInv.obtain {segs : List Region} (hi : HeapInv base h L others segs) {p nu : ℕ}
    (hp : ∀ s ∈ segs, s.stop ≤ p) (hbase : base + 8 ≤ p) (hlt : p + 8 * nu < 2 ^ 32) (hnu : 0 < nu) :
    HeapInv base { h with hdr := update h.hdr p ⟨(h.hdr p).ptr, nu⟩ } L
      (⟨p, 8 * nu⟩ :: others) (⟨p, 8 * nu⟩ :: segs) := by
  -- The other blocks are below.
  have hbelow : ∀ c ∈ L ++ others, 0 < c.len → c.addr < p := by
    intro c hc hpos
    have hcover : 0 < cover c.addr segs := by
      rw [← hi.tile]
      refine cover_pos.2 ⟨c, hc, Nat.le_refl _, ?_⟩
      rw [Region.stop]
      omega
    obtain ⟨s, hs, -, hsc⟩ := cover_pos.1 hcover
    exact hsc.trans_le (hp s hs)
  have hL : ∀ c ∈ L, c.addr < p := by
    intro c hc
    rcases hi.base_or_pos c hc with rfl | hpos
    · exact Nat.lt_of_lt_of_le (Nat.lt_add_of_pos_right (by decide)) hbase
    · exact hbelow c (List.mem_append_left _ hc) hpos
  refine { hi with
    linked := hi.linked.congr fun c hc ↦ update_of_ne (hL c hc).ne _ _
    sizes := fun d hd ↦ ?_
    tile := fun x ↦ ?_
    fresh := fun x ↦ ?_
    range := fun s hs ↦ ?_ }
  · dsimp only
    rcases List.mem_cons.1 hd with rfl | hd
    · rw [update_self]
      exact ⟨rfl, Nat.mul_pos (by decide) hnu⟩
    · obtain ⟨hsize, hpos⟩ := hi.sizes d hd
      rw [update_of_ne (hbelow d (List.mem_append_right _ hd) hpos).ne]
      exact ⟨hsize, hpos⟩
  · have htile := hi.tile x
    simp only [cover_append, cover_cons] at htile ⊢
    omega
  · rw [cover_cons]
    split
    next hx =>
      have hzero : cover x segs = 0 := by
        refine Nat.eq_zero_of_not_pos fun hpos ↦ ?_
        obtain ⟨s, hs, -, hsx⟩ := cover_pos.1 hpos
        have hle := hp s hs
        have hge : p ≤ x := hx.1
        omega
      rw [hzero]
    · exact hi.fresh x
  · rcases List.mem_cons.1 hs with rfl | hs
    · exact ⟨hbase, hlt⟩
    · exact hi.range s hs

/-- `morecore` stops in a panic of the kernel, fails, or adds a block that is large enough. -/
theorem morecore_spec (hk : S.Ok k) (hi : HeapInv base h L others (S.obtained k)) {nu : ℕ}
    (hnu : nu < 2 ^ 28) : ∃ r, Returns (fun n ↦ morecore S.sbrk n h k nu) r ∧
      ((∃ e, r = .error e ∧ S.Answers k (.error e)) ∨ ∃ k', (∃ p, S.Answers k (.ok (p, k'))) ∧ S.Ok k' ∧
          ((r = .ok (0, h, k') ∧ S.obtained k' = S.obtained k) ∨
            ∃ h' L', r = .ok (h'.freep, h', k') ∧ HeapInv base h' L' others (S.obtained k') ∧
              ∃ c ∈ L', 8 * nu ≤ c.len)) := by
  obtain ⟨nu', hnu'⟩ : ∃ nu', nu' = if nu < 4096 then 4096 else nu := ⟨_, rfl⟩
  have hle : nu ≤ nu' ∧ 0 < nu' ∧ nu' < 2 ^ 28 := by
    rw [hnu']
    split <;> omega
  have hmod : nu' * 8 % 2 ^ 32 = 8 * nu' := by omega
  simp only [morecore, ← hnu', hmod]
  cases hsbrk : S.sbrk k (8 * nu') with
  | error e =>
    have hanswers : S.Answers k (.error e) := ⟨8 * nu', by omega, by omega, hsbrk⟩
    exact ⟨.error e, .bind_error (.of_forall fun _ ↦ rfl), .inl ⟨e, rfl, hanswers⟩⟩
  | ok r =>
    obtain ⟨p, k'⟩ := r
    have hanswers : S.Answers k (.ok (p, k')) := ⟨8 * nu', by omega, by omega, hsbrk⟩
    obtain ⟨hk', hor⟩ := S.law hk (by omega) (by omega) hsbrk
    have hret : Returns (fun _ ↦ ExceptT.mk (some (.ok (p, k')))) (.ok (p, k') : Except ε (ℕ × K)) :=
      .of_forall fun _ ↦ rfl
    rcases hor with ⟨rfl, hobtained⟩ | ⟨hp, hobtained, hfresh, hbase, hlt⟩
    · refine ⟨.ok (0, h, k'), hret.bind_ok (.of_forall fun _ ↦ ?_),
        .inr ⟨k', ⟨_, hanswers⟩, hk', .inl ⟨rfl, hobtained⟩⟩⟩
      rfl
    · have hi' := hi.obtain hfresh hbase hlt hle.2.1
      obtain ⟨h', L', hfree, hi'', c, hc, hlen⟩ := free_spec (ε := ε) hi'
      have hlen : 8 * nu' ≤ c.len := hlen
      refine ⟨.ok (h'.freep, h', k'), hret.bind_ok ?_,
        .inr ⟨k', ⟨p, hanswers⟩, hk', .inr ⟨h', L', rfl, ?_, c, hc, ?_⟩⟩⟩
      · simp only [if_neg hp]
        refine Returns.bind_ok (a := h') ?_ (.of_forall fun _ ↦ rfl)
        rwa [plus_eq (k := 1) rfl (by omega)]
      · rwa [hobtained]
      · omega

/-- What `malloc` does after one turn around the cycle. -/
def refill (sbrk : K → ℕ → Except ε (ℕ × K)) (nunits n : ℕ) (h : Heap) (k : K) :
    ExceptT ε Option (ℕ × Heap × K) := do
  let (p, h, k) ← morecore sbrk n h k nunits
  if p = 0 then
    return (0, h, k)
  else
    mallocLoop sbrk nunits n p (h.hdr p).ptr h k

section Scan

variable (sbrk : K → ℕ → Except ε (ℕ × K)) {nunits : ℕ} {segs : List Region}
  {P : Except ε (ℕ × Heap × K) → Prop}

/-- One turn of the loop, at a block that does not fit. -/
theorem mallocLoop_next {prevp p : ℕ} {r : Except ε (ℕ × Heap × K)} (hsmall : ¬(h.hdr p).size ≥ nunits)
    (hfreep : p = h.freep → Returns (fun n ↦ refill sbrk nunits n h k) r)
    (hnext : p ≠ h.freep → Returns (fun n ↦ mallocLoop sbrk nunits n p (h.hdr p).ptr h k) r) :
    Returns (fun n ↦ mallocLoop sbrk nunits n prevp p h k) r := by
  refine .succ ?_
  simp only [mallocLoop, if_neg hsmall]
  by_cases hp : p = h.freep
  · simp only [if_pos hp]
    exact hfreep hp
  · simp only [if_neg hp]
    exact hnext hp

/-- The loop from a block on to the end of the list. -/
theorem mallocLoop_suffix (pre : List Region) (prevp : Region) {post : List Region} (heq : L = pre ++ prevp :: post)
    (hl : Linked h.hdr base L)
    (hfound : ∀ pre prevp b post, L = pre ++ prevp :: b :: post → (h.hdr b.addr).size ≥ nunits →
      P (.ok ((take h prevp.addr b.addr nunits).1, (take h prevp.addr b.addr nunits).2, k)))
    (hstop : ∀ post₁ f post₂, post = post₁ ++ f :: post₂ → f.addr = h.freep →
      (∀ b ∈ post₁ ++ [f], ¬(h.hdr b.addr).size ≥ nunits) →
      ∃ r, Returns (fun n ↦ refill sbrk nunits n h k) r ∧ P r)
    (hend : (∀ b ∈ post, b.addr ≠ h.freep ∧ ¬(h.hdr b.addr).size ≥ nunits) → ∀ q,
      ∃ r, Returns (fun n ↦ mallocLoop sbrk nunits n q base h k) r ∧ P r) :
    ∃ r, Returns (fun n ↦ mallocLoop sbrk nunits n prevp.addr (first base post) h k) r ∧ P r := by
  induction post generalizing pre prevp with
  | nil => exact hend nofun prevp.addr
  | cons b post ih =>
    have hl' := hl
    rw [heq] at hl'
    obtain ⟨-, -, -, hptr, -, -⟩ := linked_append.1 hl'
    by_cases hfit : (h.hdr b.addr).size ≥ nunits
    · refine ⟨_, .succ (.of_forall fun n ↦ ?_), hfound pre prevp b post heq hfit⟩
      show (mallocLoop sbrk nunits (n + 1) prevp.addr b.addr h k).run = _
      rw [mallocLoop, if_pos hfit]
      rfl
    by_cases hfreep : b.addr = h.freep
    · obtain ⟨r, hret, hP⟩ := hstop [] b post rfl hfreep fun c hc ↦ by
        obtain rfl := List.mem_singleton.1 hc
        exact hfit
      exact ⟨r, mallocLoop_next sbrk hfit (fun _ ↦ hret) fun hne ↦ absurd hfreep hne, hP⟩
    · obtain ⟨r, hret, hP⟩ := ih (pre ++ [prevp]) b
        (by rw [heq, List.append_assoc]; rfl)
        (fun post₁ f post₂ hpost hf hall ↦ hstop (b :: post₁) f post₂ (by rw [hpost]; rfl) hf
          (List.forall_mem_cons.2 ⟨hfit, hall⟩))
        fun hall ↦ hend (List.forall_mem_cons.2 ⟨⟨hfreep, hfit⟩, hall⟩)
      rw [← hptr] at hret
      exact ⟨r, mallocLoop_next sbrk hfit (fun h ↦ absurd h hfreep) fun _ ↦ hret, hP⟩

/-- The loop takes the first block that fits, or comes around without finding one. -/
theorem mallocLoop_scan (hi : HeapInv base h L others segs) (hn : 0 < nunits)
    (hfound : ∀ pre prevp b post, L = pre ++ prevp :: b :: post → (h.hdr b.addr).size ≥ nunits →
      P (.ok ((take h prevp.addr b.addr nunits).1, (take h prevp.addr b.addr nunits).2, k)))
    (hrefill : (∀ b ∈ L, ¬(h.hdr b.addr).size ≥ nunits) →
      ∃ r, Returns (fun n ↦ refill sbrk nunits n h k) r ∧ P r) :
    ∃ r, Returns (fun n ↦ mallocLoop sbrk nunits n h.freep (h.hdr h.freep).ptr h k) r ∧ P r := by
  have hl := hi.linked
  obtain ⟨f, hf, hfreep⟩ := hi.freep
  obtain ⟨pre, post, heq⟩ := List.append_of_mem hf
  have hpair := hi.pairwise
  rw [heq] at hpair
  obtain ⟨-, hfpost, hprepost⟩ := List.pairwise_append.1 hpair
  have hpost := (List.pairwise_cons.1 hfpost).1
  have hptr : (h.hdr h.freep).ptr = first base post := by
    have hl' := hl
    rw [heq] at hl'
    rw [← hfreep]
    exact (linked_append.1 hl').2.1
  have hbase : ⟨base, 0⟩ ∈ L := by
    rw [hi.eq_cons]
    exact List.mem_cons_self
  have hbasesize : ¬(h.hdr base).size ≥ nunits := by
    have hl' := hl
    rw [hi.eq_cons] at hl'
    have hsize : 8 * (h.hdr base).size = 0 := hl'.2.1
    omega
  rw [hptr, ← hfreep]
  refine mallocLoop_suffix sbrk _ _ heq hl hfound (fun post₁ g post₂ hg hgf _ ↦ ?_) fun hall q ↦ ?_
  · -- the rest of the list is above
    have hfg := (hpost g (hg ▸ List.mem_append_right _ List.mem_cons_self)).addr_lt
    omega
  -- At the end of the list the loop is at `base`.
  by_cases hfb : base = h.freep
  · have hnofit : ∀ b ∈ L, ¬(h.hdr b.addr).size ≥ nunits := by
      intro b hb
      rw [heq] at hb
      rcases List.mem_append.1 hb with hb | hb
      · -- nothing is below `base`
        have hle := (hi.base_le (heq ▸ List.mem_append_left _ hb)).1
        have hbf := (hprepost b hb f List.mem_cons_self).addr_lt
        omega
      · rcases List.mem_cons.1 hb with rfl | hb
        · rw [hfreep, ← hfb]
          exact hbasesize
        · exact (hall b hb).2
    obtain ⟨r, hret, hP⟩ := hrefill hnofit
    exact ⟨r, mallocLoop_next sbrk hbasesize (fun _ ↦ hret) fun hne ↦ absurd hfb hne, hP⟩
  · -- and goes on from there up to `freep`
    have hl' := hl
    rw [hi.eq_cons] at hl'
    have hsecond := mallocLoop_suffix sbrk [] _ (P := P) (k := k) hi.eq_cons hl hfound
      (fun post₁ g post₂ hg hgf hsmall ↦ hrefill fun b hb ↦ ?_) fun hall' ↦ ?_
    · obtain ⟨r, hret, hP⟩ := hsecond
      refine ⟨r, mallocLoop_next sbrk hbasesize (fun h ↦ absurd h hfb) fun _ ↦ ?_, hP⟩
      rw [show (h.hdr base).ptr = _ from hl'.1]
      exact hret
    · -- a block is behind `freep`, where the search began, or before it
      rcases Nat.lt_or_ge f.addr b.addr with hlt | hge
      · refine (hall b ?_).2
        rw [heq] at hb
        rcases List.mem_append.1 hb with hb | hb
        · have hbf := (hprepost b hb f List.mem_cons_self).addr_lt
          omega
        · rcases List.mem_cons.1 hb with rfl | hb
          · omega
          · exact hb
      · have hpair' := hi.pairwise
        rw [hi.eq_cons] at hb hpair'
        rcases List.mem_cons.1 hb with rfl | hb
        · exact hbasesize
        refine hsmall b ?_
        have htail := (List.pairwise_cons.1 hpair').2
        rw [hg] at hb htail
        obtain ⟨-, hgpost, -⟩ := List.pairwise_append.1 htail
        rw [List.append_cons] at hb
        rcases List.mem_append.1 hb with hb | hb
        · exact hb
        · have hgb := ((List.pairwise_cons.1 hgpost).1 b hb).addr_lt
          omega
    · -- `freep` is in the list
      rw [hi.eq_cons] at hf
      rcases List.mem_cons.1 hf with rfl | hf
      · exact absurd hfreep hfb
      · exact absurd hfreep (hall' f hf).1

end Scan

theorem HeapInv.size_eq {segs : List Region} (hi : HeapInv base h L others segs) (hc : c ∈ L) :
    8 * (h.hdr c.addr).size = c.len := by
  obtain ⟨pre, post, heq⟩ := List.append_of_mem hc
  have hl := hi.linked
  rw [heq] at hl
  exact (linked_append.1 hl).2.2.1

/-- What the call `malloc` can return, from the state `h`. -/
inductive MallocResult (base : ℕ) (h : Heap) (k : K) (others : List Region) (nunits : ℕ) :
    Except ε (ℕ × Heap × K) → Prop where
  /-- The kernel has stopped. -/
  | panic {e : ε} (stop : S.Answers k (.error e)) : MallocResult base h k others nunits (.error e)
  /-- There was not enough memory. -/
  | failed {k' : K} {p : ℕ} (asked : S.Answers k (.ok (p, k'))) (ok : S.Ok k')
      (obtained : S.obtained k' = S.obtained k) :
      MallocResult base h k others nunits (.ok (0, h, k'))
  /-- The new block is `c`. -/
  | block {c : Region} {L' : List Region} {h' : Heap} {k' : K}
      (asked : k' = k ∨ ∃ p, S.Answers k (.ok (p, k'))) (ok : S.Ok k')
      (len : c.len = 8 * nunits) (inv : HeapInv base h' L' (c :: others) (S.obtained k')) :
      MallocResult base h k others nunits (.ok (c.addr + 8, h', k'))

/-- The loop of `malloc` ends, with a block of the right size unless `sbrk` has failed. -/
theorem mallocLoop_spec (hk : S.Ok k) (hi : HeapInv base h L others (S.obtained k)) {nunits : ℕ}
    (hn : 0 < nunits) (hlt : nunits < 2 ^ 28) :
    ∃ r, Returns (fun n ↦ mallocLoop S.sbrk nunits n h.freep (h.hdr h.freep).ptr h k) r ∧
      MallocResult S base h k others nunits r := by
  -- A block that is found is taken.
  have hfound : ∀ {h' k' L'}, (k' = k ∨ ∃ p, S.Answers k (.ok (p, k'))) → S.Ok k' →
      HeapInv base h' L' others (S.obtained k') →
      ∀ pre prevp b post, L' = pre ++ prevp :: b :: post → (h'.hdr b.addr).size ≥ nunits →
      MallocResult S base h k others nunits (.ok ((take h' prevp.addr b.addr nunits).1,
        (take h' prevp.addr b.addr nunits).2, k')) := by
    intro h' k' L' hasked hk' hi' pre prevp b post heq hfit
    obtain ⟨c, L'', hlen, hap, hinv⟩ := take_spec hi' heq hn hfit
    rw [hap]
    exact .block hasked hk' hlen hinv
  refine mallocLoop_scan S.sbrk hi hn (hfound (.inl rfl) hk hi) fun _ ↦ ?_
  obtain ⟨r, hret, ⟨e, rfl, hstop⟩ | ⟨k', ⟨p, hasked⟩, hk', ⟨rfl, hobtained⟩ |
    ⟨h', L', rfl, hi', c, hc, hlen⟩⟩⟩ := morecore_spec S hk hi hlt
  · exact ⟨_, hret.bind_error, .panic hstop⟩
  · exact ⟨.ok (0, h, k'), hret.bind_ok (.of_forall fun _ ↦ rfl), .failed hasked hk' hobtained⟩
  · -- After `morecore` there is a block that fits.
    obtain ⟨f, hf, hfreep⟩ := hi'.freep
    have hpos : h'.freep ≠ 0 := by
      have hle := (hi'.base_le hf).1
      have hbase := hi'.base_pos
      omega
    obtain ⟨r, hret', hr⟩ := mallocLoop_scan S.sbrk (k := k') hi' hn
      (hfound (.inr ⟨p, hasked⟩) hk' hi') fun hall ↦ by
      refine absurd ?_ (hall c hc)
      have hsize := hi'.size_eq hc
      omega
    refine ⟨r, hret.bind_ok ?_, hr⟩
    simp only [if_neg hpos]
    exact hret'

/-! ### More fuel -/

theorem freeLoop_extends (hdr : ℕ → Header) (bp n p : ℕ) :
    Extends (freeLoop hdr bp n p : ExceptT ε Option ℕ) (freeLoop hdr bp (n + 1) p) := by
  induction n generalizing p with
  | zero => exact .none _
  | succ n ih => exact .ite (.refl _) (.ite (.refl _) (ih _))

theorem free_extends (n : ℕ) (h : Heap) (ap : ℕ) :
    Extends (free n h ap : ExceptT ε Option Heap) (free (n + 1) h ap) :=
  (freeLoop_extends _ _ _ _).bind fun _ ↦ .refl _

theorem morecore_extends (sbrk : K → ℕ → Except ε (ℕ × K)) (n : ℕ) (h : Heap) (k : K) (nu : ℕ) :
    Extends (morecore sbrk n h k nu) (morecore sbrk (n + 1) h k nu) :=
  (Extends.refl _).bind fun _ ↦ .ite (.refl _) ((free_extends _ _ _).bind fun _ ↦ .refl _)

theorem mallocLoop_extends (sbrk : K → ℕ → Except ε (ℕ × K)) (nunits n prevp p : ℕ) (h : Heap)
    (k : K) : Extends (mallocLoop sbrk nunits n prevp p h k)
      (mallocLoop sbrk nunits (n + 1) prevp p h k) := by
  induction n generalizing prevp p h k with
  | zero => exact .none _
  | succ n ih =>
    refine .ite (.refl _) (.ite ?_ (ih _ _ _ _))
    exact (morecore_extends _ _ _ _ _).bind fun _ ↦ .ite (.refl _) (ih _ _ _ _)

end Malloc

end Malloc

end Xv6
