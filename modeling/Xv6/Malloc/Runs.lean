import Xv6.Malloc.FreeList

/-!
# Programs that use the allocator

In every run of a program that asks for blocks of a moderate size and frees only blocks it has, the free
list is in order (`free_list`): a cycle through `base` with one descent, whose blocks are apart from each other,
and which together with the blocks of the program take up the memory obtained from `sbrk`. The loops of
`malloc` and `free` end.

Between the calls the program may store what it likes in its blocks.
-/

namespace Xv6

open Function

namespace Malloc

open Region

/-- The request is for fewer than `2 ^ 28` units. -/
def Small (nbytes : ℕ) : Prop := (nbytes + 7) / 8 + 1 < 2 ^ 28

instance (nbytes : ℕ) : Decidable (Small nbytes) :=
  inferInstanceAs (Decidable ((nbytes + 7) / 8 + 1 < 2 ^ 28))

/-- The calls of `malloc` are for small blocks. -/
def Asks {K : Type} (_ : Process K) : Label → Prop
  | .malloc nbytes _ => Small nbytes
  | _ => True

instance {K : Type} (σ : Process K) : ∀ l, Decidable (Asks σ l)
  | .malloc nbytes _ => inferInstanceAs (Decidable (Small nbytes))
  | .free _ _ | .store _ _ _ => .isTrue trivial

/-- The block with the header at `p`. -/
def blockAt (h : Heap) (p : ℕ) : Region := ⟨p, 8 * (h.hdr p).size⟩

/-- The block of the program, with its header. -/
def blockOf (h : Heap) (v : Live) : Region := blockAt h (v.ap - 8)

/-- The free list is in order, and `l` are the addresses of its blocks. -/
structure FreeList (base : ℕ) (h : Heap) (live : List Live) (segs : List Region) (l : List ℕ) : Prop where
  /-- It begins at `base`. -/
  head : l.head? = some base
  /-- Along the pointers one comes to each of its blocks and back to `base`. -/
  cycle : (l ++ [base]).IsChain fun p q ↦ (h.hdr p).ptr = q
  nodup : l.Nodup
  /-- `freep` points into the list. -/
  freep : h.freep ∈ l
  descent : (l.countP fun p ↦ p ≥ (h.hdr p).ptr) = 1
  disjoint : l.Pairwise fun p q ↦ (blockAt h p).stop ≤ q ∨ (blockAt h q).stop ≤ p
  nonadjacent : l.Pairwise fun p q ↦ (blockAt h p).stop ≠ q ∧ (blockAt h q).stop ≠ p
  /-- With the blocks of the program they take up the memory that has been obtained, and nothing twice. -/
  tile : ∀ x, cover x (l.map (blockAt h) ++ live.map (blockOf h)) =
    if ∃ s ∈ segs, s.Has x then 1 else 0

section FreeList

variable {base : ℕ} {hdr : ℕ → Header} {h : Heap} {L segs : List Region} {live : List Live}

theorem isChain_of_linked {stop : ℕ} (hl : Linked hdr stop L) :
    (L.map addr ++ [stop]).IsChain fun p q ↦ (hdr p).ptr = q := by
  induction L with
  | nil => exact List.isChain_singleton _
  | cons b l ih =>
    obtain ⟨hptr, -, hl⟩ := hl
    refine List.isChain_cons.2 ⟨fun q hq ↦ ?_, ih hl⟩
    rw [hptr]
    cases l with
    | nil | cons c l => exact Option.some.inj hq

/-- Only the last block of the list points to one that is not above it. -/
theorem descent_of_linked {b : Region} (hl : Linked hdr base (b :: L))
    (hchain : (b :: L).IsChain Apart) (hbase : ∀ c ∈ b :: L, base ≤ c.addr) :
    (((b :: L).map addr).countP fun p ↦ p ≥ (hdr p).ptr) = 1 := by
  induction L generalizing b with
  | nil =>
    have hptr : (hdr b.addr).ptr = base := hl.1
    have hle := hbase b List.mem_cons_self
    rw [List.map_cons, List.countP_cons_of_pos (by rw [hptr]; exact decide_eq_true hle)]
    rfl
  | cons c L ih =>
    obtain ⟨hptr, -, hl⟩ := hl
    have hptr : (hdr b.addr).ptr = c.addr := hptr
    obtain ⟨hbc, hchain⟩ := List.isChain_cons_cons.1 hchain
    have hlt := hbc.addr_lt
    rw [List.map_cons, List.countP_cons_of_neg (by rw [hptr, decide_eq_true_eq]; omega)]
    exact ih hl hchain fun d hd ↦ hbase d (List.mem_cons_of_mem _ hd)

/-- The heap is in order, so the list is. -/
theorem HeapInv.freeList (hi : HeapInv base h L (live.map (blockOf h)) segs) :
    FreeList base h live segs (L.map addr) := by
  have hblock : ∀ b ∈ L, blockAt h b.addr = b := fun b hb ↦ Region.ext rfl (hi.size_eq hb)
  have hmap : ∀ {R : ℕ → ℕ → Prop}, (∀ b ∈ L, ∀ c ∈ L, b.stop < c.addr → R b.addr c.addr) →
      (L.map addr).Pairwise R := by
    intro R hR
    exact List.pairwise_map.2 (hi.pairwise.imp_of_mem fun hb hc hbc ↦ hR _ hb _ hc hbc)
  obtain ⟨f, hf, hfreep⟩ := hi.freep
  exact
    { head := by rw [List.head?_map, hi.head]; rfl
      cycle := isChain_of_linked hi.linked
      nodup := hmap fun b _ c _ hbc ↦ by
        rw [Region.stop] at hbc
        omega
      freep := hfreep ▸ List.mem_map_of_mem hf
      descent := by
        have hlinked := hi.linked
        have hchain := hi.apart
        have hle : ∀ c ∈ L, base ≤ c.addr := fun c hc ↦ (hi.base_le hc).1
        rw [hi.eq_cons] at hlinked hchain hle ⊢
        exact descent_of_linked hlinked hchain hle
      disjoint := hmap fun b hb c _ hbc ↦ by
        rw [hblock b hb]
        exact .inl (Nat.le_of_lt hbc)
      nonadjacent := hmap fun b hb c hc hbc ↦ by
        rw [hblock b hb, hblock c hc]
        rw [Region.stop] at hbc ⊢
        rw [Region.stop]
        omega
      tile := fun x ↦ by
        have hL : (L.map addr).map (blockAt h) = L := by
          rw [List.map_map]
          exact (List.map_congr_left hblock).trans (List.map_id L)
        rw [hL, hi.tile]
        have hle := hi.fresh x
        split
        next hx =>
          have hpos := cover_pos.2 hx
          omega
        next hx => exact Nat.eq_zero_of_not_pos fun hpos ↦ hx (cover_pos.1 hpos) }

end FreeList

section Runs

variable {ε K : Type} {base : ℕ} (S : Sbrk ε K base) {σ τ : Process K}

/-- What holds between the calls. -/
structure ProcInv (σ : Process K) : Prop where
  ok : S.Ok σ.kernel
  /-- The allocator has not been used yet, or its blocks are in order. -/
  heap : (σ.heap.freep = 0 ∧ σ.live = [] ∧ S.obtained σ.kernel = []) ∨
    ∃ L, HeapInv base σ.heap L (σ.live.map (blockOf σ.heap)) (S.obtained σ.kernel)
  live : ∀ v ∈ σ.live, 8 ≤ v.ap ∧ v.nbytes + 8 ≤ (blockOf σ.heap v).len

variable {S}

variable {h : Heap} {L others segs : List Region} {v : Live} {a : ℕ}

/-- The block is as it was in `h`, for a heap in which that is a block. -/
theorem blockOf_eq {h' : Heap} (hi : HeapInv base h' L others segs) (hv : blockOf h v ∈ others) :
    blockOf h' v = blockOf h v :=
  Region.ext rfl (hi.sizes _ hv).1

theorem map_blockOf {h' : Heap} {live : List Live} (hi : HeapInv base h' L others segs)
    (hlive : ∀ v ∈ live, blockOf h v ∈ others) : live.map (blockOf h') = live.map (blockOf h) :=
  List.map_congr_left fun v hv ↦ blockOf_eq hi (hlive v hv)

/-- The first call of `malloc` makes a list of `base` alone. -/
theorem heapInv_base (hpos : 0 < base) (hlt : base < 2 ^ 32) (h : Heap) :
    HeapInv base ⟨update h.hdr base ⟨base, 0⟩, base⟩ [⟨base, 0⟩] [] [] where
  head := rfl
  linked := by
    have hself : update h.hdr base ⟨base, 0⟩ base = ⟨base, 0⟩ := update_self ..
    refine ⟨?_, ?_, trivial⟩
    · show (update h.hdr base ⟨base, 0⟩ base).ptr = base
      rw [hself]
    · show 8 * (update h.hdr base ⟨base, 0⟩ base).size = 8 * 0
      rw [hself]
  apart := List.isChain_singleton _
  base_or_pos := fun b hb ↦ .inl (List.mem_singleton.1 hb)
  freep := ⟨_, List.mem_singleton_self _, rfl⟩
  sizes := nofun
  tile := fun x ↦ by
    have hnot : ¬Has ⟨base, 0⟩ x := fun hx ↦ absurd (Nat.lt_of_le_of_lt hx.1 hx.2) (Nat.lt_irrefl base)
    rw [List.append_nil, cover_cons, if_neg hnot]
    rfl
  fresh := fun _ ↦ Nat.zero_le _
  base_pos := hpos
  base_lt := hlt
  range := nofun

theorem units_eq {nbytes : ℕ} (h : Small nbytes) : units nbytes = (nbytes + 7) / 8 + 1 := by
  rw [Small] at h
  rw [units]
  omega

/-- `malloc` ends, and keeps the invariant. -/
theorem ProcInv.malloc (hpos : 0 < base) (hlt : base < 2 ^ 32) (hi : ProcInv S σ) {nbytes : ℕ}
    (hsmall : Small nbytes) :
    ∃ r, Returns (fun n ↦ Malloc.malloc S.sbrk base n nbytes σ.heap σ.kernel) r ∧
      ((∃ e, r = .error e ∧ S.Answers σ.kernel (.error e)) ∨
        ∃ p h k, r = .ok (p, h, k) ∧ (k = σ.kernel ∨ ∃ q, S.Answers σ.kernel (.ok (q, k))) ∧
        ProcInv S ⟨h, k, if p = 0 then σ.live else ⟨p, nbytes⟩ :: σ.live⟩) := by
  obtain ⟨h₀, hh₀⟩ : ∃ h₀ : Heap, h₀ = if σ.heap.freep = 0 then
    ⟨update σ.heap.hdr base ⟨base, 0⟩, base⟩ else σ.heap := ⟨_, rfl⟩
  have hinv : ∃ L, HeapInv base h₀ L (σ.live.map (blockOf σ.heap)) (S.obtained σ.kernel) := by
    rcases hi.heap with ⟨hfreep, hlive, hobtained⟩ | ⟨L, hL⟩
    · rw [hh₀, if_pos hfreep, hlive, hobtained]
      exact ⟨_, heapInv_base hpos hlt σ.heap⟩
    · obtain ⟨f, hf, hfreep⟩ := hL.freep
      have hle := (hL.base_le hf).1
      rw [hh₀, if_neg (by omega)]
      exact ⟨L, hL⟩
  obtain ⟨L, hL⟩ := hinv
  have hunits := units_eq hsmall
  have hsmall' : units nbytes < 2 ^ 28 := by
    rw [hunits]
    exact hsmall
  obtain ⟨r, hret, hr⟩ := mallocLoop_spec S hi.ok hL (hunits ▸ Nat.succ_pos _) hsmall'
  refine ⟨r, ?_, ?_⟩
  · simp only [Malloc.malloc, ← hh₀]
    exact hret
  -- The blocks that the program had are as before.
  have hkeep : ∀ {h' L' others segs'}, HeapInv base h' L' others segs' →
      (∀ v ∈ σ.live, blockOf σ.heap v ∈ others) →
      ∀ v ∈ σ.live, 8 ≤ v.ap ∧ v.nbytes + 8 ≤ (blockOf h' v).len := by
    intro h' L' others segs' hi' hmem v hv
    rw [blockOf_eq hi' (hmem v hv)]
    exact hi.live v hv
  cases hr with
  | panic stop => exact .inl ⟨_, rfl, stop⟩
  | failed asked ok obtained =>
    have hmem : ∀ v ∈ σ.live, blockOf σ.heap v ∈ σ.live.map (blockOf σ.heap) :=
      fun v hv ↦ List.mem_map_of_mem hv
    refine .inr ⟨0, h₀, _, rfl, .inr ⟨_, asked⟩, ok, .inr ⟨L, ?_⟩, hkeep hL hmem⟩
    rw [if_pos rfl, obtained, map_blockOf hL hmem]
    exact hL
  | @block c L' h' k' asked ok len inv =>
    have hmem : ∀ v ∈ σ.live, blockOf σ.heap v ∈ c :: σ.live.map (blockOf σ.heap) :=
      fun v hv ↦ List.mem_cons_of_mem _ (List.mem_map_of_mem hv)
    have hblock : blockOf h' ⟨c.addr + 8, nbytes⟩ = c :=
      Region.ext (Nat.add_sub_cancel _ _) (inv.sizes c List.mem_cons_self).1
    refine .inr ⟨c.addr + 8, h', k', rfl, asked, ok, .inr ⟨L', ?_⟩, ?_⟩
    · rw [if_neg (Nat.succ_ne_zero _), List.map_cons, map_blockOf inv hmem, hblock]
      exact inv
    · intro v hv
      rcases List.mem_cons.1 hv with rfl | hv
      · refine ⟨Nat.le_add_left _ _, ?_⟩
        rw [hblock, len, hunits]
        dsimp only
        omega
      · exact hkeep inv hmem v hv

/-- `free` ends, and keeps the invariant. -/
theorem ProcInv.free (hi : ProcInv S σ) (hv : v ∈ σ.live) :
    ∃ h, Returns (fun n ↦ Malloc.free n σ.heap v.ap) (.ok h : Except ε Heap) ∧
      ProcInv S ⟨h, σ.kernel, σ.live.erase v⟩ := by
  rcases hi.heap with ⟨-, hlive, -⟩ | ⟨L, hL⟩
  · rw [hlive] at hv
    cases hv
  · have hperm := (List.perm_cons_erase hv).map (blockOf σ.heap)
    obtain ⟨h', L', hret, hL', -⟩ := free_spec (ε := ε) (hL.perm hperm)
    have hap : (blockOf σ.heap v).addr + 8 = v.ap := Nat.sub_add_cancel (hi.live v hv).1
    have hmem : ∀ w ∈ σ.live.erase v, blockOf σ.heap w ∈ (σ.live.erase v).map (blockOf σ.heap) :=
      fun w hw ↦ List.mem_map_of_mem hw
    rw [hap] at hret
    refine ⟨h', hret, hi.ok, .inr ⟨L', ?_⟩, fun w hw ↦ ?_⟩
    · rw [map_blockOf hL' hmem]
      exact hL'
    · rw [blockOf_eq hL' (hmem w hw)]
      exact hi.live w (List.mem_of_mem_erase hw)

/-- An address inside a block that is not free is not that of a header. -/
theorem HeapInv.inside_ne (hi : HeapInv base h L others segs) {c d : Region} (hc : c ∈ L ++ others)
    (hd : d ∈ others) (hda : d.addr < a) (had : a < d.stop) : c.addr ≠ a := by
  have hdrange := hi.range_of_mem (List.mem_append_right _ hd) (hi.sizes d hd).2
  have hdisjoint : ∀ c ∈ L ++ others.erase d, 0 < c.len → c.addr ≠ a := by
    intro c hc hpos
    have hor := (hi.perm (List.perm_cons_erase hd)).disjoint_cons hc hpos
    simp only [Region.stop] at hor had
    omega
  rcases List.mem_append.1 hc with hc | hc
  · rcases hi.base_or_pos c hc with rfl | hpos
    · exact (by omega : base < a).ne
    · exact hdisjoint c (List.mem_append_left _ hc) hpos
  · rcases List.mem_cons.1 ((List.perm_cons_erase hd).mem_iff.1 hc) with rfl | hc'
    · exact hda.ne
    · exact hdisjoint c (List.mem_append_right _ hc') (hi.sizes c hc).2

/-- A store at an address that is not that of a header. -/
theorem HeapInv.store (hi : HeapInv base h L others segs) (ha : ∀ c ∈ L ++ others, c.addr ≠ a) (x : Header) :
    HeapInv base { h with hdr := update h.hdr a x } L others segs :=
  { hi with
    linked := hi.linked.congr fun c hc ↦
      update_of_ne (ha c (List.mem_append_left _ hc)) _ _
    sizes := fun d hd ↦ by
      dsimp only
      rw [update_of_ne (ha d (List.mem_append_right _ hd))]
      exact hi.sizes d hd }

/-- A store of the program keeps the invariant. -/
theorem ProcInv.store (hi : ProcInv S σ) (hv : v ∈ σ.live) (hva : v.ap < a + 8) (hav : a < v.ap + v.nbytes)
    (x : Header) : ProcInv S { σ with heap := { σ.heap with hdr := update σ.heap.hdr a x } } := by
  rcases hi.heap with ⟨-, hlive, -⟩ | ⟨L, hL⟩
  · rw [hlive] at hv
    cases hv
  · have hmem : ∀ w ∈ σ.live, blockOf σ.heap w ∈ σ.live.map (blockOf σ.heap) :=
      fun w hw ↦ List.mem_map_of_mem hw
    obtain ⟨hap, hlen⟩ := hi.live v hv
    have haddr : (blockOf σ.heap v).addr = v.ap - 8 := rfl
    have hL' := hL.store (fun c hc ↦ hL.inside_ne hc (hmem v hv) (a := a) (by omega) (by
      rw [Region.stop]
      omega)) x
    refine ⟨hi.ok, .inr ⟨L, ?_⟩, fun w hw ↦ ?_⟩
    · rw [map_blockOf hL' hmem]
      exact hL'
    · rw [blockOf_eq hL' (hmem w hw)]
      exact hi.live w hw

/-- One step keeps the invariant. -/
theorem ProcInv.step (hpos : 0 < base) (hlt : base < 2 ^ 32) (hi : ProcInv S σ) {l : Label}
    (hasks : Asks σ l) (hstep : σ.step S.sbrk base l = some (.ok τ)) : ProcInv S τ := by
  cases l with
  | malloc nbytes fuel =>
    obtain ⟨x, hx, hmap⟩ := Option.map_eq_some_iff.1 hstep
    obtain ⟨r, hret, hr⟩ := hi.malloc hpos hlt hasks
    have hxr : x = r := hret.eq_of_run (fun n ↦ mallocLoop_extends _ _ n _ _ _ _) hx
    rw [hxr] at hmap
    rcases hr with ⟨e, rfl, -⟩ | ⟨p, h, k, rfl, -, hinv⟩
    · cases hmap
    · obtain rfl := Except.ok.inj hmap
      exact hinv
  | free v fuel =>
    rw [Process.step] at hstep
    split at hstep
    next hv =>
      obtain ⟨x, hx, hmap⟩ := Option.map_eq_some_iff.1 hstep
      obtain ⟨h, hret, hinv⟩ := hi.free hv
      have hxr : x = .ok h := hret.eq_of_run (fun n ↦ free_extends n _ _) hx
      rw [hxr] at hmap
      obtain rfl := Except.ok.inj hmap
      exact hinv
    · cases hstep
  | store v a x =>
    rw [Process.step] at hstep
    split at hstep
    next hv =>
      obtain rfl := Except.ok.inj (Option.some.inj hstep)
      exact hi.store hv.1 hv.2.1 hv.2.2 x
    · cases hstep

variable (S)

/-- The program has not called `malloc` yet. -/
structure Starts (σ : Process K) : Prop where
  ok : S.Ok σ.kernel
  /-- `freep` is zero. -/
  freep : σ.heap.freep = 0
  live : σ.live = []
  obtained : S.obtained σ.kernel = []

variable {S}

/-- The invariant holds in every run whose requests are small. -/
theorem ProcInv.run (hpos : 0 < base) (hlt : base < 2 ^ 32) (hstart : Starts S σ) {ls : List Label}
    (hrun : Machine.Run (Machine.guarded Asks (Process.step S.sbrk base)) σ ls τ) : ProcInv S τ := by
  have hinit : ProcInv S σ := by
    refine ⟨hstart.ok, .inl ⟨hstart.freep, hstart.live, hstart.obtained⟩, ?_⟩
    rw [hstart.live]
    exact nofun
  refine hrun.invariant (P := ProcInv S) hinit ?_
  intro τ τ' l hinv hstep
  obtain ⟨hasks, hstep⟩ := Machine.guarded_eq_some.1 hstep
  exact hinv.step hpos hlt hasks hstep

/-- In every run of a program whose requests are small the free list is in order, and `malloc` and `free` end. -/
theorem free_list (S : Sbrk ε K base) (hpos : 0 < base) (hlt : base < 2 ^ 32) {σ τ : Process K}
    (hstart : Starts S σ) {ls : List Label}
    (hrun : Machine.Run (Machine.guarded Asks (Process.step S.sbrk base)) σ ls τ) :
    ((τ.heap.freep = 0 ∧ τ.live = [] ∧ S.obtained τ.kernel = []) ∨
      ∃ l, FreeList base τ.heap τ.live (S.obtained τ.kernel) l) ∧
    (∀ nbytes, Small nbytes →
      ∃ r, Returns (fun n ↦ malloc S.sbrk base n nbytes τ.heap τ.kernel) r) ∧
    ∀ v ∈ τ.live, ∃ h, Returns (fun n ↦ free n τ.heap v.ap) (.ok h : Except ε Heap) := by
  have hinv := ProcInv.run hpos hlt hstart hrun
  refine ⟨hinv.heap.imp_right fun ⟨L, hL⟩ ↦ ⟨_, hL.freeList⟩, fun nbytes hsmall ↦ ?_, fun v hv ↦ ?_⟩
  · obtain ⟨r, hret, -⟩ := hinv.malloc hpos hlt hsmall
    exact ⟨r, hret⟩
  · obtain ⟨h, hret, -⟩ := hinv.free hv
    exact ⟨h, hret⟩

end Runs

/-! ### Memory without holes -/

/-- Where the next piece of memory is, above `base`. -/
def top (base : ℕ) : List Region → ℕ
  | [] => base + 8
  | s :: _ => s.stop

/-- A kernel that gives the pieces of memory one after the other. -/
def pool (base : ℕ) : Sbrk Empty (List Region) base where
  sbrk segs n :=
    if top base segs + n < FAILED then .ok (top base segs, ⟨top base segs, n⟩ :: segs)
    else .ok (FAILED, segs)
  obtained segs := segs
  Ok segs := base + 8 ≤ top base segs ∧ ∀ s ∈ segs, s.stop ≤ top base segs
  law := by
    intro segs segs' n p hok _ _ h
    split at h
    next hlt =>
      obtain ⟨rfl, rfl⟩ := Prod.mk.inj (Except.ok.inj h)
      have htop : top base (⟨top base segs, n⟩ :: segs) = top base segs + n := rfl
      refine ⟨⟨by omega, fun s hs ↦ ?_⟩, .inr ⟨by omega, rfl, hok.2, hok.1, ?_⟩⟩
      · rcases List.mem_cons.1 hs with rfl | hs
        · exact Nat.le_refl _
        · exact (hok.2 s hs).trans (Nat.le_add_right _ _)
      · rw [FAILED] at hlt
        omega
    · obtain ⟨rfl, rfl⟩ := Prod.mk.inj (Except.ok.inj h)
      exact ⟨hok, .inl ⟨rfl, rfl⟩⟩

/-- Two blocks are taken, the first one is freed, and a larger one is taken. -/
theorem free_list_pool : ∃ τ, Machine.Run (Machine.guarded Asks (Process.step (pool 4096).sbrk 4096))
      ⟨⟨fun _ ↦ ⟨0, 0⟩, 0⟩, [], []⟩
      [.malloc 1000 10, .malloc 20 10, .free ⟨35872, 1000⟩ 10, .malloc 2000 10] τ ∧
    ∃ l, FreeList 4096 τ.heap τ.live τ.kernel l := by
  refine Machine.exists_run_of (fun τ ↦ τ.heap.freep ≠ 0) (by decide +kernel) fun τ hrun hτ ↦ ?_
  have hstart : Starts (pool 4096) ⟨⟨fun _ ↦ ⟨0, 0⟩, 0⟩, [], []⟩ :=
    ⟨⟨Nat.le_refl _, nofun⟩, rfl, rfl, rfl⟩
  exact (free_list (pool 4096) (by decide) (by decide) hstart hrun).1.resolve_left fun hfresh ↦ hτ hfresh.1

end Malloc

end Xv6
