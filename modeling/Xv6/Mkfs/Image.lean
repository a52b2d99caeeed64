import Xv6.Mkfs.Files

/-!
# The finished image

`Mkfs.Filled files m s` is what holds when the files so far have been added: each file has taken one
inode and one directory entry, and the blocks in use are those of the meta data, the root directory
and the files. One turn of the loop of `main` keeps it (`Mkfs.addFile_sat`). Then the size of the root
directory is rounded up and the free map is written; the free map is right, as nothing was lost
(`Mkfs.main_wellFormed`).

The rounding `((off/BSIZE) + 1) * BSIZE` adds a whole block to a size that is already a multiple of
`BSIZE`. There is no block for it: with 32 entries, or 64, …, the root directory ends in a hole.
-/

namespace Xv6

open Function

namespace Mkfs

open PointerTree

/-- The size of the root directory, with `.` and `..`. -/
def rootSize (n : ℕ) : ℕ := (n + 2) * DIRENTSIZE

/-- The blocks of the files. -/
def fileBlocks (files : List HostFile) : ℕ := (files.map fun f ↦ blocksFor f.bytes.length).sum

/-- The blocks in use: those before the data, those of the root directory and those of the files. -/
def usedBlocks (files : List HostFile) : ℕ :=
  nmeta + blocksFor (rootSize files.length) + fileBlocks files

/-- The inode of the root directory. -/
def root : Inum := ⟨ROOTINO, by decide⟩

/-- The files have been added. -/
structure Filled (files : List HostFile) (m : MkfsState) (s : FsState) : Prop extends Built m s where
  freeinode : m.freeinode = files.length + 2
  freeblock : m.freeblock = usedBlocks files
  size : sizeOf m.img root = rootSize files.length

variable {m m' : MkfsState} {s t : FsState} {files : List HostFile} {f : HostFile}

/-! ### Adding files -/

theorem length_direntBytes (inum : ℕ) (name : List Byte) :
    (direntBytes inum name).length = DIRENTSIZE := by
  rw [direntBytes, List.length_append, LittleEndian.length_encode, List.length_take,
    List.length_append, List.length_replicate, Nat.min_eq_left (Nat.le_add_left ..), DIRENTSIZE]

theorem rootSize_succ (n : ℕ) : rootSize n + DIRENTSIZE = rootSize (n + 1) := by
  rw [rootSize, rootSize, ← Nat.succ_mul, Nat.add_right_comm]

theorem usedBlocks_concat (files : List HostFile) (f : HostFile) :
    usedBlocks (files ++ [f]) + blocksFor (rootSize files.length) =
      usedBlocks files + blocksFor (rootSize (files.length + 1)) + blocksFor f.bytes.length := by
  simp only [usedBlocks, fileBlocks, List.map_append, List.map_cons, List.map_nil, List.sum_append,
    List.sum_cons, List.sum_nil, List.length_append, List.length_singleton]
  omega

/-- The root directory stays small. -/
theorem rootSize_le {n : ℕ} (h : n + 2 ≤ ninodeblocks * IPB) : rootSize n ≤ CAPACITY := by
  have h' : n + 2 ≤ 208 := h
  show (n + 2) * 16 ≤ 70656
  omega

/-- A directory entry in the root directory. -/
theorem iappend_root_sat (h : Built m s) (hlt : ROOTINO < m.freeinode) {n : ℕ}
    (hn : n + 3 ≤ ninodeblocks * IPB) (hsize : sizeOf m.img root = rootSize n)
    (hroom : m.freeblock + blocksFor (rootSize (n + 1)) ≤ FSSIZE + blocksFor (rootSize n))
    (inum : ℕ) (name : List Byte) : (iappend ROOTINO (direntBytes inum name)).Sat m
      (fun _ m' ↦ ∃ t, Appended m s root (direntBytes inum name) m' t ∧
        sizeOf m'.img root = rootSize (n + 1)) fun _ ↦ False := by
  have hlen := length_direntBytes inum name
  have hnext : sizeOf m.img root + (direntBytes inum name).length = rootSize (n + 1) := by
    rw [hsize, hlen, rootSize_succ]
  have hcap := rootSize_le hn
  have hmax : CAPACITY ≤ MAXFILE * BSIZE := by decide
  refine (iappend_sat (i := root) h hlt (by rw [hnext]; exact hcap.trans hmax) ?_).mono ?_ ?_
  · rw [hnext, hsize, Nat.min_eq_left hcap]
    exact hroom
  · rintro - m' ⟨-, t, ht⟩
    exact ⟨t, ht, ht.size.trans hnext⟩
  · rintro e ⟨-, hlt⟩
    omega

/-- One turn of the loop. -/
theorem addFile_sat (h : Filled files m s) (hname : 0x2f#8 ∉ f.name)
    (hsize : f.bytes.length ≤ CAPACITY) (hinodes : files.length + 3 ≤ ninodeblocks * IPB)
    (hroom : usedBlocks (files ++ [f]) ≤ FSSIZE) :
    (addFile ROOTINO f).Sat m (fun _ m' ↦ ∃ t, Filled (files ++ [f]) m' t) fun _ ↦ False := by
  have hmax : CAPACITY ≤ MAXFILE * BSIZE := by decide
  have hconcat := usedBlocks_concat files f
  rw [addFile, if_neg hname]
  have hfree : m.freeinode < ninodeblocks * IPB := by
    rw [h.freeinode]
    exact hinodes
  refine (ialloc_sat h.toBuilt hfree T_FILE).bind ?_
  rintro _ m₁ ⟨rfl, t, ht⟩
  obtain ⟨i, hi⟩ : ∃ i : Inum, i = ⟨_, hfree⟩ := ⟨_, rfl⟩
  rw [← hi] at ht
  have hroot : root ≠ i := by
    intro heq
    have hval := congrArg Fin.val heq
    rw [ht.inum, h.freeinode] at hval
    change 1 = files.length + 2 at hval
    omega
  have hfi : m₁.freeinode = files.length + 3 := ht.freeinode.trans (by rw [h.freeinode])
  have hfb : m₁.freeblock = usedBlocks files := ht.freeblock.trans h.freeblock
  -- the entry in the root directory
  refine (iappend_root_sat ht.toBuilt (by rw [hfi, ROOTINO]; omega) hinodes ?_ ?_ _ _).bind ?_
  · rw [sizeOf, ht.dinode, if_neg hroot]
    exact h.size
  · omega
  rintro - m₂ ⟨u, hu, husize⟩
  have hsize₁ : sizeOf m₁.img root = rootSize files.length := by
    rw [sizeOf, ht.dinode, if_neg hroot]
    exact h.size
  have hfb₂ := hu.freeblock
  rw [hsize₁, length_direntBytes, rootSize_succ, hfb] at hfb₂
  have hnew : dinodeOf m₂.img i = { Dinode.zero with type := T_FILE, nlink := 1 } := by
    rw [hu.other i hroot.symm, ht.dinode, if_pos rfl]
  -- the contents
  have hholding : Holding m₂.freeblock i T_FILE [] m₂ u := by
    refine ⟨hu.toBuilt, ?_, rfl, by rw [hnew], ?_, fun x hx ↦ absurd hx (Nat.not_lt_zero x)⟩
    · rw [hu.freeinode, ht.freeinode, ht.inum]
      exact Nat.lt_succ_self _
    · rw [sizeOf, hnew]
      rfl
  have hval : m.freeinode = i := ht.inum.symm
  rw [hval]
  refine (forEach_iappend_sat hholding f.pieces (hsize.trans hmax) ?_).mono ?_ ?_
  · change _ + blocksFor (min f.bytes.length _) ≤ _
    rw [Nat.min_eq_left hsize]
    omega
  · rintro - m' ⟨hfi', hother, v, hv⟩
    refine ⟨v, hv.toBuilt, ?_, ?_, ?_⟩
    · rw [hfi', hu.freeinode, hfi, List.length_append]
      rfl
    · rw [hv.freeblock]
      change m₂.freeblock + blocksFor f.bytes.length = _
      omega
    · rw [sizeOf, hother root hroot, ← sizeOf, husize, List.length_append]
      rfl
  · rintro e ⟨-, hlt⟩
    exact absurd hsize (Nat.not_le.2 hlt)

/-- The blocks of some of the files are not more than those of all. -/
theorem usedBlocks_le (done rest : List HostFile) : usedBlocks done ≤ usedBlocks (done ++ rest) := by
  have hmono : blocksFor (rootSize done.length) ≤ blocksFor (rootSize (done ++ rest).length) := by
    refine blocksFor_mono (Nat.mul_le_mul_right _ ?_)
    rw [List.length_append]
    omega
  have hsum : fileBlocks (done ++ rest) = fileBlocks done + fileBlocks rest := by
    rw [fileBlocks, List.map_append, List.sum_append]
    rfl
  rw [usedBlocks, usedBlocks, hsum]
  omega

/-- The loop. -/
theorem addFiles_sat (h : Filled [] m s) (hname : ∀ f ∈ files, 0x2f#8 ∉ f.name)
    (hsize : ∀ f ∈ files, f.bytes.length ≤ CAPACITY)
    (hinodes : files.length + 2 ≤ ninodeblocks * IPB) (hroom : usedBlocks files ≤ FSSIZE) :
    (Prog.forEach files (addFile ROOTINO)).Sat m (fun _ m' ↦ ∃ t, Filled files m' t) fun _ ↦ False := by
  have hloop : (Prog.forEach files (addFile ROOTINO)).Sat m
      (fun _ m' ↦ ∃ done t, done ++ [] = files ∧ Filled done m' t) fun _ ↦ False := by
    refine Prog.Sat.forEach (P := fun rest m' ↦ ∃ done t, done ++ rest = files ∧ Filled done m' t)
      ⟨[], s, rfl, h⟩ ?_
    rintro f rest m' ⟨done, t, hdone, ht⟩
    have hmem : f ∈ files := by
      rw [← hdone]
      exact List.mem_append_right _ List.mem_cons_self
    have hsplit : done ++ [f] ++ rest = files := by rw [List.append_assoc, ← hdone]; rfl
    have hlen := congrArg List.length hsplit
    rw [List.length_append, List.length_append, List.length_singleton] at hlen
    refine (addFile_sat ht (hname f hmem) (hsize f hmem) (by omega) ?_).imp ?_
    · exact (usedBlocks_le (done ++ [f]) rest).trans (hsplit ▸ hroom)
    · rintro - m'' ⟨u, hu⟩
      exact ⟨done ++ [f], u, hsplit, hu⟩
  refine hloop.imp ?_
  rintro - m' ⟨done, t, hdone, ht⟩
  rw [List.append_nil] at hdone
  exact ⟨t, hdone ▸ ht⟩

/-! ### The root directory and the free map -/

/-- The block map of all inodes on the image, as the kernel follows it. -/
def blockMap (img : ℕ → Block) : Forest (Inum × ℕ) ℕ := forest (roots img) (kernelOn img)

/-- The inode has a block for each of its bytes. -/
def HasBlocks (img : ℕ → Block) (i : Inum) : Prop :=
  ∀ bn, bn * BSIZE < sizeOf img i → (blockMap img).ptr (dataPos i bn) ≠ 0

/-- The free map marks the blocks before the data and those in the block map. -/
def MapExact (img : ℕ → Block) : Prop :=
  ∀ b < FSSIZE, (kernelOn img).used mkfsSuperblock b = true ↔
    b < nmeta ∨ ∃ p, (treeShape Inum).Pos p ∧ (blockMap img).ptr p = b

/-- What `main` leaves: the size of the root directory is rounded up, and the free map is written. -/
def finish (m : MkfsState) (size : ℕ) : ℕ → Block :=
  update (update m.img (mkfsSuperblock.IBLOCK ROOTINO)
    ((m.img (mkfsSuperblock.IBLOCK ROOTINO)).setDinode (ROOTINO % IPB)
      { dinodeOf m.img ROOTINO with size := BitVec.ofNat 32 size }))
    mkfsSuperblock.bmapstart (Block.firstBits m.freeblock)

theorem dinodeOf_finish (m : MkfsState) (size : ℕ) (i : Inum) : dinodeOf (finish m size) i =
      if i = root then { dinodeOf m.img root with size := BitVec.ofNat 32 size }
      else dinodeOf m.img i := by
  have hne : mkfsSuperblock.IBLOCK i ≠ mkfsSuperblock.bmapstart := (IBLOCK_lt i).ne
  rw [finish, dinodeOf, update_of_ne hne, ← dinodeOf, dinodeOf_update]
  exact if_congr (Fin.val_inj (b := root)) rfl rfl

theorem roots_finish (m : MkfsState) (size : ℕ) : roots (finish m size) = roots m.img := by
  funext i k
  rw [roots, roots, dinodeOf_finish]
  split
  next h => rw [h]; rfl
  · rfl

section Finish

variable {size : ℕ}

variable (h : Built m s)

include h

theorem finish_blocks {c : ℕ} (hc : mkfsSuperblock.dataStart ≤ c) :
    (kernelOn (finish m size)).blocks c = s.blocks c := by
  have hIB := IBLOCK_lt root
  have hstart : mkfsSuperblock.bmapstart < nmeta := by decide
  rw [mkfsSuperblock_dataStart] at hc
  show finish m size c = _
  have hroot : c ≠ mkfsSuperblock.IBLOCK ROOTINO := by
    intro heq
    change mkfsSuperblock.IBLOCK ROOTINO < _ at hIB
    omega
  rw [finish, update_of_ne (by omega), update_of_ne hroot, h.blocks c (.inr hc)]

theorem ptr_finish {p : (Inum × ℕ) × List ℕ} (hp : (treeShape Inum).Pos p) :
    (blockMap (finish m size)).ptr p = (forest (roots m.img) s).ptr p := by
  rw [blockMap, roots_finish]
  exact h.owned.ptr_of_blocks (fun _ hc ↦ finish_blocks h hc) hp

theorem used_finish (hused : m.freeblock < BSIZE * 8) {b : ℕ} (hb : b < FSSIZE) :
    (kernelOn (finish m size)).used mkfsSuperblock b = true ↔ b < m.freeblock := by
  refine used_kernelOn (fun c hc hc' ↦ ?_) hused.le hb
  have hIB : mkfsSuperblock.IBLOCK ROOTINO < mkfsSuperblock.bmapstart := IBLOCK_lt root
  rw [update_of_ne (by omega), h.map c hc hc']

/-- The free map that is written is the one that the blocks were taken from. -/
theorem mapExact_finish (hused : m.freeblock < BSIZE * 8) : MapExact (finish m size) := by
  intro b hb
  rw [used_finish h hused hb, ← h.used b hb]
  constructor
  · intro hmark
    rcases Nat.lt_or_ge b nmeta with hlt | hge
    · exact .inl hlt
    · obtain ⟨p, hp, hptr⟩ := h.noLeak b (mkfsSuperblock_dataStart ▸ hge) hb hmark
      exact .inr ⟨p, hp, (ptr_finish h hp).trans hptr⟩
  · rintro (hlt | ⟨p, hp, hptr⟩)
    · exact h.owned.used_meta b (mkfsSuperblock_dataStart ▸ hlt)
    · rcases Nat.eq_zero_or_pos b with rfl | hpos
      · exact h.owned.used_meta 0 (by decide)
      · rw [ptr_finish h hp] at hptr
        rw [← hptr]
        exact h.owned.used_ptr p hp (by omega)

theorem injective_finish : (blockMap (finish m size)).Injective (treeShape Inum) := by
  intro p q hp hq hne heq
  rw [ptr_finish h hp] at hne heq
  rw [ptr_finish h hq] at heq
  exact h.owned.inj p q hp hq hne heq

/-- A block of a file, on the finished image. -/
theorem ptr_dataPos_finish (i : Inum) {bn : ℕ} (hbn : bn < NDIRECT + NINDIRECT) :
    (blockMap (finish m size)).ptr (dataPos i bn) ≠ 0 ↔ bn * BSIZE < sizeOf m.img i := by
  rw [ptr_finish h (pos_dataPos (lt_SAFEBLOCKS hbn))]
  exact (h.exact i).data bn hbn

/-- An inode that has kept its size. -/
theorem hasBlocks_finish {i : Inum} (hi : i ≠ root) : HasBlocks (finish m size) i := by
  intro bn hbn
  rw [sizeOf, dinodeOf_finish, if_neg hi, ← sizeOf] at hbn
  have hcap := h.size_le i
  refine (ptr_dataPos_finish h i ?_).2 hbn
  have hB : BSIZE = 512 := rfl
  have hC : CAPACITY = 138 * 512 := rfl
  rw [hB] at hbn
  show bn < 138
  omega

/-- The root directory has a block for each of its bytes unless its size was a multiple of `BSIZE`
before it was rounded. -/
theorem hasBlocks_root_finish {n : ℕ} (hn : n + 2 ≤ ninodeblocks * IPB)
    (hsize : sizeOf m.img root = rootSize n) :
    HasBlocks (finish m ((rootSize n / BSIZE + 1) * BSIZE)) root ↔ rootSize n % BSIZE ≠ 0 := by
  have hB : BSIZE = 512 := rfl
  have hn' : n + 2 ≤ 208 := hn
  have hroot : rootSize n = (n + 2) * 16 := rfl
  have hnew : sizeOf (finish m ((rootSize n / BSIZE + 1) * BSIZE)) root =
      (rootSize n / BSIZE + 1) * BSIZE := by
    rw [sizeOf, dinodeOf_finish, if_pos rfl]
    refine Nat.mod_eq_of_lt ?_
    rw [hroot, hB]
    omega
  have hlast : rootSize n / BSIZE < NDIRECT + NINDIRECT := by
    show rootSize n / 512 < 138
    omega
  constructor
  · -- the last block
    intro hblocks
    have hptr := hblocks (rootSize n / BSIZE) (by rw [hnew, hB]; omega)
    rw [ptr_dataPos_finish h root hlast, hsize, hB] at hptr
    rw [hB]
    omega
  · intro hmod bn hbn
    rw [hnew, hB] at hbn
    rw [hB] at hmod hlast
    refine (ptr_dataPos_finish h root (by omega)).2 ?_
    rw [hsize, hB]
    omega

end Finish

/-! ### `main` -/

/-- The root directory with its first entries. -/
theorem ialloc_root_sat {img : ℕ → Block}
    (himg : ∀ c, mkfsSuperblock.inodestart ≤ c → img c = Block.zero) :
    (ialloc T_DIR).Sat ⟨img, 1, nmeta⟩ (fun rootino m ↦ rootino = ROOTINO ∧ ∃ s, Built m s ∧
      m.freeinode = 2 ∧ m.freeblock = nmeta ∧ sizeOf m.img root = 0) fun _ ↦ False := by
  obtain ⟨s, hs⟩ := Built.init img himg
  refine (ialloc_sat hs (show 1 < ninodeblocks * IPB by decide) T_DIR).imp ?_
  rintro _ m ⟨rfl, t, ht⟩
  refine ⟨rfl, t, ht.toBuilt, ht.freeinode, ht.freeblock, ?_⟩
  exact congrArg (fun d ↦ d.size.toNat) ((ht.dinode root).trans (if_pos rfl))

/-- `main` fills the image, fixes the size of the root directory and writes the free map. -/
theorem main_sat (files : List HostFile) (hname : ∀ f ∈ files, 0x2f#8 ∉ f.name)
    (hsize : ∀ f ∈ files, f.bytes.length ≤ CAPACITY)
    (hinodes : files.length + 2 ≤ ninodeblocks * IPB) (hused : usedBlocks files < BSIZE * 8) :
    (main files).Sat MkfsState.init (fun _ m' ↦ ∃ m s, Filled files m s ∧
        m'.img = finish m ((rootSize files.length / BSIZE + 1) * BSIZE)) fun _ ↦ False := by
  have hdisk : BSIZE * 8 ≤ FSSIZE := by decide
  have hstart : usedBlocks [] ≤ usedBlocks files := usedBlocks_le [] files
  rw [main, wsect, Prog.sat_modify_bind]
  refine (ialloc_root_sat fun c hc ↦ ?_).bind ?_
  · have h1 : 1 < mkfsSuperblock.inodestart := by decide
    exact update_of_ne (by omega) ..
  rintro _ m₁ ⟨rfl, s₁, h₁, hfi₁, hfb₁, hsize₁⟩
  rw [if_neg (not_not.2 rfl)]
  -- `.`
  have hdot := iappend_sat (i := root) h₁ (by rw [hfi₁]; decide)
    (p := direntBytes ROOTINO [0x2e#8]) (by rw [hsize₁, length_direntBytes]; decide)
    (by rw [hsize₁, length_direntBytes, hfb₁]; decide)
  refine (hdot.mono (fun _ _ h ↦ h) ?_).bind ?_
  · rintro e ⟨-, hlt⟩
    rw [hsize₁, length_direntBytes] at hlt
    exact absurd hlt (by decide)
  rintro - m₂ ⟨-, s₂, h₂⟩
  have hsize₂ : sizeOf m₂.img root = DIRENTSIZE := by
    rw [h₂.size, hsize₁, length_direntBytes, Nat.zero_add]
  have hfb₂ := h₂.freeblock
  rw [hsize₁, length_direntBytes, hfb₁, Nat.zero_add] at hfb₂
  -- `..`
  have hdots := iappend_sat (i := root) h₂.toBuilt (by rw [h₂.freeinode, hfi₁]; decide)
    (p := direntBytes ROOTINO [0x2e#8, 0x2e#8]) (by rw [hsize₂, length_direntBytes]; decide)
    (by
      rw [hsize₂, length_direntBytes]
      change m₂.freeblock + 0 = nmeta + 1 at hfb₂
      change m₂.freeblock + 1 ≤ 40000 + 1
      have hm : nmeta = 68 := rfl
      omega)
  refine (hdots.mono (fun _ _ h ↦ h) ?_).bind ?_
  · rintro e ⟨-, hlt⟩
    rw [hsize₂, length_direntBytes] at hlt
    exact absurd hlt (by decide)
  rintro - m₃ ⟨-, s₃, h₃⟩
  have hfilled : Filled [] m₃ s₃ := by
    refine ⟨h₃.toBuilt, by rw [h₃.freeinode, h₂.freeinode, hfi₁]; rfl, ?_, ?_⟩
    · have hfb₃ := h₃.freeblock
      rw [hsize₂, length_direntBytes] at hfb₃
      change m₂.freeblock + 0 = nmeta + 1 at hfb₂
      change m₃.freeblock + 1 = m₂.freeblock + 1 at hfb₃
      change m₃.freeblock = nmeta + 1
      omega
    · rw [h₃.size, hsize₂, length_direntBytes]
      rfl
  refine (addFiles_sat hfilled hname hsize hinodes (hused.le.trans hdisk)).bind ?_
  rintro - m ⟨s, h⟩
  -- the size of the root directory, and the free map
  have hfix := sat_rinode (m := m) root (Q := fun din m' ↦ (winode ROOTINO { din with
    size := BitVec.ofNat 32 ((din.size.toNat / BSIZE + 1) * BSIZE) }).Sat m'
      (fun _ m'' ↦ m''.freeblock = usedBlocks files ∧ m''.img = update m.img
        (mkfsSuperblock.IBLOCK ROOTINO) ((m.img (mkfsSuperblock.IBLOCK ROOTINO)).setDinode
          (ROOTINO % IPB) { dinodeOf m.img ROOTINO with
            size := BitVec.ofNat 32 ((rootSize files.length / BSIZE + 1) * BSIZE) }))
      fun _ ↦ False) (E := fun _ ↦ False)
  have hrsize : (dinodeOf m.img root).size.toNat = rootSize files.length := h.size
  rw [fixRootSize]
  refine (Prog.sat_bind.2 (hfix.2 ?_)).bind ?_
  · rw [hrsize]
    exact (sat_winode root _).2 ⟨h.freeblock, rfl⟩
  · rintro - m' ⟨hfb, himg⟩
    rw [Prog.sat_get_bind, balloc, hfb, if_pos hused]
    refine ⟨m, s, h, ?_⟩
    rw [finish, ← himg, h.freeblock]

/-- **The finished image**: the free map marks the blocks before the data and those of the inodes,
no block is used twice, and every inode has blocks for all its bytes, except that the root directory
has not when its entries fill their blocks: rounding its size up then adds a block that it does not
have. -/
theorem main_wellFormed (files : List HostFile) (hname : ∀ f ∈ files, 0x2f#8 ∉ f.name)
    (hsize : ∀ f ∈ files, f.bytes.length ≤ CAPACITY)
    (hinodes : files.length + 2 ≤ ninodeblocks * IPB) (hused : usedBlocks files < BSIZE * 8) :
    ∃ m, (main files).run MkfsState.init = .ok ((), m) ∧ MapExact m.img ∧
      (blockMap m.img).Injective (treeShape Inum) ∧ (∀ i ≠ root, HasBlocks m.img i) ∧
      (HasBlocks m.img root ↔ (files.length + 2) * DIRENTSIZE % BSIZE ≠ 0) := by
  obtain ⟨_, m', hrun, m, s, h, himg⟩ := (main_sat files hname hsize hinodes hused).exists_ok
  refine ⟨m', hrun, ?_, ?_, fun i hi ↦ ?_, ?_⟩
  all_goals rw [himg]
  · exact mapExact_finish h.toBuilt (h.freeblock ▸ hused)
  · exact injective_finish h.toBuilt
  · exact hasBlocks_finish h.toBuilt hi
  · exact hasBlocks_root_finish h.toBuilt hinodes h.size

/-- An image with one file of three bytes. -/
theorem main_wellFormed_oneFile :
    ∃ m, (main [⟨[0x61#8], [[1#8, 2#8, 3#8]]⟩]).run MkfsState.init = .ok ((), m) ∧
      MapExact m.img ∧ (blockMap m.img).Injective (treeShape Inum) ∧
      ∀ i, HasBlocks m.img i := by
  obtain ⟨m, hrun, hmap, hinj, hother, hroot⟩ := main_wellFormed [⟨[0x61#8], [[1#8, 2#8, 3#8]]⟩]
    (by decide) (by decide) (by decide) (by decide)
  refine ⟨m, hrun, hmap, hinj, fun i ↦ ?_⟩
  rcases eq_or_ne i root with rfl | hi
  · exact hroot.2 (by decide)
  · exact hother i hi

/-- With thirty files, empty ones here, the root directory ends in a hole. -/
theorem main_hole : ∃ m,
    (main (List.replicate 30 ⟨[0x61#8], []⟩)).run MkfsState.init = .ok ((), m) ∧
      ¬HasBlocks m.img root := by
  have hmem (f : HostFile) (hf : f ∈ List.replicate 30 ⟨[0x61#8], []⟩) : f = ⟨[0x61#8], []⟩ :=
    List.eq_of_mem_replicate hf
  obtain ⟨_, m', hrun, m, s, h, himg⟩ := (main_sat (List.replicate 30 ⟨[0x61#8], []⟩)
    (fun f hf ↦ by rw [hmem f hf]; decide) (fun f hf ↦ by rw [hmem f hf]; decide) (by decide)
    (by decide)).exists_ok
  refine ⟨m', hrun, ?_⟩
  rw [himg]
  exact fun hroot ↦ (hasBlocks_root_finish h.toBuilt (by decide) h.size).1 hroot (by decide)

end Mkfs

end Xv6
