import Xv6.Fs.Alloc

/-!
# The block map of an inode

`bmap`, `iupdate` and `itrunc` of `fs.c`. The block numbers of a file are kept in a tree with
thirteen roots in the inode: ten direct blocks, and three indirect blocks at one, two and three
levels. `level` is the number of levels below a root, and `locate bn` the root and the path at which
the number of data block `bn` is kept.

`bmap` reads the second level of the triple-indirect tree at `a[bn/NINDIRECT]`, which is an entry of
the block only while `bn < NDBLINDIRECT` there; it writes the right entry. Below `SAFEBLOCKS` the two
agree and `bmap` is a walk along the path of `locate` (`bmap_eq_walk`).
-/

namespace Xv6

/-- The number of data blocks whose place in the tree `bmap` computes without leaving a block. -/
def SAFEBLOCKS : ℕ := NDIRECT + NINDIRECT + 2 * NDBLINDIRECT

/-- The number of indirect levels below entry `k` of `addrs`. -/
def level (k : ℕ) : ℕ :=
  if k < NDIRECT then 0 else k + 1 - NDIRECT

/-- Where the number of data block `bn` is kept: an entry of `addrs`, and the entries of the
indirect blocks below it. -/
def locate (bn : ℕ) : ℕ × List ℕ :=
  if bn < NDIRECT then
    (bn, [])
  else
    let bn := bn - NDIRECT
    if bn < NINDIRECT then
      (NDIRECT, [bn])
    else
      let bn := bn - NINDIRECT
      if bn < NDBLINDIRECT then
        (NDIRECT + 1, [bn / NINDIRECT, bn % NINDIRECT])
      else
        let bn := bn - NDBLINDIRECT
        (NDIRECT + 2, [bn / NDBLINDIRECT, bn % NDBLINDIRECT / NINDIRECT, bn % NINDIRECT])

/-- The inode with another block address. -/
def Inode.setAddr (i : Inode) (k : ℕ) (w : Word) : Inode :=
  { i with toDinode := i.toDinode.setAddr k w }

namespace Fs

variable (env : Env)

/-! ### `bmap` -/

/-- `a[i]`, for the buffer of block `blk` read as an array of `uint`. -/
def entry (s : FsState) (blk i : ℕ) : Word :=
  if i < NINDIRECT then (s.blocks blk).word i else env.stray s blk i

/-- `if((addr = ip->addrs[k]) == 0) ip->addrs[k] = addr = balloc(ip->dev);` -/
def rootPtr (ip k : ℕ) : FS ℕ := do
  let i ← inode ip
  if i.addr k = 0 then
    let addr ← balloc env
    modifyInode ip fun i ↦ i.setAddr k (BitVec.ofNat 32 addr)
    return addr
  else
    return (i.addr k).toNat

/-- `if((addr = a[i]) == 0){ a[j] = addr = balloc(ip->dev); log_write(bp); }` for the buffer `bp` of
block `blk`, read as the array `a`. -/
def entryPtr (blk i j : ℕ) : FS ℕ := do
  let _ ← bread blk
  let s ← Prog.get
  if entry env s blk i = 0 then
    let addr ← balloc env
    let s ← Prog.get
    logWrite blk ((s.blocks blk).setWord j (BitVec.ofNat 32 addr))
    return addr
  else
    return (entry env s blk i).toNat

/-- Return the disk block address of the nth block in inode ip. If there is no such block, bmap
allocates one. -/
def bmap (ip bn : ℕ) : FS ℕ :=
  if bn < NDIRECT then
    rootPtr env ip bn
  else
    let bn := bn - NDIRECT
    if bn < NINDIRECT then do
      -- load indirect block, allocating if necessary
      let addr ← rootPtr env ip NDIRECT
      entryPtr env addr bn bn
    else
      let bn := bn - NINDIRECT
      if bn < NDBLINDIRECT then do
        let addr ← rootPtr env ip (NDIRECT + 1)
        let addr ← entryPtr env addr (bn / NINDIRECT) (bn / NINDIRECT)
        -- second level
        entryPtr env addr (bn % NINDIRECT) (bn % NINDIRECT)
      else
        let bn := bn - NDBLINDIRECT
        if bn < NTPLINDIRECT then do
          let addr ← rootPtr env ip (NDIRECT + 2)
          -- first
          let addr ← entryPtr env addr (bn / NDBLINDIRECT) (bn / NDBLINDIRECT)
          -- second: read at one index, written at another
          let addr ← entryPtr env addr (bn / NINDIRECT) (bn % NDBLINDIRECT / NINDIRECT)
          -- third
          entryPtr env addr (bn % NINDIRECT) (bn % NINDIRECT)
        else
          panic .bmapOutOfRange

/-! ### `iupdate` and `itrunc` -/

/-- Copy a modified in-memory inode to disk. -/
def iupdate (ip : ℕ) : FS Unit := do
  let i ← inode ip
  let bp ← bread (env.sb.IBLOCK i.inum)
  logWrite (env.sb.IBLOCK i.inum) (bp.setDinode (i.inum % IPB) i.toDinode)

/-- One loop of `itrunc`: free the blocks named in the indirect block `bp`, each after `free` has
dealt with what lies below it. -/
@[irreducible]
def freeEntries (free : ℕ → FS Unit) (bp : Block) : FS Unit :=
  Prog.forEach (List.range NINDIRECT) fun j ↦
    if bp.word j = 0 then
      pure ()
    else do
      free (bp.word j).toNat
      bfree env (bp.word j).toNat

/-- The nested loops of `itrunc`: free what lies below the block `addr`, with the given number of
levels. -/
def freeBelow : ℕ → ℕ → FS Unit
  | 0, _ => pure ()
  | depth + 1, addr => do
    let bp ← bread addr
    freeEntries env (freeBelow depth) bp

/-- The part of `itrunc` for entry `k` of `addrs`. -/
def truncAddr (ip k depth : ℕ) : FS Unit := do
  let i ← inode ip
  if i.addr k = 0 then
    pure ()
  else
    freeBelow env depth (i.addr k).toNat
    bfree env (i.addr k).toNat
    modifyInode ip fun i ↦ i.setAddr k 0

/-- Truncate inode (discard contents). -/
def itrunc (ip : ℕ) : FS Unit := do
  Prog.forEach (List.range NDIRECT) fun i ↦ truncAddr env ip i 0
  truncAddr env ip NDIRECT 1
  truncAddr env ip (NDIRECT + 1) 2
  truncAddr env ip (NDIRECT + 2) 3
  modifyInode ip fun i ↦ { i with size := 0 }
  iupdate env ip

/-! ### `bmap` as a walk -/

/-- Follow a path through indirect blocks, allocating what is missing. -/
def walkFrom : ℕ → List ℕ → FS ℕ
  | addr, [] => pure addr
  | addr, j :: path => do
    let addr ← entryPtr env addr j j
    walkFrom addr path

/-- Follow a path from the inode on, allocating what is missing. -/
def walk (ip : ℕ) (pos : ℕ × List ℕ) : FS ℕ := do
  let addr ← rootPtr env ip pos.1
  walkFrom env addr pos.2

/-- Below `SAFEBLOCKS`, `bmap` is a walk along the path of the data block. -/
theorem bmap_eq_walk {ip bn : ℕ} (h : bn < SAFEBLOCKS) : bmap env ip bn = walk env ip (locate bn) := by
  have hN : NINDIRECT = 128 := rfl
  have hD : NDBLINDIRECT = 16384 := rfl
  have hT : NTPLINDIRECT = 2097152 := rfl
  have hS : SAFEBLOCKS = 10 + 128 + 2 * 16384 := rfl
  unfold bmap locate
  dsimp only
  split
  · exact (Prog.bind_pure _).symm
  next hbn =>
    split
    · simp only [walk, walkFrom, Prog.bind_pure]
    next h1 =>
      split
      · simp only [walk, walkFrom, Prog.bind_pure]
      next h2 =>
        -- the block lies below the first entry of the triple-indirect block
        have hlt : bn - NDIRECT - NINDIRECT - NDBLINDIRECT < NDBLINDIRECT := by
          rw [hN, hD, show NDIRECT = 10 from rfl]
          omega
        rw [if_pos (by rw [hT]; rw [hD] at hlt; omega), Nat.mod_eq_of_lt hlt]
        simp only [walk, walkFrom, Prog.bind_pure]

/-! ### Positions of data blocks -/

theorem level_locate (bn : ℕ) : (locate bn).2.length = level (locate bn).1 := by
  unfold locate
  dsimp only
  split
  next h => rw [level, if_pos h]; rfl
  · split
    · rfl
    · split
      · rfl
      · rfl

theorem locate_fst_lt (bn : ℕ) : (locate bn).1 < NADDRS := by
  have hK : NDIRECT + 2 < NADDRS := by decide
  unfold locate
  dsimp only
  split
  · omega
  · split
    · dsimp only; omega
    · split
      · dsimp only; omega
      · exact hK

theorem locate_snd_lt {bn : ℕ} (h : bn < SAFEBLOCKS) : ∀ i ∈ (locate bn).2, i < NINDIRECT := by
  have hN : NINDIRECT = 128 := rfl
  have hD : NDBLINDIRECT = 16384 := rfl
  have hS : SAFEBLOCKS = 10 + 128 + 2 * 16384 := rfl
  have hK : NDIRECT = 10 := rfl
  rw [locate, hN, hD, hK]
  dsimp only
  split
  · simp
  · split
    · simpa
    · split
      all_goals
        simp only [List.mem_cons, List.not_mem_nil, or_false, forall_eq_or_imp, forall_eq]
        omega

/-- The data block whose number is kept at a position. -/
def blockAt : ℕ × List ℕ → ℕ
  | (_, [i]) => NDIRECT + i
  | (_, [i, j]) => NDIRECT + NINDIRECT + (i * NINDIRECT + j)
  | (_, [i, j, l]) =>
    NDIRECT + NINDIRECT + NDBLINDIRECT + (i * NDBLINDIRECT + j * NINDIRECT + l)
  | (k, _) => k

theorem blockAt_locate (bn : ℕ) : blockAt (locate bn) = bn := by
  have hN : NINDIRECT = 128 := rfl
  have hD : NDBLINDIRECT = 16384 := rfl
  unfold locate
  dsimp only
  split
  · rfl
  · split
    · rw [blockAt]; omega
    · split
      · rw [blockAt, hN]; rw [hN] at *; omega
      · rw [blockAt, hN, hD]; rw [hN, hD] at *; omega

/-- Different data blocks have different positions. -/
theorem locate_injective : Function.Injective locate :=
  Function.LeftInverse.injective blockAt_locate

end Fs

end Xv6
