import Xv6.Fs.State

/-!
# `mkfs`

The program that writes the first image: `mkfs.c`. It keeps two counters, `freeinode` and
`freeblock`, hands out inodes and blocks in order, and writes the free map at the end.

`xshort` and `xint` convert between the byte order of the host and that of the image. Here a block is
read and written in the byte order of the image, so they do not show. An index into `indirect` that
lies beyond the array is behaviour that C leaves undefined: it is a way to stop, like an `assert` that
fails. The names and the contents of the host's files are what `argv` and `read` deliver; each call
of `read` delivers a piece of the file, and nothing is assumed of how long the pieces are.
-/

namespace Xv6

/-- The state of `mkfs`. -/
structure MkfsState where
  /-- The image, `FSSIZE` blocks that are zero at first. -/
  img : ℕ → Block
  /-- The next inode. -/
  freeinode : ℕ
  /-- The next block. -/
  freeblock : ℕ

/-- Why `mkfs` does not go on. -/
inductive MkfsStop where
  /-- `assert(fbn < MAXFILE)`. -/
  | fileTooBig
  /-- `assert(used < BSIZE*8)`. -/
  | tooManyBlocks
  /-- `assert(rootino == ROOTINO)`. -/
  | rootino
  /-- `assert(index(argv[i], '/') == 0)`. -/
  | name
  /-- There is no such sector: `exit(1)`. -/
  | sector
  /-- An index beyond the end of `indirect`. -/
  | outOfBounds
  deriving DecidableEq

/-- A part of `mkfs`. -/
abbrev Mkfs (α : Type) : Type := Prog MkfsState MkfsStop α

/-- A file of the host. -/
structure HostFile where
  /-- Its name. -/
  name : List Byte
  /-- What the calls of `read` deliver. -/
  pieces : List (List Byte)

/-- The contents of the file. -/
def HostFile.bytes (f : HostFile) : List Byte := f.pieces.flatten

namespace Mkfs

/-! ### Sectors and inodes -/

/-- `rsect`. The image has `FSSIZE` sectors. -/
def rsect (sec : ℕ) : Mkfs Block := do
  if sec < FSSIZE then
    let m ← Prog.get
    return m.img sec
  else
    Prog.fail .sector

/-- `wsect`. -/
def wsect (sec : ℕ) (buf : Block) : Mkfs Unit :=
  Prog.modify fun m ↦ { m with img := Function.update m.img sec buf }

/-- `winode`. -/
def winode (inum : ℕ) (ip : Dinode) : Mkfs Unit := do
  let bn := mkfsSuperblock.IBLOCK inum
  let buf ← rsect bn
  wsect bn (buf.setDinode (inum % IPB) ip)

/-- `rinode`. -/
def rinode (inum : ℕ) : Mkfs Dinode := do
  let buf ← rsect (mkfsSuperblock.IBLOCK inum)
  return buf.dinode (inum % IPB)

/-- `ialloc`. -/
def ialloc (type : Short) : Mkfs ℕ := do
  let m ← Prog.get
  Prog.modify fun m ↦ { m with freeinode := m.freeinode + 1 }
  winode m.freeinode { Dinode.zero with type := type, nlink := 1 }
  return m.freeinode

/-- `balloc`: the first `used` blocks are marked in the free map. -/
def balloc (used : ℕ) : Mkfs Unit := do
  if used < BSIZE * 8 then
    wsect mkfsSuperblock.bmapstart (Block.firstBits used)
  else
    Prog.fail .tooManyBlocks

/-! ### `iappend` -/

/-- `freeblock++`. -/
def takeBlock : Mkfs ℕ := do
  let m ← Prog.get
  Prog.modify fun m ↦ { m with freeblock := m.freeblock + 1 }
  return m.freeblock

/-- `if(xint(din.addrs[k]) == 0) din.addrs[k] = xint(freeblock++);` -/
def rootBlock (din : Dinode) (k : ℕ) : Mkfs Dinode :=
  if din.addr k = 0 then do
    let b ← takeBlock
    return din.setAddr k (BitVec.ofNat 32 b)
  else
    return din

/-- `indirect[j]`, for the indirect block of the inode, taking a new block if it is zero. -/
def entryBlock (din : Dinode) (j : ℕ) : Mkfs ℕ := do
  let indirect ← rsect (din.addr NDIRECT).toNat
  -- mkfs.c does not check this
  if NINDIRECT ≤ j then
    Prog.fail .outOfBounds
  else if indirect.word j = 0 then
    let b ← takeBlock
    let indirect := indirect.setWord j (BitVec.ofNat 32 b)
    wsect (din.addr NDIRECT).toNat indirect
    return (indirect.word j).toNat
  else
    return (indirect.word j).toNat

/-- The block for block `fbn` of the file, taking new ones if necessary. -/
def fileBlock (din : Dinode) (fbn : ℕ) : Mkfs (Dinode × ℕ) :=
  if fbn < NDIRECT then do
    let din ← rootBlock din fbn
    return (din, (din.addr fbn).toNat)
  else do
    let din ← rootBlock din NDIRECT
    let x ← entryBlock din (fbn - NDIRECT)
    return (din, x)

/-- The loop of `iappend`, for `n` bytes at `p`, from `off` on. -/
def appendLoop (din : Dinode) (off : ℕ) (p : ℕ → Byte) (n : ℕ) : Mkfs (Dinode × ℕ) :=
  if n = 0 then
    return (din, off)
  else do
    let fbn := off / BSIZE
    if fbn < MAXFILE then
      let (din, x) ← fileBlock din fbn
      let n1 := min n ((fbn + 1) * BSIZE - off)
      let buf ← rsect x
      wsect x (buf.copyIn (off - fbn * BSIZE) ((List.range n1).map p))
      appendLoop din (off + n1) (fun j ↦ p (n1 + j)) (n - n1)
    else
      Prog.fail .fileTooBig
termination_by n
decreasing_by
  have hdiv := Nat.div_add_mod off BSIZE
  have hmod : off % BSIZE < BSIZE := Nat.mod_lt _ (by decide)
  have hmul : (off / BSIZE + 1) * BSIZE = BSIZE * (off / BSIZE) + BSIZE := by
    rw [Nat.add_mul, Nat.one_mul, Nat.mul_comm]
  omega

/-- `iappend`. -/
def iappend (inum : ℕ) (p : List Byte) : Mkfs Unit := do
  let din ← rinode inum
  let (din, off) ← appendLoop din din.size.toNat (fun j ↦ p.getD j 0) p.length
  winode inum { din with size := BitVec.ofNat 32 off }

/-! ### `main` -/

/-- The bytes of the super block. -/
def superblockBytes : List Byte :=
  [mkfsSuperblock.size, mkfsSuperblock.nblocks, mkfsSuperblock.ninodes, mkfsSuperblock.nlog,
    mkfsSuperblock.logstart, mkfsSuperblock.inodestart, mkfsSuperblock.bmapstart].flatMap
      (LittleEndian.encode 4)

/-- The bytes of a directory entry: `strncpy` cuts the name off, or fills it up with zeroes. -/
def direntBytes (inum : ℕ) (name : List Byte) : List Byte :=
  LittleEndian.encode 2 inum ++ (name ++ List.replicate DIRSIZ 0).take DIRSIZ

/-- Skip leading `_` in name. -/
def skipUnderscore : List Byte → List Byte
  | [] => []
  | c :: name => if c = 0x5f#8 then name else c :: name

/-- One turn of the loop over the arguments. -/
def addFile (rootino : ℕ) (f : HostFile) : Mkfs Unit := do
  if 0x2f#8 ∈ f.name then
    Prog.fail .name
  else
    let inum ← ialloc T_FILE
    iappend rootino (direntBytes inum (skipUnderscore f.name))
    Prog.forEach f.pieces (iappend inum)

/-- Fix size of root inode dir. -/
def fixRootSize (rootino : ℕ) : Mkfs Unit := do
  let din ← rinode rootino
  winode rootino { din with size := BitVec.ofNat 32 ((din.size.toNat / BSIZE + 1) * BSIZE) }

/-- `main`, from where the image has been filled with zeroes. -/
def main (files : List HostFile) : Mkfs Unit := do
  wsect 1 (Block.zero.copyIn 0 superblockBytes)
  let rootino ← ialloc T_DIR
  if rootino ≠ ROOTINO then
    Prog.fail .rootino
  else
    iappend rootino (direntBytes rootino [0x2e#8])
    iappend rootino (direntBytes rootino [0x2e#8, 0x2e#8])
    Prog.forEach files (addFile rootino)
    fixRootSize rootino
    let m ← Prog.get
    balloc m.freeblock

end Mkfs

/-- Before `main` writes anything but zeroes. -/
def MkfsState.init : MkfsState := ⟨fun _ ↦ Block.zero, 1, nmeta⟩

end Xv6
