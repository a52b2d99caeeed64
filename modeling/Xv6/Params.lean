import Mathlib.Tactic.Common
import Mathlib.Order.Nat

/-!
# Constants of the file system

The constants of `param.h`, `fs.h`, `stat.h` and `mkfs.c`, under their own names and by their own
formulas. The superblock is a structure whose fields satisfy what `mkfs` guarantees of the layout it
writes, so that no later proof has to carry that as a hypothesis; `mkfsSuperblock` is the one `mkfs`
really writes.
-/

namespace Xv6

/-! ### `param.h` -/

/-- Maximum number of CPUs. -/
def NCPU : ℕ := 8
/-- Open files per process. -/
def NOFILE : ℕ := 16
/-- Open files per system. -/
def NFILE : ℕ := 100
/-- Maximum major device number. -/
def NDEV : ℕ := 10
/-- Max # of blocks any FS op writes. -/
def MAXOPBLOCKS : ℕ := 10
/-- Max data blocks in on-disk log. -/
def LOGSIZE : ℕ := MAXOPBLOCKS * 3
/-- Size of disk block cache. -/
def NBUF : ℕ := MAXOPBLOCKS * 3
/-- Size of file system in blocks. -/
def FSSIZE : ℕ := 40000

/-! ### `fs.h` -/

/-- Root i-number. -/
def ROOTINO : ℕ := 1
/-- Block size. -/
def BSIZE : ℕ := 512
/-- Direct blocks of an inode. -/
def NDIRECT : ℕ := 10
/-- Pointers in one indirect block: `BSIZE / sizeof(uint)`. -/
def NINDIRECT : ℕ := BSIZE / 4
/-- Data blocks below a double-indirect block. -/
def NDBLINDIRECT : ℕ := NINDIRECT * NINDIRECT
/-- Data blocks below a triple-indirect block. -/
def NTPLINDIRECT : ℕ := NINDIRECT * NINDIRECT * NINDIRECT
/-- Data blocks of the largest file. -/
def MAXFILE : ℕ := NDIRECT + NINDIRECT + NDBLINDIRECT + NTPLINDIRECT
/-- Entries of `addrs` in an inode: the direct blocks and the three indirect roots. -/
def NADDRS : ℕ := NDIRECT + 3
/-- `sizeof(struct dinode)`: four shorts, the size and the block addresses. -/
def DINODESIZE : ℕ := 4 * 2 + 4 + 4 * NADDRS
/-- Inodes per block. -/
def IPB : ℕ := BSIZE / DINODESIZE
/-- Bitmap bits per block. -/
def BPB : ℕ := BSIZE * 8
/-- Length of a directory entry's name. -/
def DIRSIZ : ℕ := 14
/-- `sizeof(struct dirent)`. -/
def DIRENTSIZE : ℕ := 2 + DIRSIZ

/-! ### `stat.h` -/

/-- Directory. -/
def T_DIR : BitVec 16 := 1
/-- File. -/
def T_FILE : BitVec 16 := 2
/-- Device. -/
def T_DEV : BitVec 16 := 3

/-! ### `mkfs.c` -/

/-- Number of inodes `mkfs` makes room for. -/
def NINODES : ℕ := 200

/-- The super block, with what `mkfs` guarantees of the layout
`[ boot block | super block | log | inode blocks | free bit map | data blocks ]`. -/
structure Superblock where
  /-- Size of file system image (blocks). -/
  size : ℕ
  /-- Number of data blocks. -/
  nblocks : ℕ
  /-- Number of inodes. -/
  ninodes : ℕ
  /-- Number of log blocks. -/
  nlog : ℕ
  /-- Block number of first log block. -/
  logstart : ℕ
  /-- Block number of first inode block. -/
  inodestart : ℕ
  /-- Block number of first free map block. -/
  bmapstart : ℕ
  /-- The boot block and the super block come first. -/
  logstart_ge : 2 ≤ logstart
  /-- The log has a header block. -/
  nlog_pos : 0 < nlog
  /-- The inode blocks follow the log. -/
  log_le : logstart + nlog ≤ inodestart
  /-- The free map follows the inode blocks. -/
  inodes_lt : inodestart + ninodes / IPB < bmapstart
  /-- There is a data block after the free map. -/
  bitmap_lt : bmapstart + size / BPB + 1 < size
  /-- The image fits on the disk. -/
  size_le : size ≤ FSSIZE

/-- `nbitmap` of `mkfs.c`. -/
def nbitmap : ℕ := FSSIZE / (BSIZE * 8) + 1
/-- `ninodeblocks` of `mkfs.c`. -/
def ninodeblocks : ℕ := NINODES / IPB + 1
/-- `nlog` of `mkfs.c`. -/
def nlog : ℕ := LOGSIZE
/-- `nmeta` of `mkfs.c`: the meta blocks (boot, sb, nlog, inode, bitmap). -/
def nmeta : ℕ := 2 + nlog + ninodeblocks + nbitmap

/-- The super block that `mkfs` writes. -/
def mkfsSuperblock : Superblock where
  size := FSSIZE
  nblocks := FSSIZE - nmeta
  ninodes := NINODES
  nlog := nlog
  logstart := 2
  inodestart := 2 + nlog
  bmapstart := 2 + nlog + ninodeblocks
  logstart_ge := by decide
  nlog_pos := by decide
  log_le := by decide
  inodes_lt := by decide
  bitmap_lt := by decide
  size_le := le_refl _

namespace Superblock

variable (sb : Superblock)

/-- The block holding inode `i`: `IBLOCK(i, sb)`. -/
def IBLOCK (i : ℕ) : ℕ := i / IPB + sb.inodestart

/-- The block of the free map holding the bit for block `b`: `BBLOCK(b, sb)`. -/
def BBLOCK (b : ℕ) : ℕ := b / BPB + sb.bmapstart

/-- The number of meta blocks: everything up to the end of the free map. -/
def dataStart : ℕ := sb.bmapstart + sb.size / BPB + 1

theorem bmapstart_lt_dataStart : sb.bmapstart < sb.dataStart :=
  Nat.lt_succ_of_le (Nat.le_add_right ..)

theorem dataStart_lt_size : sb.dataStart < sb.size := sb.bitmap_lt

theorem BBLOCK_lt_dataStart {b : ℕ} (h : b < sb.size) : sb.BBLOCK b < sb.dataStart := by
  have : b / BPB ≤ sb.size / BPB := Nat.div_le_div_right h.le
  unfold BBLOCK dataStart
  omega

theorem IBLOCK_lt_bmapstart {i : ℕ} (h : i < sb.ninodes) : sb.IBLOCK i < sb.bmapstart := by
  have h1 : i / IPB ≤ sb.ninodes / IPB := Nat.div_le_div_right h.le
  have h2 := sb.inodes_lt
  unfold IBLOCK
  omega

end Superblock

/-- The meta blocks of the image `mkfs` writes are the ones it counts. -/
theorem mkfsSuperblock_dataStart : mkfsSuperblock.dataStart = nmeta := by decide

end Xv6
