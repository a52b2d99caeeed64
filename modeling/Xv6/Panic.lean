import Mathlib.Tactic.Common

/-!
# Kernel panics

The ways in which the modelled kernel code stops the machine, one constructor for each `panic` call
that a modelled function contains.
-/

namespace Xv6

/-- A `panic` of the kernel. -/
inductive Panic where
  /-- `log_write`: the log is full. -/
  | tooBigTransaction
  /-- `log_write`: no operation is outstanding. -/
  | logWriteOutsideTrans
  /-- `end_op`: an operation ended during a commit. -/
  | logCommitting
  /-- `idestart`: a block number beyond the disk. -/
  | incorrectBlockno
  /-- `balloc`: no bit of the free map is clear. -/
  | outOfBlocks
  /-- `bfree`: the bit of the block is already clear. -/
  | freeingFreeBlock
  /-- `bmap`: a block number beyond the largest file. -/
  | bmapOutOfRange
  /-- `ilock`: nobody refers to the inode. -/
  | ilock
  /-- `ilock`: the inode on disk is free. -/
  | ilockNoType
  /-- `iunlock`: the lock is not held, or nobody refers to the inode. -/
  | iunlock
  /-- `fileread` and `pread`: the file is neither a pipe nor an inode. -/
  | fileread
  /-- `filewrite` and `pwrite`: the same. -/
  | filewrite
  /-- `filewrite` and `pwrite`: `writei` wrote less than it was given. -/
  | shortFilewrite
  /-- `bget`: all buffers are in use. -/
  | bgetNoBuffers
  /-- `bwrite`: the caller does not hold the buffer. -/
  | bwrite
  /-- `brelse`: the caller does not hold the buffer. -/
  | brelse
  /-- `iderw`: the caller does not hold the buffer. -/
  | iderwNotLocked
  /-- `iderw`: the buffer is valid and not dirty. -/
  | iderwNothingToDo
  /-- `iderw`: the device is not the disk. -/
  | iderwNotDisk1
  /-- `iderw`: a block number beyond the disk. -/
  | iderwOutOfRange
  /-- `mappages`: the page is mapped already. -/
  | remap
  /-- `deallocuvm` and `kfree`: not a page of the allocator. -/
  | kfree
  /-- `freevm`: no page directory. -/
  | freevmNoPgdir
  /-- `clearpteu`: no page table. -/
  | clearpteu
  /-- `loaduvm`: no page table. -/
  | loaduvmAddress
  /-- `copyuvm`: no page table. -/
  | copyuvmPteShouldExist
  /-- `copyuvm`: no page. -/
  | copyuvmPageNotPresent
  /-- `switchuvm`: no kernel stack. -/
  | switchuvmNoKstack
  /-- `switchuvm`: no page directory. -/
  | switchuvmNoPgdir
  /-- `userinit`: no page directory. -/
  | userinit
  /-- `exit`: by the first process. -/
  | initExiting
  /-- `ialloc`: every inode is allocated. -/
  | iallocNoInodes
  /-- `dirlookup`: not a directory. -/
  | dirlookupNotDir
  /-- `dirlink`: the directory cannot grow. -/
  | dirlink
  /-- `unlink`: the entry could not be cleared. -/
  | unlinkWritei
  /-- `unlink`: an entry names an inode without links. -/
  | unlinkNlink
  /-- `create`: the new directory has an entry `.` or `..` already. -/
  | createDots
  /-- `create`: the name has appeared in the directory. -/
  | createDirlink
  /-- `mpinit`: no configuration table. -/
  | mpinitNoTable
  /-- `mpinit`: an entry of an unknown type. -/
  | mpinitUnsuitable
  deriving DecidableEq, Repr

end Xv6
