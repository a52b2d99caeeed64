import Xv6.Fs.State

/-!
# Directories and path names

The upper half of `fs.c` and the system calls of `sysfile.c` that work on names, one call at a time: entries of
directories, path names, link counts, and the references that keep an inode in the cache.

An inode is on disk and, while it is in the cache, in memory. The content of a directory is the list of its entries:
`Xv6.Fs.Bytes` shows that `readi` and `writei` make of the blocks of a file the array of bytes in which these entries
lie. The content of other files, the log and the number of free blocks play no part. The cache has room for every inode.
-/

namespace Xv6

open Function

/-- A name in a directory: the bytes of `de.name` before the first zero, at most `DIRSIZ`. -/
abbrev Name : Type := List Byte

/-- The string that a system call is given, without the zero at its end. -/
abbrev PathName : Type := List Byte

/-- `/`. -/
def slash : Byte := 0x2f#8

/-- `.`. -/
def dot : Name := [0x2e#8]

/-- `..`. -/
def dotdot : Name := [0x2e#8, 0x2e#8]

/-- `struct dirent`. -/
structure Dirent where
  /-- The inode, or 0 for an unused entry. -/
  inum : ℕ
  /-- Its name. -/
  name : Name
  deriving DecidableEq

/-- An entry of zeros. -/
def Dirent.zero : Dirent := ⟨0, []⟩

/-- `struct dinode`, with the entries of a directory in the place of its blocks. -/
@[ext]
structure DirNode where
  /-- File type, 0 for a free inode. -/
  type : Short
  /-- Major device number (T_DEV only). -/
  major : Short
  /-- Minor device number (T_DEV only). -/
  minor : Short
  /-- Number of links to inode in file system. -/
  nlink : Short
  /-- The content of a directory. -/
  ents : List Dirent
  deriving DecidableEq

namespace DirNode

/-- What `memset` and `ip->type = type` leave. -/
def fresh (type : Short) : DirNode := ⟨type, 0, 0, 0, []⟩

/-- What `iput` leaves of an inode that it frees. -/
@[simps]
def freed (nd : DirNode) : DirNode := { nd with type := 0, ents := [] }

/-- `ip->nlink += d`, in 16 bits. -/
@[simps]
def addLinks (nd : DirNode) (d : Short) : DirNode := { nd with nlink := nd.nlink + d }

/-- Where `dirlookup` finds a name: the inode and the number of the entry. -/
def lookup (nd : DirNode) (name : Name) : Option (ℕ × ℕ) :=
  (nd.ents.findIdx? fun e ↦ e.inum ≠ 0 ∧ e.name = name).bind fun k ↦
    nd.ents[k]?.map fun e ↦ (e.inum, k)

/-- Where `dirlink` puts a new entry: the first unused one, or the end. -/
def vacant (nd : DirNode) : ℕ := nd.ents.findIdx fun e ↦ e.inum = 0

/-- An entry is written, possibly at the end. -/
@[simps]
def store (nd : DirNode) (k : ℕ) (e : Dirent) : DirNode :=
  { nd with ents := if k < nd.ents.length then nd.ents.set k e else nd.ents ++ [e] }

/-- Is the directory empty except for `.` and `..`? -/
def isdirempty (nd : DirNode) : Bool := (nd.ents.drop 2).all fun e ↦ e.inum = 0

end DirNode

/-- The calls that delimit an operation on the file system. -/
inductive LogOp where
  /-- `begin_op()` -/
  | begin
  /-- `end_op()` -/
  | end
  deriving DecidableEq

/-- The inodes and the inode cache. -/
structure Dirs where
  /-- The inodes on disk. -/
  disk : ℕ → DirNode
  /-- The copy of an inode in the cache. -/
  mem : ℕ → DirNode
  /-- `ip->ref`, 0 for an inode that is not in the cache. -/
  ref : ℕ → ℕ
  /-- `ip->valid`: the inode has been read from disk. -/
  valid : ℕ → Bool
  /-- Somebody holds `ip->lock`. -/
  locked : ℕ → Bool
  /-- The operations so far. -/
  ops : List LogOp

/-- Code on names. -/
abbrev Naming (α : Type) : Type := Prog Dirs Stop α

namespace Dirs

/-- Rewrite an inode on disk. -/
@[simps -fullyApplied]
def setDisk (s : Dirs) (i : ℕ) (nd : DirNode) : Dirs := { s with disk := update s.disk i nd }

/-- Rewrite an inode in memory. -/
@[simps -fullyApplied]
def setMem (s : Dirs) (i : ℕ) (nd : DirNode) : Dirs := { s with mem := update s.mem i nd }

/-- `ip->ref = n`. -/
@[simps -fullyApplied]
def setRef (s : Dirs) (i n : ℕ) : Dirs := { s with ref := update s.ref i n }

/-- `ip->valid = b`. -/
@[simps -fullyApplied]
def setValid (s : Dirs) (i : ℕ) (b : Bool) : Dirs := { s with valid := update s.valid i b }

/-- Take or release `ip->lock`. -/
@[simps -fullyApplied]
def setLocked (s : Dirs) (i : ℕ) (b : Bool) : Dirs := { s with locked := update s.locked i b }

/-- An operation begins or ends. -/
@[simps]
def addOp (s : Dirs) (o : LogOp) : Dirs := { s with ops := s.ops ++ [o] }

/-! ### The inode cache -/

/-- Called at the start of each FS system call. -/
def beginOp : Naming Unit := Prog.modify fun s ↦ s.addOp .begin

/-- Called at the end of each FS system call. -/
def endOp : Naming Unit := Prog.modify fun s ↦ s.addOp .end

/-- Find the inode in the cache, or give it an entry there. -/
def iget (i : ℕ) : Naming Unit :=
  Prog.modify fun s ↦ if 0 < s.ref i then s.setRef i (s.ref i + 1) else (s.setRef i 1).setValid i false

/-- Increment reference count for ip. -/
def idup (i : ℕ) : Naming Unit := Prog.modify fun s ↦ s.setRef i (s.ref i + 1)

/-- Lock the given inode. Reads the inode from disk if necessary. -/
def ilock (i : ℕ) : Naming Unit := do
  let s ← Prog.get
  if s.ref i < 1 then
    Prog.fail (.panic .ilock)
  else if s.locked i then
    Prog.fail .sleep
  else if s.valid i then
    Prog.modify fun s ↦ s.setLocked i true
  else if (s.disk i).type = 0 then
    Prog.fail (.panic .ilockNoType)
  else
    Prog.modify fun s ↦ ((s.setLocked i true).setMem i (s.disk i)).setValid i true

/-- Unlock the given inode. -/
def iunlock (i : ℕ) : Naming Unit := do
  let s ← Prog.get
  if s.locked i = false ∨ s.ref i < 1 then
    Prog.fail (.panic .iunlock)
  else
    Prog.modify fun s ↦ s.setLocked i false

/-- Copy a modified in-memory inode to disk. -/
def iupdate (i : ℕ) : Naming Unit := Prog.modify fun s ↦ s.setDisk i (s.mem i)

/-- Change an inode in memory, then `iupdate`. -/
def updateNode (i : ℕ) (f : DirNode → DirNode) : Naming Unit := do
  Prog.modify fun s ↦ s.setMem i (f (s.mem i))
  iupdate i

/-- Drop a reference to an in-memory inode. If that was the last reference and the inode has no links to it, free the
inode (and its content) on disk. -/
def iput (i : ℕ) : Naming Unit := do
  let s ← Prog.get
  if s.locked i then
    Prog.fail .sleep
  else if s.valid i ∧ (s.mem i).nlink = 0 ∧ s.ref i = 1 then
    updateNode i DirNode.freed
    Prog.modify fun s ↦ (s.setValid i false).setRef i (s.ref i - 1)
  else
    Prog.modify fun s ↦ s.setRef i (s.ref i - 1)

/-- Unlock, then put. -/
def iunlockput (i : ℕ) : Naming Unit := do
  iunlock i
  iput i

/-- Allocate an inode on disk. -/
def ialloc (sb : Superblock) (type : Short) : Naming ℕ := do
  let s ← Prog.get
  match (List.range sb.ninodes).find? fun i ↦ 1 ≤ i ∧ (s.disk i).type = 0 with
  | none => Prog.fail (.panic .iallocNoInodes)
  | some i =>
    Prog.modify fun s ↦ s.setDisk i (.fresh type)
    iget i
    return i

/-! ### Directories -/

/-- Look for a directory entry in a directory. Returns its inode and where it is. -/
def dirlookup (dp : ℕ) (name : Name) : Naming (Option (ℕ × ℕ)) := do
  let s ← Prog.get
  if (s.mem dp).type ≠ T_DIR then
    Prog.fail (.panic .dirlookupNotDir)
  else
    match (s.mem dp).lookup name with
    | none => return none
    | some (i, k) =>
      iget i
      return some (i, k)

/-- `writei` of an entry. The caller panics with `p` if the file cannot be that large. -/
def writeEntry (p : Panic) (dp k : ℕ) (e : Dirent) : Naming Unit :=
  if MAXFILE * BSIZE < (k + 1) * DIRENTSIZE then
    Prog.fail (.panic p)
  else
    updateNode dp fun nd ↦ nd.store k e

/-- Write a new directory entry into the directory. Fails if the name is present. -/
def dirlink (dp : ℕ) (name : Name) (i : ℕ) : Naming Bool := do
  match ← dirlookup dp name with
  | some (j, _) =>
    iput j
    return false
  | none =>
    let s ← Prog.get
    -- `de.inum` has 16 bits
    writeEntry .dirlink dp (s.mem dp).vacant ⟨i % 2 ^ 16, name⟩
    return true

/-! ### Path names -/

/-- Copy the next path element from path into name. Returns the rest of the path, which has no leading slashes. -/
def skipelem (path : PathName) : Option (PathName × Name) :=
  match path.dropWhile (· = slash) with
  | [] => none
  | b :: s => some (((b :: s).dropWhile (· ≠ slash)).dropWhile (· = slash), ((b :: s).takeWhile (· ≠ slash)).take DIRSIZ)

/-- What the loop `while((path = skipelem(path, name)) != 0)` goes through in `n` iterations. -/
def elementsIn : ℕ → PathName → List Name
  | 0, _ => []
  | n + 1, path =>
    match skipelem path with
    | none => []
    | some (rest, name) => name :: elementsIn n rest

/-- The elements of a path. There are no more of them than there are bytes. -/
def elements (path : PathName) : List Name := elementsIn (path.length + 1) path

/-- The loop of `namex`, with `n` calls of `skipelem` left. -/
def namexLoop (nameiparent : Bool) : ℕ → PathName → ℕ → Naming (Option (ℕ × Name))
  | 0, _, _ => Prog.fail .sleep
  | n + 1, path, ip =>
    match skipelem path with
    | none =>
      if nameiparent then do
        iput ip
        return none
      else
        return some (ip, [])
    | some (path, name) => do
      ilock ip
      let s ← Prog.get
      if (s.mem ip).type ≠ T_DIR then
        iunlockput ip
        return none
      else if nameiparent ∧ path = [] then
        -- Stop one level early.
        iunlock ip
        return some (ip, name)
      else
        match ← dirlookup ip name with
        | none =>
          iunlockput ip
          return none
        | some (next, _) =>
          iunlockput ip
          namexLoop nameiparent n path next

/-- Look up and return the inode for a path name, or its parent and the final path element. -/
def namex (cwd : ℕ) (path : PathName) (nameiparent : Bool) : Naming (Option (ℕ × Name)) :=
  if path.head? = some slash then do
    iget ROOTINO
    namexLoop nameiparent (path.length + 1) path ROOTINO
  else do
    idup cwd
    namexLoop nameiparent (path.length + 1) path cwd

/-- The inode for a path name. -/
def namei (cwd : ℕ) (path : PathName) : Naming (Option (ℕ × Name)) := namex cwd path false

/-- The inode for the parent, and the final path element. -/
def nameiparent (cwd : ℕ) (path : PathName) : Naming (Option (ℕ × Name)) := namex cwd path true

/-! ### System calls

An argument is `none` if `argstr` or `argint` fails on it. -/

/-- The part of `sys_link` that makes the entry. Returns whether it has not gone to `bad`. -/
def linkAt (cwd : ℕ) (new : PathName) (ip : ℕ) : Naming Bool := do
  match ← nameiparent cwd new with
  | none => return false
  | some (dp, name) =>
    ilock dp
    let made ← dirlink dp name ip
    iunlockput dp
    return made

/-- `sys_link` with its arguments. -/
def linkPaths (cwd : ℕ) (old new : PathName) : Naming ℤ := do
  beginOp
  match ← namei cwd old with
  | none =>
    endOp
    return -1
  | some (ip, _) =>
    ilock ip
    let s ← Prog.get
    if (s.mem ip).type = T_DIR then
      iunlockput ip
      endOp
      return -1
    else
      updateNode ip fun nd ↦ nd.addLinks 1
      iunlock ip
      if ← linkAt cwd new ip then
        iput ip
        endOp
        return 0
      else
        ilock ip
        updateNode ip fun nd ↦ nd.addLinks (-1)
        iunlockput ip
        endOp
        return -1

/-- Create the path new as a link to the same inode as old. -/
def link (cwd : ℕ) : Option PathName → Option PathName → Naming ℤ
  | some old, some new => linkPaths cwd old new
  | _, _ => return -1

/-- The part of `sys_unlink` that removes an entry: the `k`th of `dp`, for the inode `ip`, both locked. -/
def removeEntry (dp ip k : ℕ) : Naming ℤ := do
  let s ← Prog.get
  if (s.mem ip).nlink.toInt < 1 then
    Prog.fail (.panic .unlinkNlink)
  else if (s.mem ip).type = T_DIR ∧ (s.mem ip).isdirempty = false then
    iunlockput ip
    iunlockput dp
    endOp
    return -1
  else
    writeEntry .unlinkWritei dp k .zero
    if (s.mem ip).type = T_DIR then
      updateNode dp fun nd ↦ nd.addLinks (-1)
    iunlockput dp
    updateNode ip fun nd ↦ nd.addLinks (-1)
    iunlockput ip
    endOp
    return 0

/-- `sys_unlink` with its argument. -/
def unlinkPath (cwd : ℕ) (path : PathName) : Naming ℤ := do
  beginOp
  match ← nameiparent cwd path with
  | none =>
    endOp
    return -1
  | some (dp, name) =>
    ilock dp
    -- Cannot unlink "." or "..".
    if name = dot ∨ name = dotdot then
      iunlockput dp
      endOp
      return -1
    else
      match ← dirlookup dp name with
      | none =>
        iunlockput dp
        endOp
        return -1
      | some (ip, k) =>
        ilock ip
        removeEntry dp ip k

/-- Remove the name path. -/
def unlink (cwd : ℕ) : Option PathName → Naming ℤ
  | some path => unlinkPath cwd path
  | none => return -1

/-- The entries `.` and `..` of a new directory. -/
def createDots (dp ip : ℕ) : Naming Unit := do
  updateNode dp fun nd ↦ nd.addLinks 1
  -- No ip->nlink++ for ".": avoid cyclic ref count.
  if ← dirlink ip dot ip then
    if ← dirlink ip dotdot dp then
      return
    else
      Prog.fail (.panic .createDots)
  else
    Prog.fail (.panic .createDots)

/-- The part of `create` that makes a new inode, for the name in `dp`, which is locked. -/
def createNew (sb : Superblock) (dp : ℕ) (name : Name) (type major minor : Short) : Naming (Option ℕ) := do
  let ip ← ialloc sb type
  ilock ip
  updateNode ip fun nd ↦ { nd with major := major, minor := minor, nlink := 1 }
  if type = T_DIR then
    createDots dp ip
  if ← dirlink dp name ip then
    iunlockput dp
    return some ip
  else
    Prog.fail (.panic .createDirlink)

/-- Create the path as a new inode. Returns it locked. -/
def create (sb : Superblock) (cwd : ℕ) (path : PathName) (type major minor : Short) : Naming (Option ℕ) := do
  match ← nameiparent cwd path with
  | none => return none
  | some (dp, name) =>
    ilock dp
    match ← dirlookup dp name with
    | some (ip, _) =>
      iunlockput dp
      ilock ip
      let s ← Prog.get
      if type = T_FILE ∧ (s.mem ip).type = T_FILE then
        return some ip
      else
        iunlockput ip
        return none
    | none => createNew sb dp name type major minor

/-- `sys_mkdir` and `sys_mknod`: an inode that is not opened. -/
def makeNode (sb : Superblock) (cwd : ℕ) (path : Option PathName) (type major minor : Short) : Naming ℤ := do
  beginOp
  match path with
  | none =>
    endOp
    return -1
  | some path =>
    match ← create sb cwd path type major minor with
    | none =>
      endOp
      return -1
    | some ip =>
      iunlockput ip
      endOp
      return 0

/-- Make a directory. -/
def mkdir (sb : Superblock) (cwd : ℕ) (path : Option PathName) : Naming ℤ :=
  makeNode sb cwd path T_DIR 0 0

/-- Make a device file. -/
def mknod (sb : Superblock) (cwd : ℕ) (path : Option PathName) (major minor : Option Word) : Naming ℤ :=
  match major, minor with
  | some major, some minor => makeNode sb cwd path T_DEV (major.setWidth 16) (minor.setWidth 16)
  | _, _ => makeNode sb cwd none T_DEV 0 0

/-- Change the current directory. Returns it, changed or not, with the result. -/
def chdir (cwd : ℕ) (path : Option PathName) : Naming (ℤ × ℕ) := do
  beginOp
  match path with
  | none =>
    endOp
    return (-1, cwd)
  | some path =>
    match ← namei cwd path with
    | none =>
      endOp
      return (-1, cwd)
    | some (ip, _) =>
      ilock ip
      let s ← Prog.get
      if (s.mem ip).type ≠ T_DIR then
        iunlockput ip
        endOp
        return (-1, cwd)
      else
        iunlock ip
        iput cwd
        endOp
        return (0, ip)

end Dirs

end Xv6
