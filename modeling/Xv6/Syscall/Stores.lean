import Xv6.Fs.Memory
import Xv6.Syscall.Args
import Xv6.Xem.Basic

/-!
# What the kernel stores through pointers of the user

The system calls that store into user memory: `read`, `pread`, `fstat`, `pipe`, `thread_create`,
`thread_join`, `xem_init` and `rwlock_init`. The first four check the pointer with `argptr`. The two calls
on threads fetch it with `argint` and store through it, whatever it is (`thread_join_stores_anywhere`).
`xem_init` and `rwlock_init` check the structure, but `init_queue` stores through the pointer `q` that
lies in it.

`stores_confined` says that a call stores into the memory of its process only and refuses every other
pointer exactly if the pointers that it does not check belong to the process. What the rest of the kernel answers is arbitrary
(`Answers`, `Input`). A call that waits is described by the state in which it no longer does.
-/

namespace Xv6

/-! ### What is read -/

/-- The major number of the console. -/
def CONSOLE : ℕ := 1

/-- What is there to be read besides files. -/
structure Input where
  /-- What is in a pipe when `piperead` no longer waits, unless the caller is killed while it waits. -/
  pipe : ℕ → Option (List Byte)
  /-- What is typed at the console before the caller is killed. -/
  console : List Byte

/-- `piperead`, once it no longer waits: the result, and the bytes it stores. -/
def piperead (data : List Byte) (n : ℤ) : ℤ × List Byte :=
  let bytes := data.take n.toNat
  (bytes.length, bytes)

/-- The loop of `consoleread`, for `n` more bytes: whether it ends before the caller is killed, and the
bytes it stores. -/
def consoleLoop : List Byte → ℕ → Bool × List Byte
  | _, 0 => (true, [])
  | [], _ + 1 => (false, [])
  | c :: cs, n + 1 =>
    -- `C('D')`
    if c = 4 then
      (true, [])
    else if c = 10 then
      (true, [c])
    else
      let (done, bytes) := consoleLoop cs n
      (done, c :: bytes)

/-- `consoleread`. -/
def consoleread (input : List Byte) (n : Word) : ℤ × List Byte :=
  let (done, bytes) := consoleLoop input n.toInt.toNat
  (if done then bytes.length else -1, bytes)

/-- The devices and pipes as they are. -/
def Input.env (inp : Input) (base : Env) : Env :=
  { base with
    devRead := fun major ↦ if major = CONSOLE then some (consoleread inp.console) else none
    piperead := fun p n ↦
      match inp.pipe p with
      | some data => piperead data n
      | none => (-1, []) }

theorem length_consoleLoop_le (input : List Byte) (n : ℕ) : (consoleLoop input n).2.length ≤ n := by
  induction input generalizing n with
  | nil => cases n <;> exact Nat.zero_le _
  | cons c cs ih =>
    cases n with
    | zero => exact Nat.zero_le _
    | succ n =>
      rw [consoleLoop]
      split
      · exact Nat.zero_le _
      · split
        · exact Nat.succ_le_succ (Nat.zero_le _)
        · exact Nat.succ_le_succ (ih n)

variable {s : FsState}

/-- The loop of `readi` delivers as many bytes as it is asked for. -/
theorem length_readLoop {env : Env} {ip off n : ℕ} :
    (Fs.readLoop env ip off n).Sat s (fun bytes _ ↦ bytes.length = n) fun _ ↦ True := by
  induction n using Nat.strong_induction_on generalizing off s with
  | h n ih =>
    rw [Fs.readLoop]
    split
    next h => exact h.symm
    next h =>
      have hmod : off % BSIZE < BSIZE := Nat.mod_lt _ (by decide)
      refine Prog.Sat.bind (Prog.sat_true _ _) fun addr _ _ ↦ ?_
      refine Prog.Sat.bind (Prog.sat_true _ _) fun bp _ _ ↦ ?_
      refine (ih (n - min n (BSIZE - off % BSIZE)) (by omega)).bind fun rest _ hrest ↦ ?_
      show (_ ++ _ : List Byte).length = n
      rw [List.length_append, Block.length_slice, hrest]
      omega

/-- `readi` does not deliver more bytes than it is asked for. -/
theorem length_readi_le {inp : Input} {base : Env} {ip : ℕ} {off n : Word} :
    (Fs.readi (inp.env base) ip off n).Sat s (fun out _ ↦ out.2.length ≤ n.toNat) fun _ ↦ True := by
  rw [Fs.readi]
  refine Prog.Sat.bind (Prog.sat_true _ _) fun i _ _ ↦ ?_
  split
  · split
    · exact Nat.zero_le _
    · split
      · exact Nat.zero_le _
      next read hread =>
        simp only [Input.env] at hread
        split at hread
        · obtain rfl := Option.some.inj hread
          exact (length_consoleLoop_le _ _).trans (Fs.toNat_toInt_le n)
        · cases hread
  · split
    · exact Nat.zero_le _
    next hok =>
      refine length_readLoop.bind fun bytes _ hbytes ↦ ?_
      show bytes.length ≤ n.toNat
      rw [hbytes, Fs.toNat_readLength hok]
      exact Nat.min_le_left _ _

/-- `fileread` and `pread` do not deliver more bytes than they are asked for. -/
theorem length_readFile_le {inp : Input} {base : Env} {f : ℕ} {n : Word} {pos : Option Word} :
    (Fs.readFile (inp.env base) f n.toInt pos).Sat s
      (fun out _ ↦ out.2.length ≤ n.toNat) fun _ ↦ True := by
  rw [Fs.readFile]
  refine Prog.Sat.bind (Prog.sat_true _ _) fun file _ _ ↦ ?_
  split
  · exact Nat.zero_le _
  · split
    · show (match inp.pipe file.pipe with | some data => _ | none => _ : ℤ × List Byte).2.length ≤ _
      split
      next data _ =>
        refine (List.length_take_le _ _).trans (Fs.toNat_toInt_le n)
      · exact Nat.zero_le _
    · rw [Fs.lockedRead]
      refine Prog.Sat.bind (Prog.sat_true _ _) fun _ _ _ ↦ ?_
      refine Prog.Sat.bind (Prog.sat_true _ _) fun _ _ _ ↦ ?_
      rw [BitVec.ofInt_toInt]
      refine length_readi_le.bind fun out _ hout ↦ ?_
      refine Prog.Sat.bind (Prog.sat_true _ _) fun _ _ _ ↦ ?_
      exact hout
    · trivial

/-! ### The system calls -/

/-- The number of entries of a queue, without the unused one. -/
def QUEUESIZE : ℕ := 1000

/-- What the rest of the kernel answers. -/
structure Answers where
  /-- The two descriptors that `sys_pipe` has got, unless it fails. -/
  fds : Option (Word × Word)
  /-- The id of the thread that `thread_create` has made, unless it fails. -/
  tid : Option Word
  /-- What the thread that `thread_join` has reaped has left, unless there is none. -/
  retval : Option Word
  /-- Where the name that `xem_init` gives a lock lies. -/
  name : Word

/-- The address of a field. -/
def field (x : Word) (o : ℕ) : Word := x + BitVec.ofNat 32 o

namespace Caller

/-- Code of the file system. -/
def onFs {α : Type} (m : FS α) : Sys α := m.zoom Caller.fs fun u fs ↦ { u with fs := fs }

/-! #### Files -/

/-- The arguments of `read`. -/
def readArgs (u : Caller) : Option (ℕ × Word × Word) := do
  let f ← u.argfd 0
  let n ← u.argint 2
  let p ← u.argptr 1 n
  return (f, n, p)

/-- `sys_read`. -/
def sysRead (env : Env) : Sys ℤ := do
  match (← Prog.get).readArgs with
  | none => return -1
  | some (f, n, p) =>
    let (r, bytes) ← onFs (Fs.fileread env f n.toInt)
    Prog.modify fun u ↦ u.storeBytes p bytes
    return r

/-- The arguments of `pread`. -/
def preadArgs (u : Caller) : Option (ℕ × Word × Word × Word) := do
  let f ← u.argfd 0
  let n ← u.argint 2
  let off ← u.argint 3
  let p ← u.argptr 1 n
  return (f, n, off, p)

/-- `sys_pread`. -/
def sysPread (env : Env) : Sys ℤ := do
  match (← Prog.get).preadArgs with
  | none => return -1
  | some (f, n, off, p) =>
    let (r, bytes) ← onFs (Fs.pread env f n.toInt off)
    Prog.modify fun u ↦ u.storeBytes p bytes
    return r

/-- `filestat`: the inode, whose metadata `stati` stores. -/
def filestat (env : Env) (f : ℕ) : FS (Option Inode) := do
  let file ← Fs.file f
  if file.type = .inode then
    Fs.ilock env file.ip
    let i ← Fs.inode file.ip
    Fs.iunlock file.ip
    return some i
  else
    return none

/-- `stati`: `dev`, `ino`, `type`, `nlink` and `size`. There is one device. -/
def stati (u : Caller) (i : Inode) (st : Word) : Caller :=
  ((((u.storeInt (field st 4) 1).storeInt (field st 8) (BitVec.ofNat 32 i.inum)).storeShort
    (field st 0) i.type).storeShort (field st 12) i.nlink).storeInt (field st 16) i.size

/-- `sizeof(struct stat)`. -/
def STATSIZE : ℕ := 20

/-- The arguments of `fstat`. -/
def fstatArgs (u : Caller) : Option (ℕ × Word) := do
  let f ← u.argfd 0
  let st ← u.argptr 1 (BitVec.ofNat 32 STATSIZE)
  return (f, st)

/-- `sys_fstat`. -/
def sysFstat (env : Env) : Sys ℤ := do
  match (← Prog.get).fstatArgs with
  | none => return -1
  | some (f, st) =>
    match ← onFs (filestat env f) with
    | none => return -1
    | some i =>
      Prog.modify fun u ↦ u.stati i st
      return 0

/-- `sys_pipe`. -/
def sysPipe (ans : Answers) : Sys ℤ := do
  match (← Prog.get).argptr 0 8 with
  | none => return -1
  | some fd =>
    match ans.fds with
    | none => return -1
    | some (fd0, fd1) =>
      Prog.modify fun u ↦ (u.storeInt (field fd 0) fd0).storeInt (field fd 4) fd1
      return 0

/-! #### Threads -/

/-- The arguments of `thread_create`. -/
def createArgs (u : Caller) : Option Word := do
  let thread ← u.argint 0
  let _startRoutine ← u.argint 1
  let _arg ← u.argint 2
  return thread

/-- `sys_thread_create`. -/
def sysThreadCreate (ans : Answers) : Sys ℤ := do
  match (← Prog.get).createArgs with
  | none => return -1
  | some thread =>
    match ans.tid with
    | none => return -1
    | some tid =>
      -- `*thread = np->tid`
      Prog.modify fun u ↦ u.storeInt thread tid
      return 0

/-- The arguments of `thread_join`. -/
def joinArgs (u : Caller) : Option Word := do
  let _thread ← u.argint 0
  let retval ← u.argint 1
  return retval

/-- `sys_thread_join`. -/
def sysThreadJoin (ans : Answers) : Sys ℤ := do
  match (← Prog.get).joinArgs with
  | none => return -1
  | some retval =>
    match ans.retval with
    | none => return -1
    | some v =>
      -- `*retval = p->retval`
      Prog.modify fun u ↦ u.storeInt retval v
      return 0

/-! #### Semaphores -/

/-- `initlock`: `name`, `locked` and `cpu`. -/
def initlock (u : Caller) (lk name : Word) : Caller :=
  ((u.storeInt (field lk 4) name).storeInt (field lk 0) 0).storeInt (field lk 8) 0

/-- `init_queue`: `last`, `first` and `count`, behind the entries. -/
def initQueue (u : Caller) (q : Word) : Caller :=
  ((u.storeInt (field q (4 * (QUEUESIZE + 1))) (BitVec.ofNat 32 (QUEUESIZE - 1))).storeInt
    (field q (4 * (QUEUESIZE + 2))) 0).storeInt (field q (4 * (QUEUESIZE + 3))) 0

/-- `sizeof(struct queue)`. -/
def QUEUEBYTES : ℕ := 4 * (QUEUESIZE + 4)

/-- `xem_init` up to `init_queue`: `value`, `end` and `lk`. -/
def xemInitHead (u : Caller) (name x : Word) : Caller :=
  ((u.storeInt (field x 0) 1).storeInt (field x 4) 0).initlock (field x 8) name

/-- `semaphore->q`, when `xem_init` gets to it. -/
def queueAt (u : Caller) (name x : Word) : Word := (u.xemInitHead name x).word (field x 60)

/-- `xem_init`. -/
def xemInit (u : Caller) (name x : Word) : Caller :=
  let u₁ := u.xemInitHead name x
  -- `init_queue(semaphore->q)`
  let u₂ := u₁.initQueue (u.queueAt name x)
  (u₂.storeInt (field x (64 + 4 * SIZE)) 0).storeInt (field x (68 + 4 * SIZE)) 0

/-- `sys_xem_init`. -/
def sysXemInit (ans : Answers) : Sys ℤ := do
  match (← Prog.get).argptr 0 (BitVec.ofNat 32 Xem.size) with
  | none => return -1
  | some x =>
    Prog.modify fun u ↦ u.xemInit ans.name x
    return 0

/-- `rwlock_init`: `lk`, `writelock` and `readers`. -/
def rwlockInit (u : Caller) (name x : Word) : Caller :=
  ((u.xemInit name (field x 0)).xemInit name (field x Xem.size)).storeInt (field x (2 * Xem.size)) 0

/-- `sizeof(rwlock_t)`. -/
def RWLOCKSIZE : ℕ := 2 * Xem.size + 4

/-- `sys_rwlock_init`. -/
def sysRwlockInit (ans : Answers) : Sys ℤ := do
  match (← Prog.get).argptr 0 (BitVec.ofNat 32 RWLOCKSIZE) with
  | none => return -1
  | some x =>
    Prog.modify fun u ↦ u.rwlockInit ans.name x
    return 0

/-! ### What each part stores -/

section Parts

variable {u u' : Caller} {A B : Word → Prop}

theorem Wrote.onFs (u : Caller) (fs : FsState) : Wrote u { u with fs := fs } A :=
  ⟨rfl, ⟨[], (List.append_nil _).symm, nofun⟩, fun _ _ ↦ rfl⟩

/-- Storing a field that lies in the block. -/
theorem Wrote.storeInt {p : Word} {n : ℕ} (h : Wrote u u' (Range p n)) (o : ℕ) (w : Word)
    (hle : o + 4 ≤ n) : Wrote u (u'.storeInt (field p o) w) (Range p n) :=
  h.trans ((storeInt_wrote u' _ w).mono fun _ ha ↦ ha.mono hle)

theorem Wrote.storeShort {p : Word} {n : ℕ} (h : Wrote u u' (Range p n)) (o : ℕ) (w : BitVec 16)
    (hle : o + 2 ≤ n) : Wrote u (u'.storeShort (field p o) w) (Range p n) :=
  h.trans ((storeShort_wrote u' _ w).mono fun _ ha ↦ ha.mono hle)

theorem stati_wrote (u : Caller) (i : Inode) (st : Word) : Wrote u (u.stati i st) (Range st STATSIZE) :=
  ((((Wrote.refl u _).storeInt 4 1 (by decide)).storeInt 8 _ (by decide)).storeShort 0 _
    (by decide)).storeShort 12 _ (by decide) |>.storeInt 16 _ (by decide)

theorem initlock_wrote (u : Caller) (lk name : Word) : Wrote u (u.initlock lk name) (Range lk 12) :=
  (((Wrote.refl u _).storeInt 4 _ (by decide)).storeInt 0 _ (by decide)).storeInt 8 _ (by decide)

theorem initQueue_wrote (u : Caller) (q : Word) : Wrote u (u.initQueue q) (Range q QUEUEBYTES) :=
  (((Wrote.refl u _).storeInt _ _ (by decide)).storeInt _ _ (by decide)).storeInt _ _ (by decide)

theorem xemInitHead_wrote (u : Caller) (name x : Word) :
    Wrote u (u.xemInitHead name x) (Range x Xem.size) :=
  (((Wrote.refl u _).storeInt 0 _ (by decide)).storeInt 4 _ (by decide)).trans
    ((initlock_wrote _ _ _).mono fun _ ha ↦ ha.mono (o := 8) (by decide))

/-- `xem_init` stores in the semaphore and in the queue it points to. -/
theorem xemInit_wrote (u : Caller) (name x : Word) : Wrote u (u.xemInit name x)
    (fun a ↦ Range x Xem.size a ∨ Range (u.queueAt name x) QUEUEBYTES a) := by
  have hhead := (u.xemInitHead_wrote name x).mono
    (B := fun a ↦ Range x Xem.size a ∨ Range (u.queueAt name x) QUEUEBYTES a) fun _ ↦ .inl
  refine (hhead.trans ((initQueue_wrote _ _).mono fun _ ↦ .inr)).trans (Wrote.mono ?_ fun _ ↦ .inl)
  exact ((Wrote.refl _ _).storeInt _ _ (by decide)).storeInt _ _ (by decide)

end Parts

end Caller

/-! ### The calls as a whole -/

/-- The system calls that store through a pointer of the user. -/
inductive SysCall where
  | read
  | pread
  | fstat
  | pipe
  | threadCreate
  | threadJoin
  | xemInit
  | rwlockInit
  deriving DecidableEq

namespace SysCall

open Caller Prog SysCall

/-- The code of a call. -/
def run (env : Env) (ans : Answers) : SysCall → Sys ℤ
  | .read => sysRead env
  | .pread => sysPread env
  | .fstat => sysFstat env
  | .pipe => sysPipe ans
  | .threadCreate => sysThreadCreate ans
  | .threadJoin => sysThreadJoin ans
  | .xemInit => sysXemInit ans
  | .rwlockInit => sysRwlockInit ans

/-- The pointer that a call is given, and the size of the block it stands for. -/
def pointer (u : Caller) : SysCall → Option (Word × ℕ)
  | .read | .pread => do
    let n ← u.argint 2
    let p ← u.argint 1
    return (p, n.toNat)
  | .fstat => (u.argint 1).map (·, STATSIZE)
  | .pipe => (u.argint 0).map (·, 8)
  | .threadCreate => (u.argint 0).map (·, 4)
  | .threadJoin => (u.argint 1).map (·, 4)
  | .xemInit => (u.argint 0).map (·, Xem.size)
  | .rwlockInit => (u.argint 0).map (·, RWLOCKSIZE)

/-- The pointers to queues through which a call stores, which lie in the structure that it is given. -/
def queues (name : Word) (u : Caller) : SysCall → List Word
  | .xemInit =>
    match u.argptr 0 (BitVec.ofNat 32 Xem.size) with
    | none => []
    | some x => [u.queueAt name x]
  | .rwlockInit =>
    match u.argptr 0 (BitVec.ofNat 32 RWLOCKSIZE) with
    | none => []
    | some x =>
      [u.queueAt name (field x 0), (u.xemInit name (field x 0)).queueAt name (field x Xem.size)]
  | _ => []

/-- The queues belong to the process. -/
def QueuesInside (ans : Answers) (u : Caller) (c : SysCall) : Prop :=
  ∀ q ∈ c.queues ans.name u, u.Inside q QUEUEBYTES

/-- The pointers of the call belong to the process. -/
def Valid (ans : Answers) (u : Caller) (c : SysCall) : Prop :=
  (∃ b ∈ c.pointer u, u.Inside b.1 b.2) ∧ c.QueuesInside ans u

/-- The pointers that the code does not check belong to the process. -/
def Unchecked (ans : Answers) (u : Caller) (c : SysCall) : Prop :=
  c.QueuesInside ans u ∧
  match c with
  | .threadCreate => ans.tid.isSome → ∀ p ∈ u.createArgs, u.Inside p 4
  | .threadJoin => ans.retval.isSome → ∀ p ∈ u.joinArgs, u.Inside p 4
  | _ => True

/-- The call stores into the memory of the process only, and refuses every other pointer. -/
structure Confined (u : Caller) (V : Prop) (r : ℤ) (u' : Caller) : Prop where
  inside : ∀ a ∈ u'.stores, a < u.sz
  refused : ¬V → r = -1 ∧ u' = u

section Confined

variable {u u' : Caller} {V : Prop} {A : Word → Prop}

theorem Confined.refuse (hu : u.stores = []) : Confined u V (-1) u := by
  refine ⟨?_, fun _ ↦ ⟨rfl, rfl⟩⟩
  rw [hu]
  exact nofun

theorem Confined.of_wrote (hu : u.stores = []) (hV : V) {r : ℤ} (hw : Caller.Wrote u u' A)
    (hA : ∀ a, A a → a < u.sz) : Confined u V r u' := by
  refine ⟨fun a ha ↦ ?_, fun h ↦ absurd hV h⟩
  obtain ⟨l, hl, hlA⟩ := hw.stores
  rw [hl, hu] at ha
  exact hA a (hlA a ha)

/-- A block that the call has accepted. -/
theorem Confined.of_block (hu : u.stores = []) (hV : V) {r : ℤ} {p : Word} {n : ℕ}
    (hw : Caller.Wrote u u' (Range p n)) (hp : u.Inside p n) : Confined u V r u' :=
  .of_wrote hu hV hw fun _ ↦ hp.lt

/-- A call that does not fail has been given valid pointers. -/
theorem Confined.valid {r : ℤ} (h : Confined u V r u') (hr : r ≠ -1) : V :=
  by_contra fun hV ↦ hr (h.refused hV).1

end Confined

section Calls

variable {u : Caller} {inp : Input} {base : Env} {ans : Answers}

/-- `argptr` accepts a block only if it belongs to the process. -/
theorem inside_of_argptr (hsz : u.sz.toNat < KERNBASE) {n : ℕ} {size p : Word}
    (h : u.argptr n size = some p) : u.argint n = some p ∧ u.Inside p size.toNat := by
  obtain ⟨hp, -, hin⟩ := (argptr_eq_some hsz).1 h
  exact ⟨hp, hin⟩

/-- The block that `read` and `pread` have accepted. -/
theorem valid_of_read {c : SysCall} (hc : c = .read ∨ c = .pread) {n p : Word}
    (hn : u.argint 2 = some n) (hp : u.argint 1 = some p) (hin : u.Inside p n.toNat) :
    c.Valid ans u := by
  have hpointer : c.pointer u = some (p, n.toNat) := by
    rcases hc with rfl | rfl <;>
    · show (do let n ← u.argint 2; let p ← u.argint 1; return (p, n.toNat)) = some (p, n.toNat)
      rw [hn, hp]
      rfl
  refine ⟨⟨_, hpointer, hin⟩, ?_⟩
  rcases hc with rfl | rfl <;> exact nofun

/-- `read` and `pread` store what is delivered. -/
theorem deliver_confined (hu : u.stores = []) {V : Prop} (hV : V) {m : FS (ℤ × List Byte)}
    {p : Word} {n : ℕ} (hm : m.Sat u.fs (fun out _ ↦ out.2.length ≤ n) fun _ ↦ True)
    (hin : u.Inside p n) :
    (do let (r, bytes) ← onFs m; modify (·.storeBytes p bytes); return r : Sys ℤ).Sat u
      (Confined u V) fun _ ↦ True := by
  refine sat_bind.2 (sat_zoom.2 (hm.imp fun out fs hlen ↦ ?_))
  have hw : Caller.Wrote u (storeBytes { u with fs := fs } p out.2) (Range p out.2.length) :=
    (Caller.Wrote.onFs u fs).trans (storeBytes_wrote _ p out.2)
  refine .of_block hu hV (hw.mono fun a ha ↦ ?_) hin
  obtain ⟨i, hi, rfl⟩ := ha
  exact ⟨i, hi.trans_le hlen, rfl⟩

section

variable (hsz : u.sz.toNat < KERNBASE)

include hsz

theorem sysRead_confined (hu : u.stores = []) :
    (sysRead (inp.env base)).Sat u (Confined u (read.Valid ans u)) fun _ ↦ True := by
  rw [sysRead, sat_get_bind]
  split
  · exact .refuse hu
  next f n p hargs =>
    simp only [readArgs, Option.bind_eq_bind, Option.bind_eq_some_iff, Option.pure_def,
      Option.some.injEq, Prod.mk.injEq] at hargs
    obtain ⟨f, -, n, hn, p, hp, rfl, rfl, rfl⟩ := hargs
    obtain ⟨hp, hin⟩ := inside_of_argptr hsz hp
    exact deliver_confined hu (valid_of_read (.inl rfl) hn hp hin) length_readFile_le hin

theorem sysPread_confined (hu : u.stores = []) :
    (sysPread (inp.env base)).Sat u (Confined u (pread.Valid ans u)) fun _ ↦ True := by
  rw [sysPread, sat_get_bind]
  split
  · exact .refuse hu
  next f n off p hargs =>
    simp only [preadArgs, Option.bind_eq_bind, Option.bind_eq_some_iff, Option.pure_def,
      Option.some.injEq, Prod.mk.injEq] at hargs
    obtain ⟨f, -, n, hn, off, -, p, hp, rfl, rfl, rfl, rfl⟩ := hargs
    obtain ⟨hp, hin⟩ := inside_of_argptr hsz hp
    exact deliver_confined hu (valid_of_read (.inr rfl) hn hp hin) length_readFile_le hin

theorem sysFstat_confined (hu : u.stores = []) {env : Env} :
    (sysFstat env).Sat u (Confined u (fstat.Valid ans u)) fun _ ↦ True := by
  rw [sysFstat, sat_get_bind]
  split
  · exact .refuse hu
  next f st hargs =>
    simp only [fstatArgs, Option.bind_eq_bind, Option.bind_eq_some_iff, Option.pure_def,
      Option.some.injEq, Prod.mk.injEq] at hargs
    obtain ⟨f, -, st, hst, rfl, rfl⟩ := hargs
    obtain ⟨hst, hin⟩ := inside_of_argptr hsz hst
    have hV : fstat.Valid ans u := ⟨⟨_, Option.map_eq_some_iff.2 ⟨st, hst, rfl⟩, hin⟩, nofun⟩
    refine sat_bind.2 (sat_zoom.2 ((sat_true _ _).imp fun i fs _ ↦ ?_))
    cases i with
    | none => exact .of_block hu hV (Caller.Wrote.onFs u fs) hin
    | some i => exact .of_block hu hV ((Caller.Wrote.onFs u fs).trans (stati_wrote _ i st)) hin

theorem sysPipe_confined (hu : u.stores = []) :
    (sysPipe ans).Sat u (Confined u (pipe.Valid ans u)) fun _ ↦ True := by
  rw [sysPipe, sat_get_bind]
  split
  · exact .refuse hu
  next fd hfd =>
    obtain ⟨hfd, hin⟩ := inside_of_argptr hsz hfd
    have hV : pipe.Valid ans u := ⟨⟨_, Option.map_eq_some_iff.2 ⟨fd, hfd, rfl⟩, hin⟩, nofun⟩
    split
    · exact .refuse hu
    next fd0 fd1 _ =>
      refine .of_block hu hV ?_ hin
      exact ((Caller.Wrote.refl u _).storeInt 0 fd0 (by decide)).storeInt 4 fd1 (by decide)

end

/-- `thread_create` stores through any pointer. -/
theorem sysThreadCreate_confined (hu : u.stores = []) (h : threadCreate.Unchecked ans u) :
    (sysThreadCreate ans).Sat u (Confined u (threadCreate.Valid ans u)) fun _ ↦ True := by
  rw [sysThreadCreate, sat_get_bind]
  split
  · exact .refuse hu
  next p hargs =>
    split
    · exact .refuse hu
    next tid htid =>
      have hin : u.Inside p 4 := h.2 (by rw [htid]; rfl) p hargs
      simp only [createArgs, Option.bind_eq_bind, Option.bind_eq_some_iff, Option.pure_def,
        Option.some.injEq] at hargs
      obtain ⟨p, hp, -, -, -, -, rfl⟩ := hargs
      have hV : threadCreate.Valid ans u :=
        ⟨⟨_, Option.map_eq_some_iff.2 ⟨p, hp, rfl⟩, hin⟩, nofun⟩
      exact .of_block hu hV (storeInt_wrote u p tid) hin

/-- `thread_join` stores through any pointer. -/
theorem sysThreadJoin_confined (hu : u.stores = []) (h : threadJoin.Unchecked ans u) :
    (sysThreadJoin ans).Sat u (Confined u (threadJoin.Valid ans u)) fun _ ↦ True := by
  rw [sysThreadJoin, sat_get_bind]
  split
  · exact .refuse hu
  next p hargs =>
    split
    · exact .refuse hu
    next v hv =>
      have hin : u.Inside p 4 := h.2 (by rw [hv]; rfl) p hargs
      simp only [joinArgs, Option.bind_eq_bind, Option.bind_eq_some_iff] at hargs
      obtain ⟨-, -, hp⟩ := hargs
      have hV : threadJoin.Valid ans u :=
        ⟨⟨_, Option.map_eq_some_iff.2 ⟨p, hp, rfl⟩, hin⟩, nofun⟩
      exact .of_block hu hV (storeInt_wrote u p v) hin

/-- `xem_init` stores through the pointer that it finds in the semaphore. -/
theorem sysXemInit_confined (hsz : u.sz.toNat < KERNBASE) (hu : u.stores = [])
    (h : xemInit.QueuesInside ans u) :
    (sysXemInit ans).Sat u (Confined u (xemInit.Valid ans u)) fun _ ↦ True := by
  rw [sysXemInit, sat_get_bind]
  split
  · exact .refuse hu
  next x hx =>
    have hq : u.Inside (u.queueAt ans.name x) QUEUEBYTES := by
      refine h _ ?_
      rw [queues, hx]
      exact List.mem_singleton_self _
    obtain ⟨hx, hin⟩ := inside_of_argptr hsz hx
    have hV : xemInit.Valid ans u := ⟨⟨_, Option.map_eq_some_iff.2 ⟨x, hx, rfl⟩, hin⟩, h⟩
    refine .of_wrote hu hV (xemInit_wrote u ans.name x) fun a ha ↦ ?_
    rcases ha with ha | ha
    · exact hin.lt ha
    · exact hq.lt ha

/-- So does `rwlock_init`, twice. -/
theorem sysRwlockInit_confined (hsz : u.sz.toNat < KERNBASE) (hu : u.stores = [])
    (h : rwlockInit.QueuesInside ans u) :
    (sysRwlockInit ans).Sat u (Confined u (rwlockInit.Valid ans u)) fun _ ↦ True := by
  rw [sysRwlockInit, sat_get_bind]
  split
  · exact .refuse hu
  next x hx =>
    have hq := h
    rw [QueuesInside, queues, hx] at hq
    obtain ⟨hx, hin⟩ := inside_of_argptr hsz hx
    have hV : rwlockInit.Valid ans u :=
      ⟨⟨_, Option.map_eq_some_iff.2 ⟨x, hx, rfl⟩, hin⟩, h⟩
    have hlk := (xemInit_wrote u ans.name (field x 0)).mono (B := (· < u.sz)) fun a ha ↦ by
      rcases ha with ha | ha
      · exact hin.lt (ha.mono (by decide))
      · exact (hq _ (List.mem_cons_self ..)).lt ha
    have hwritelock := (xemInit_wrote (u.xemInit ans.name (field x 0)) ans.name
      (field x Xem.size)).mono (B := (· < u.sz)) fun a ha ↦ by
      rcases ha with ha | ha
      · exact hin.lt (ha.mono (by decide))
      · exact (hq _ (List.mem_cons_of_mem _ (List.mem_singleton_self _))).lt ha
    refine .of_wrote hu hV ((hlk.trans hwritelock).trans ((storeInt_wrote ..).mono ?_)) fun _ ↦ id
    exact fun a ha ↦ hin.lt (ha.mono (by decide))

/-- What `thread_create` stores through belongs to the process, if the call is confined. -/
theorem sysThreadCreate_unchecked
    (h : (sysThreadCreate ans).Sat u (Confined u (threadCreate.Valid ans u)) fun _ ↦ True) :
    threadCreate.Unchecked ans u := by
  refine ⟨by simp [QueuesInside, queues], fun htid p hp ↦ ?_⟩
  obtain ⟨tid, htid⟩ := Option.isSome_iff_exists.1 htid
  rw [sysThreadCreate, sat_get_bind, Option.mem_def.1 hp, htid] at h
  obtain ⟨b, hb, hin⟩ := (Confined.valid h (by decide)).1
  simp only [createArgs, Option.mem_def, Option.bind_eq_bind, Option.bind_eq_some_iff,
    Option.pure_def, Option.some.injEq] at hp
  obtain ⟨p, hp, -, -, -, -, rfl⟩ := hp
  rw [pointer, hp] at hb
  obtain rfl := Option.some.inj hb
  exact hin

theorem sysThreadJoin_unchecked
    (h : (sysThreadJoin ans).Sat u (Confined u (threadJoin.Valid ans u)) fun _ ↦ True) :
    threadJoin.Unchecked ans u := by
  refine ⟨by simp [QueuesInside, queues], fun hv p hp ↦ ?_⟩
  obtain ⟨v, hv⟩ := Option.isSome_iff_exists.1 hv
  rw [sysThreadJoin, sat_get_bind, Option.mem_def.1 hp, hv] at h
  obtain ⟨b, hb, hin⟩ := (Confined.valid h (by decide)).1
  simp only [joinArgs, Option.mem_def, Option.bind_eq_bind, Option.bind_eq_some_iff] at hp
  obtain ⟨-, -, hp⟩ := hp
  rw [pointer, hp] at hb
  obtain rfl := Option.some.inj hb
  exact hin

/-- The queue that `xem_init` finds belongs to the process, if the call is confined. -/
theorem sysXemInit_queuesInside
    (h : (sysXemInit ans).Sat u (Confined u (xemInit.Valid ans u)) fun _ ↦ True) :
    xemInit.QueuesInside ans u := by
  rw [sysXemInit, sat_get_bind] at h
  split at h
  next hx => simp [QueuesInside, queues, hx]
  · exact (Confined.valid h (by decide)).2

theorem sysRwlockInit_queuesInside
    (h : (sysRwlockInit ans).Sat u (Confined u (rwlockInit.Valid ans u)) fun _ ↦ True) :
    rwlockInit.QueuesInside ans u := by
  rw [sysRwlockInit, sat_get_bind] at h
  split at h
  next hx => simp [QueuesInside, queues, hx]
  · exact (Confined.valid h (by decide)).2

/-- A call stores into the memory of its process only and refuses every other pointer exactly if the
pointers that it does not check belong to the process. -/
theorem stores_confined (base : Env) (inp : Input) (ans : Answers) (c : SysCall) (u : Caller)
    (hsz : u.sz.toNat < KERNBASE) (hu : u.stores = []) :
    (c.run (inp.env base) ans).Sat u (Confined u (c.Valid ans u)) (fun _ ↦ True) ↔
      c.Unchecked ans u := by
  have hfree : c.queues ans.name u = [] → c.QueuesInside ans u := fun h ↦ by simp [QueuesInside, h]
  cases c with
  | read => exact iff_of_true (sysRead_confined hsz hu) ⟨hfree rfl, trivial⟩
  | pread => exact iff_of_true (sysPread_confined hsz hu) ⟨hfree rfl, trivial⟩
  | fstat => exact iff_of_true (sysFstat_confined hsz hu) ⟨hfree rfl, trivial⟩
  | pipe => exact iff_of_true (sysPipe_confined hsz hu) ⟨hfree rfl, trivial⟩
  | threadCreate => exact ⟨sysThreadCreate_unchecked, sysThreadCreate_confined hu⟩
  | threadJoin => exact ⟨sysThreadJoin_unchecked, sysThreadJoin_confined hu⟩
  | xemInit =>
    exact ⟨fun h ↦ ⟨sysXemInit_queuesInside h, trivial⟩, fun h ↦ sysXemInit_confined hsz hu h.1⟩
  | rwlockInit =>
    exact ⟨fun h ↦ ⟨sysRwlockInit_queuesInside h, trivial⟩, fun h ↦ sysRwlockInit_confined hsz hu h.1⟩

/-- A process of two pages, whose second argument is `p`. -/
def joining (p : Word) : Caller :=
  let blank : Caller := ⟨fun _ ↦ 0, 8192, 4096, fun _ ↦ none, oneFile, []⟩
  { blank.storeInt 4104 p with stores := [] }

/-- A thread has been reaped that has left 7. -/
def reaped : Answers := ⟨none, none, some 7, 0⟩

/-- `thread_join` with a pointer to the first page. -/
theorem stores_confined_join : (joining 16).Inside 16 4 ∧
    (SysCall.threadJoin.run ((⟨fun _ ↦ none, []⟩ : Input).env mkfsEnv) reaped).Sat (joining 16)
      (Confined (joining 16) (SysCall.threadJoin.Valid reaped (joining 16))) fun _ ↦ True := by
  refine ⟨by decide, (stores_confined _ _ _ _ _ (by decide) rfl).2 ⟨nofun, fun _ p hp ↦ ?_⟩⟩
  have hargs : (joining 16).joinArgs = some 16 := by decide
  obtain rfl := Option.mem_unique hargs hp
  decide

/-- `thread_join` with a pointer to the kernel: it returns 0, and it has stored there. -/
theorem thread_join_stores_anywhere : (joining 0x80000000).sz.toNat < KERNBASE ∧
    (joining 0x80000000).stores = [] ∧
    ¬SysCall.threadJoin.Valid reaped (joining 0x80000000) ∧
    ∃ u', (SysCall.threadJoin.run ((⟨fun _ ↦ none, []⟩ : Input).env mkfsEnv) reaped).run
        (joining 0x80000000) = .ok (0, u') ∧
      u'.stores = [0x80000000, 0x80000001, 0x80000002, 0x80000003] ∧ u'.mem 0x80000000 = 7 := by
  refine ⟨by decide, rfl, ?_, _, rfl, by decide, by decide⟩
  intro hvalid
  obtain ⟨⟨b, hb, hin⟩, -⟩ := hvalid
  have hpointer : threadJoin.pointer (joining 0x80000000) = some (0x80000000, 4) := by decide
  obtain rfl := Option.mem_unique hpointer hb
  exact absurd hin (by decide)

end Calls

end SysCall

end Xv6
