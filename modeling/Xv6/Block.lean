import Xv6.Lib.LittleEndian
import Xv6.Params

/-!
# Disk blocks

A block is `BSIZE` bytes. The code looks at the same bytes in four ways, and each view here is
defined from the bytes:

* `slice` and `copyIn` are `memmove` out of and into the block;
* `word` and `setWord` read the block as an array of `uint` (an indirect block, the log header);
* `bit` and `setBit` read it as a bitmap, one bit per disk block;
* `dinode` and `setDinode` read it as an array of on-disk inodes.

Each view comes with the lemma that reads back what was written, and with the lemma that a write
elsewhere in the block leaves it alone.
-/

namespace Xv6

open LittleEndian

/-- `uchar`. -/
abbrev Byte : Type := BitVec 8
/-- `short`. -/
abbrev Short : Type := BitVec 16
/-- `uint`. -/
abbrev Word : Type := BitVec 32

/-- The contents of a disk block. -/
@[ext]
structure Block where
  /-- The bytes of the block. -/
  data : Fin BSIZE → Byte

namespace Block

/-- The block of zeroes that `bzero` writes. -/
def zero : Block := ⟨fun _ ↦ 0⟩

/-- Byte `i` of the block. -/
def byte (b : Block) (i : ℕ) : Byte :=
  if h : i < BSIZE then b.data ⟨i, h⟩ else 0

/-- The `n` bytes from offset `o` on: `memmove(dst, bp->data + o, n)`. -/
def slice (b : Block) (o n : ℕ) : List Byte :=
  (List.range n).map fun k ↦ b.byte (o + k)

/-- Overwrite the bytes from offset `o` on: `memmove(bp->data + o, src, n)`. -/
def copyIn (b : Block) (o : ℕ) (src : List Byte) : Block :=
  ⟨fun i ↦ if o ≤ i ∧ i < o + src.length then src.getD (i - o) 0 else b.data i⟩

@[simp]
theorem byte_zero (i : ℕ) : zero.byte i = 0 := by
  unfold byte zero
  split <;> rfl

variable {b : Block} {o i n j : ℕ} {src : List Byte} {w : Word}

theorem byte_copyIn (hi : i < BSIZE) : (b.copyIn o src).byte i =
      if o ≤ i ∧ i < o + src.length then src.getD (i - o) 0 else b.byte i := by
  rw [byte, byte, dif_pos hi, dif_pos hi]
  rfl

/-- A `memmove` of `m` bytes from `src`. -/
theorem byte_copyIn_range {m : ℕ} {src : ℕ → Byte} (hi : i < BSIZE) :
    (b.copyIn o ((List.range m).map src)).byte i =
      if o ≤ i ∧ i < o + m then src (i - o) else b.byte i := by
  rw [byte_copyIn hi, List.length_map, List.length_range]
  split
  next h =>
    have hlt : i - o < m := by omega
    simp [List.getD, hlt]
  · rfl

/-- A `memmove` into the block leaves the bytes outside its range alone. -/
theorem byte_copyIn_of_not_mem (h : i < o ∨ o + src.length ≤ i) : (b.copyIn o src).byte i = b.byte i := by
  by_cases hi : i < BSIZE
  · rw [byte_copyIn hi, if_neg (by omega)]
  · rw [byte, byte, dif_neg hi, dif_neg hi]

@[simp]
theorem length_slice (b : Block) (o n : ℕ) : (b.slice o n).length = n := by
  rw [slice, List.length_map, List.length_range]

theorem slice_congr {c : Block} (h : ∀ i, o ≤ i → i < o + n → b.byte i = c.byte i) :
    b.slice o n = c.slice o n := by
  apply List.map_congr_left
  intro k hk
  rw [List.mem_range] at hk
  exact h _ (by omega) (by omega)

@[simp]
theorem slice_zero (o n : ℕ) : zero.slice o n = List.replicate n 0#8 := by
  simp [slice, List.map_const']

/-- Reading back what was copied in. -/
theorem slice_copyIn (h : o + src.length ≤ BSIZE) : (b.copyIn o src).slice o src.length = src := by
  apply List.ext_getElem (by simp)
  intro k hk hk'
  simp only [slice, List.getElem_map, List.getElem_range]
  rw [byte_copyIn (by omega), if_pos (by omega), Nat.add_sub_cancel_left]
  simp [List.getD, hk']

/-- A range that a copy does not meet reads as before. -/
theorem slice_copyIn_of_disjoint {p : ℕ} (h : p + n ≤ o ∨ o + src.length ≤ p) :
    (b.copyIn o src).slice p n = b.slice p n :=
  slice_congr fun _ _ _ ↦ byte_copyIn_of_not_mem (by omega)

/-! ### A block as an array of `uint` -/

/-- Entry `i` of the block read as an array of `uint`. -/
def word (b : Block) (i : ℕ) : Word :=
  BitVec.ofNat 32 (LittleEndian.decode (b.slice (4 * i) 4))

/-- Store into entry `i` of the block read as an array of `uint`. -/
def setWord (b : Block) (i : ℕ) (w : Word) : Block :=
  b.copyIn (4 * i) (LittleEndian.encode 4 w.toNat)

@[simp]
theorem word_zero (i : ℕ) : zero.word i = 0 := by
  rw [word, slice_zero, decode_replicate_zero]
  rfl

theorem word_setWord_self (h : i < NINDIRECT) : (b.setWord i w).word i = w := by
  have hi : 4 * i + 4 ≤ BSIZE := by
    simp only [NINDIRECT, BSIZE] at h ⊢
    omega
  have hs : (b.setWord i w).slice (4 * i) (encode 4 w.toNat).length =
      encode 4 w.toNat :=
    slice_copyIn (by rwa [length_encode])
  rw [length_encode] at hs
  rw [word, hs, decode_encode]
  apply BitVec.eq_of_toNat_eq
  rw [BitVec.toNat_ofNat]
  have := w.isLt
  omega

theorem word_setWord_of_ne (h : i ≠ j) : (b.setWord j w).word i = b.word i := by
  rw [word, word, setWord, slice_copyIn_of_disjoint]
  rw [length_encode]
  omega

/-- Storing into an array entry changes that entry and no other. -/
theorem word_setWord (h : j < NINDIRECT) : (b.setWord j w).word i = if i = j then w else b.word i := by
  split
  next hij => rw [hij, word_setWord_self h]
  next hij => exact word_setWord_of_ne hij

/-! ### A block as a bitmap -/

/-- Bit `i` of the block: `(data[i/8] & (1 << (i%8))) != 0`. -/
def bit (b : Block) (i : ℕ) : Bool :=
  (b.byte (i / 8)).getLsbD (i % 8)

/-- Set bit `i` of the block: `data[i/8] |= 1 << (i%8)`. -/
def setBit (b : Block) (i : ℕ) : Block :=
  b.copyIn (i / 8) [b.byte (i / 8) ||| (1#8 <<< (i % 8))]

/-- Clear bit `i` of the block: `data[i/8] &= ~(1 << (i%8))`. -/
def clearBit (b : Block) (i : ℕ) : Block :=
  b.copyIn (i / 8) [b.byte (i / 8) &&& ~~~(1#8 <<< (i % 8))]

@[simp]
theorem bit_zero (i : ℕ) : zero.bit i = false := by
  rw [bit, byte_zero]
  exact BitVec.getLsbD_zero

theorem getLsbD_one_shiftLeft {m k : ℕ} (hm : m < 8) : (1#8 <<< m).getLsbD k = decide (k = m) := by
  rw [BitVec.getLsbD_shiftLeft, BitVec.getLsbD_one]
  rw [Bool.eq_iff_iff]
  simp only [Bool.and_eq_true, Bool.not_eq_true', decide_eq_true_eq, decide_eq_false_iff_not]
  omega

/-- Setting a bit changes that bit and no other. -/
theorem bit_setBit (hi : i < BPB) : (b.setBit j).bit i = (decide (i = j) || b.bit i) := by
  simp only [BPB, BSIZE] at hi
  rw [bit, setBit, byte_copyIn (by simp only [BSIZE]; omega)]
  by_cases h : j / 8 = i / 8
  · rw [if_pos (by simp; omega), h, Nat.sub_self, List.getD_cons_zero, BitVec.getLsbD_or,
      getLsbD_one_shiftLeft (by omega), bit, Bool.or_comm]
    congr 1
    rw [decide_eq_decide]
    omega
  · rw [if_neg (by simp; omega), bit, decide_eq_false (by omega), Bool.false_or]

/-- Clearing a bit changes that bit and no other. -/
theorem bit_clearBit (hi : i < BPB) : (b.clearBit j).bit i = (!decide (i = j) && b.bit i) := by
  simp only [BPB, BSIZE] at hi
  rw [bit, clearBit, byte_copyIn (by simp only [BSIZE]; omega)]
  by_cases h : j / 8 = i / 8
  · rw [if_pos (by simp; omega), h, Nat.sub_self, List.getD_cons_zero, BitVec.getLsbD_and,
      BitVec.getLsbD_not, getLsbD_one_shiftLeft (by omega), bit, Bool.and_comm,
      decide_eq_true (show i % 8 < 8 by omega), Bool.true_and]
    congr 2
    rw [decide_eq_decide]
    omega
  · rw [if_neg (by simp; omega), bit, decide_eq_false (by omega), Bool.not_false, Bool.true_and]

/-- The first `n` bits are set, one after another, in a block of zeroes. -/
def firstBits (n : ℕ) : Block := (List.range n).foldl setBit zero

theorem bit_firstBits (hi : i < BPB) : (firstBits n).bit i = decide (i < n) := by
  induction n with
  | zero =>
    rw [firstBits, List.range_zero, List.foldl_nil, bit_zero, decide_eq_false (Nat.not_lt_zero i)]
  | succ n ih =>
    rw [firstBits, List.range_succ, List.foldl_append, List.foldl_cons, List.foldl_nil,
      bit_setBit hi, show (List.range n).foldl setBit zero = firstBits n from rfl, ih,
      ← Bool.decide_or, decide_eq_decide]
    omega

end Block

/-! ### A block as an array of on-disk inodes -/

/-- On-disk inode structure. -/
@[ext]
structure Dinode where
  /-- File type. -/
  type : Short
  /-- Major device number (T_DEV only). -/
  major : Short
  /-- Minor device number (T_DEV only). -/
  minor : Short
  /-- Number of links to inode in file system. -/
  nlink : Short
  /-- Size of file (bytes). -/
  size : Word
  /-- Data block addresses: direct 10, indirect 3. -/
  addrs : Fin NADDRS → Word

namespace Dinode

/-- The inode of an unallocated slot: all bytes zero. -/
def zero : Dinode := ⟨0, 0, 0, 0, 0, fun _ ↦ 0⟩

/-- The `sizeof(struct dinode)` bytes of an on-disk inode. -/
def toBytes (d : Dinode) : List Byte :=
  LittleEndian.encode 2 d.type.toNat ++ (LittleEndian.encode 2 d.major.toNat ++
    (LittleEndian.encode 2 d.minor.toNat ++ (LittleEndian.encode 2 d.nlink.toNat ++
      (LittleEndian.encode 4 d.size.toNat ++
        (List.ofFn d.addrs).flatMap fun w : Word ↦ LittleEndian.encode 4 w.toNat))))

/-- The number in bytes `[o, o + n)` of a byte string. -/
def field (bs : List Byte) (o n : ℕ) : ℕ :=
  LittleEndian.decode ((bs.drop o).take n)

/-- Read an on-disk inode from its bytes. -/
def ofBytes (bs : List Byte) : Dinode where
  type := BitVec.ofNat 16 (field bs 0 2)
  major := BitVec.ofNat 16 (field bs 2 2)
  minor := BitVec.ofNat 16 (field bs 4 2)
  nlink := BitVec.ofNat 16 (field bs 6 2)
  size := BitVec.ofNat 32 (field bs 8 4)
  addrs k := BitVec.ofNat 32 (field bs (12 + 4 * k) 4)

variable {n : ℕ}

/-- Slicing a concatenation of equally long pieces gives a piece. -/
theorem take_drop_flatMap {α β : Type} {f : α → List β} (hf : ∀ x, (f x).length = n) {l : List α} {k : ℕ}
    (hk : k < l.length) : ((l.flatMap f).drop (n * k)).take n = f l[k] := by
  induction l generalizing k with
  | nil => exact absurd hk (Nat.not_lt_zero k)
  | cons x l ih =>
    rw [List.flatMap_cons]
    cases k with
    | zero =>
      rw [Nat.mul_zero, List.drop_zero, List.getElem_cons_zero, ← hf x, List.take_left']
      rfl
    | succ k =>
      rw [Nat.mul_succ, Nat.add_comm, ← hf x, List.drop_append, List.drop_eq_nil_of_le (by omega),
        List.nil_append, Nat.add_sub_cancel_left, hf x, List.getElem_cons_succ]
      exact ih (by simpa using hk)

@[simp]
theorem length_toBytes (d : Dinode) : d.toBytes.length = DINODESIZE := by
  rfl

theorem field_append_left {xs ys : List Byte} (h : xs.length = n) :
    field (xs ++ ys) 0 n = decode xs := by
  rw [field, List.drop_zero, List.take_left' h]

theorem field_append_right {m : ℕ} {xs ys : List Byte} (h : xs.length ≤ m) :
    field (xs ++ ys) m n = field ys (m - xs.length) n := by
  rw [field, field, List.drop_append, List.drop_eq_nil_of_le h, List.nil_append]

theorem ofNat_decode_encode_short (x : Short) : BitVec.ofNat 16 (decode (encode 2 x.toNat)) = x := by
  apply BitVec.eq_of_toNat_eq
  rw [decode_encode, BitVec.toNat_ofNat]
  have := x.isLt
  omega

theorem ofNat_decode_encode_word (x : Word) : BitVec.ofNat 32 (decode (encode 4 x.toNat)) = x := by
  apply BitVec.eq_of_toNat_eq
  rw [decode_encode, BitVec.toNat_ofNat]
  have := x.isLt
  omega

/-- Reading back the bytes of an inode gives the inode. -/
@[simp]
theorem ofBytes_toBytes (d : Dinode) : ofBytes d.toBytes = d := by
  have hlen : ∀ n x, (encode n x).length = n := length_encode
  have haddr (k : Fin NADDRS) :
      field ((List.ofFn d.addrs).flatMap fun w : Word ↦ encode 4 w.toNat) (4 * k) 4 =
        decode (encode 4 (d.addrs k).toNat) := by
    rw [field, take_drop_flatMap (fun w : Word ↦ hlen 4 w.toNat) (by simp), List.getElem_ofFn]
  -- each field is reached by skipping the encodings before it
  ext1 <;> simp only [ofBytes, toBytes]
  · rw [field_append_left (hlen _ _), ofNat_decode_encode_short]
  · rw [field_append_right (by simp), hlen, field_append_left (hlen _ _),
      ofNat_decode_encode_short]
  · rw [field_append_right (by simp), field_append_right (by simp), hlen, hlen,
      field_append_left (hlen _ _), ofNat_decode_encode_short]
  · rw [field_append_right (by simp), field_append_right (by simp),
      field_append_right (by simp), hlen, hlen, hlen, field_append_left (hlen _ _),
      ofNat_decode_encode_short]
  · rw [field_append_right (by simp), field_append_right (by simp),
      field_append_right (by simp), field_append_right (by simp), hlen, hlen, hlen, hlen,
      field_append_left (hlen _ _), ofNat_decode_encode_word]
  · funext k
    rw [field_append_right (by simp; omega), field_append_right (by simp; omega),
      field_append_right (by simp; omega), field_append_right (by simp; omega),
      field_append_right (by simp; omega)]
    simp only [hlen]
    rw [show 12 + 4 * (k : ℕ) - 2 - 2 - 2 - 2 - 4 = 4 * k by omega, haddr,
      ofNat_decode_encode_word]

theorem ofBytes_replicate_zero (n : ℕ) : ofBytes (List.replicate n 0#8) = zero := by
  ext1 <;> simp [ofBytes, zero, field]

end Dinode

namespace Block

/-- Inode `i` of the block: `*((struct dinode*)bp->data + i)`. -/
def dinode (b : Block) (i : ℕ) : Dinode :=
  Dinode.ofBytes (b.slice (DINODESIZE * i) DINODESIZE)

/-- Store into inode `i` of the block. -/
def setDinode (b : Block) (i : ℕ) (d : Dinode) : Block :=
  b.copyIn (DINODESIZE * i) d.toBytes

@[simp]
theorem dinode_zero (i : ℕ) : zero.dinode i = Dinode.zero := by
  rw [dinode, slice_zero, Dinode.ofBytes_replicate_zero]

theorem dinode_setDinode_self {b : Block} {i : ℕ} {d : Dinode} (h : i < IPB) :
    (b.setDinode i d).dinode i = d := by
  have hi : DINODESIZE * i + DINODESIZE ≤ BSIZE := by
    have h8 : i < 8 := h
    rw [show DINODESIZE = 64 from rfl, show BSIZE = 512 from rfl]
    omega
  have hs : (b.setDinode i d).slice (DINODESIZE * i) d.toBytes.length = d.toBytes :=
    slice_copyIn (by simpa using hi)
  rw [Dinode.length_toBytes] at hs
  rw [dinode, hs, Dinode.ofBytes_toBytes]

theorem dinode_setDinode_of_ne {b : Block} {i j : ℕ} {d : Dinode} (h : i ≠ j) :
    (b.setDinode j d).dinode i = b.dinode i := by
  rw [dinode, dinode, setDinode, slice_copyIn_of_disjoint]
  rw [Dinode.length_toBytes, show DINODESIZE = 64 from rfl]
  omega

end Block

end Xv6
