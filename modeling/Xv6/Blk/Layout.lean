import Mathlib.Data.Nat.Bitwise
import Xv6.Fs.Op

/-!
# The layout of the disk

What `fs.h` says about the blocks of a disk: where the superblock, the inodes and the
bitmap are, and how an inode and a bit of the bitmap are stored in a block. The layout
is shared by the kernel, which works on the blocks through its buffer cache, and by
`mkfs`, which writes them to a file.

The numbers of the data blocks of an inode are in `NDIRECT + 1` words of the inode and
in one more block, the last of the words being the number of that block.
`Xv6.Blk.slot` puts them in one row: first the blocks of the contents in their order,
up to the `MAXFILE`-th, and then the block with the numbers.
-/

namespace Xv6

open Lib Fs

/-! ### Inodes as bytes -/

namespace Dinode

/-- The part of an inode that the system calls see. -/
def fields (d : Dinode) : Fields := ⟨d.type, d.major, d.minor, d.nlink, d.size⟩

/-- An inode with given fields and block numbers. -/
def ofFields (f : Fields) (a : Fin (NDIRECT + 1) → UInt32) : Dinode :=
  ⟨f.type, f.major, f.minor, f.nlink, f.size, a⟩

theorem ext_fields {d d' : Dinode} (h : d.fields = d'.fields) (ha : d.addrs = d'.addrs) :
    d = d' := by
  have hd : ∀ d : Dinode, d = ofFields d.fields d.addrs := fun _ => rfl
  rw [hd d, hd d', h, ha]

/-- The bytes of a `struct dinode`. -/
def encode (d : Dinode) (j : ℕ) : UInt8 :=
  if j < 2 then Bytes.byteOf16 d.type j
  else if j < 4 then Bytes.byteOf16 d.major (j - 2)
  else if j < 6 then Bytes.byteOf16 d.minor (j - 4)
  else if j < 8 then Bytes.byteOf16 d.nlink (j - 6)
  else if j < 12 then Bytes.byteOf d.size (j - 8)
  else Bytes.byteOf (d.addrs (Fin.ofNat _ ((j - 12) / 4))) ((j - 12) % 4)

/-- The `struct dinode` of some bytes. -/
def decode (f : ℕ → UInt8) : Dinode where
  type := Bytes.le16 (f 0) (f 1)
  major := Bytes.le16 (f 2) (f 3)
  minor := Bytes.le16 (f 4) (f 5)
  nlink := Bytes.le16 (f 6) (f 7)
  size := Bytes.le32 (f 8) (f 9) (f 10) (f 11)
  addrs := fun k => Bytes.le32 (f (12 + 4 * k)) (f (13 + 4 * k)) (f (14 + 4 * k)) (f (15 + 4 * k))

theorem encode_addrs (d : Dinode) (k : Fin (NDIRECT + 1)) {i : ℕ} (hi : i < 4) :
    d.encode (12 + 4 * k + i) = Bytes.byteOf (d.addrs k) i := by
  have hk : (12 + 4 * k.val + i - 12) / 4 = k.val := by omega
  have hi' : (12 + 4 * k.val + i - 12) % 4 = i := by omega
  simp only [encode]
  rw [if_neg (by omega), if_neg (by omega), if_neg (by omega), if_neg (by omega),
    if_neg (by omega), hk, hi', Fin.ofNat_val_eq_self]

/-- Another size, and other block numbers. -/
def resize (d : Dinode) (size : UInt32) (a : Fin (NDIRECT + 1) → UInt32) : Dinode :=
  { d with size := size, addrs := a }

theorem fields_resize (d : Dinode) (size : UInt32) (a : Fin (NDIRECT + 1) → UInt32) :
    (d.resize size a).fields = d.fields.setSize size := rfl

/-- An inode is determined by its bytes. -/
theorem decode_congr {f g : ℕ → UInt8} (h : ∀ j < 64, f j = g j) : decode f = decode g := by
  have hfields : (decode f).fields = (decode g).fields := by
    simp only [decode, fields, h 0 (by omega), h 1 (by omega), h 2 (by omega), h 3 (by omega),
      h 4 (by omega), h 5 (by omega), h 6 (by omega), h 7 (by omega), h 8 (by omega),
      h 9 (by omega), h 10 (by omega), h 11 (by omega)]
  have haddrs : (decode f).addrs = (decode g).addrs := by
    funext k
    have hk : k.val < 13 := k.isLt
    simp only [decode, h (12 + 4 * k) (by omega), h (13 + 4 * k) (by omega),
      h (14 + 4 * k) (by omega), h (15 + 4 * k) (by omega)]
  exact ext_fields hfields haddrs

/-- An inode reads back as it was written. -/
theorem decode_encode (d : Dinode) : decode d.encode = d := by
  have haddrs : (decode d.encode).addrs = d.addrs := by
    funext k
    have h0 := encode_addrs d k (i := 0) (by omega)
    have h1 := encode_addrs d k (i := 1) (by omega)
    have h2 := encode_addrs d k (i := 2) (by omega)
    have h3 := encode_addrs d k (i := 3) (by omega)
    rw [Nat.add_right_comm] at h1 h2 h3
    change Bytes.le32 (d.encode (12 + 4 * k)) (d.encode (12 + 1 + 4 * k))
      (d.encode (12 + 2 + 4 * k)) (d.encode (12 + 3 + 4 * k)) = _
    rw [h1, h2, h3, show d.encode (12 + 4 * k) = _ from h0, Bytes.le32_byteOf]
  have hfields : (decode d.encode).fields = d.fields := by
    change Fields.mk (Bytes.le16 (Bytes.byteOf16 d.type 0) (Bytes.byteOf16 d.type 1))
      (Bytes.le16 (Bytes.byteOf16 d.major 0) (Bytes.byteOf16 d.major 1))
      (Bytes.le16 (Bytes.byteOf16 d.minor 0) (Bytes.byteOf16 d.minor 1))
      (Bytes.le16 (Bytes.byteOf16 d.nlink 0) (Bytes.byteOf16 d.nlink 1))
      (Bytes.le32 (Bytes.byteOf d.size 0) (Bytes.byteOf d.size 1) (Bytes.byteOf d.size 2)
        (Bytes.byteOf d.size 3)) = d.fields
    simp only [Bytes.le16_byteOf16, Bytes.le32_byteOf, fields]
  exact ext_fields hfields haddrs

end Dinode

namespace Blk

/-- The blocks of a disk. -/
abbrev Disk := UInt32 → Block

/-- The block numbers of an inode. -/
abbrev Addrs := Fin (NDIRECT + 1) → UInt32

/-- `struct superblock`. -/
structure Superblock where
  size : UInt32
  nblocks : UInt32
  ninodes : UInt32
  nlog : UInt32
  logstart : UInt32
  inodestart : UInt32
  bmapstart : UInt32
  deriving DecidableEq

/-- The superblock in a block. -/
def Superblock.decode (b : Block) : Superblock :=
  ⟨b.get32 0, b.get32 4, b.get32 8, b.get32 12, b.get32 16, b.get32 20, b.get32 24⟩

/-- The bytes of a superblock, at the beginning of a block of zeros. -/
def Superblock.encode (sb : Superblock) : Block :=
  ((((((Bytes.set32 (fun _ => 0) 0 sb.size).set32 4 sb.nblocks).set32 8 sb.ninodes).set32 12
    sb.nlog).set32 16 sb.logstart).set32 20 sb.inodestart).set32 24 sb.bmapstart

theorem Superblock.decode_encode (sb : Superblock) : decode sb.encode = sb := by
  unfold decode encode
  simp (disch := decide) only [Bytes.get32_set32, Bytes.get32_set32_of_disjoint]

/-- The number of inodes in a block. -/
def IPB : UInt32 := 8

/-- The number of bits in a block. -/
def BPB : UInt32 := 4096

/-- The block with an inode. -/
def IBLOCK (sb : Superblock) (inum : UInt32) : UInt32 := inum / IPB + sb.inodestart

/-- The block with the bit for a block. -/
def BBLOCK (sb : Superblock) (b : UInt32) : UInt32 := b / BPB + sb.bmapstart

/-! ### Inodes -/

/-- The `k`-th inode in a block. -/
def getDinode (b : Block) (k : ℕ) : Dinode := .decode fun j => b.byte (64 * k + j)

/-- Store the `k`-th inode in a block. -/
def putDinode (b : Block) (k : ℕ) (d : Dinode) : Block := b.patch (64 * k) 64 d.encode

theorem getDinode_putDinode (b : Block) {k : ℕ} (hk : k < 8) (d : Dinode) :
    getDinode (putDinode b k d) k = d := by
  refine (Dinode.decode_congr fun j hj => ?_).trans d.decode_encode
  have hlt : 64 * k + j < BSIZE := by
    unfold BSIZE
    omega
  rw [putDinode, Bytes.byte_patch _ _ hlt, if_pos (by omega), Nat.add_sub_cancel_left]

theorem getDinode_putDinode_of_ne (b : Block) {k l : ℕ} (h : l ≠ k) (d : Dinode) :
    getDinode (putDinode b k d) l = getDinode b l :=
  Dinode.decode_congr fun j hj => Bytes.byte_patch_of_disjoint _ _ (by omega)

/-- An inode on the disk. -/
def dinode (sb : Superblock) (blk : Disk) (inum : UInt32) : Dinode :=
  getDinode (blk (IBLOCK sb inum)) (inum.toNat % 8)

/-! ### The bitmap -/

/-- The bit of a byte of the bitmap that stands for block `k`. -/
def mask (k : ℕ) : UInt8 := UInt8.ofNat (2 ^ (k % 8))

/-- The bit for the `k`-th block of a block of the bitmap. -/
def isSet (b : Block) (k : ℕ) : Bool := b.byte (k / 8) &&& mask k ≠ 0

/-- `bp->data[bi/8] |= m`. -/
def setBit (b : Block) (k : ℕ) : Block := b.patch (k / 8) 1 fun _ => b.byte (k / 8) ||| mask k

theorem toNat_mask (k : ℕ) : (mask k).toNat = 2 ^ (k % 8) := by
  have h : 2 ^ (k % 8) < 2 ^ 8 := Nat.pow_lt_pow_right (by omega) (by omega)
  rw [mask, UInt8.toNat_ofNat']
  exact Nat.mod_eq_of_lt h

/-- The masks select the bits of a byte. -/
theorem and_mask_ne_zero (x : UInt8) (k : ℕ) :
    x &&& mask k ≠ 0 ↔ x.toNat.testBit (k % 8) = true := by
  have h : x &&& mask k = 0 ↔ x.toNat &&& 2 ^ (k % 8) = 0 := by
    rw [← UInt8.toNat_inj, UInt8.toNat_and, toNat_mask]
    rfl
  rw [ne_eq, h, Nat.and_two_pow]
  cases x.toNat.testBit (k % 8) <;> simp

theorem isSet_iff (b : Block) (k : ℕ) :
    isSet b k = true ↔ (b.byte (k / 8)).toNat.testBit (k % 8) = true := by
  rw [isSet, decide_eq_true_iff]
  exact and_mask_ne_zero ..

theorem testBit_mask (k l : ℕ) : (mask k).toNat.testBit (l % 8) = true ↔ l % 8 = k % 8 := by
  rw [toNat_mask, Nat.testBit_two_pow, decide_eq_true_iff]
  exact eq_comm

theorem isSet_setBit (b : Block) {k l : ℕ} (hl : l < 4096) :
    isSet (setBit b k) l = true ↔ l = k ∨ isSet b l = true := by
  rw [isSet_iff, isSet_iff, setBit]
  by_cases h : l / 8 = k / 8
  · have hlt : l / 8 < BSIZE := by
      unfold BSIZE
      omega
    rw [Bytes.byte_patch _ _ hlt, if_pos (by omega), UInt8.toNat_or, Nat.testBit_or, ← h,
      Bool.or_eq_true, testBit_mask, or_comm]
    refine or_congr_left ?_
    omega
  · rw [Bytes.byte_patch_of_disjoint _ _ (by omega)]
    refine ⟨.inr, fun hor => hor.resolve_left ?_⟩
    rintro rfl
    exact h rfl

end Blk

end Xv6
