import Xv6.Blk.Map
import Xv6.Fs.Tree

/-!
# A well-formed disk

What the kernel relies on when it finds a disk, and keeps up: every inode has the blocks
for its contents and no others, no block belongs to two of them, and the bitmap says
which blocks do (`Xv6.Blk.BlocksOk`); the directories have their first two entries, and
the numbers of links are right (`Xv6.Blk.WellFormed`).
-/

namespace Xv6.Blk

open Lib Fs

section Disk

variable (sb : Superblock) (blk : Disk)

/-- The block numbers of the inodes that are allocated. -/
def inodes (t : UInt32) : Option Addrs :=
  if t < sb.ninodes ∧ (dinode sb blk t).type ≠ 0 then some (dinode sb blk t).addrs else none

/-- The bit for a block is set in the bitmap. -/
def Marked (x : UInt32) : Prop := isSet (blk (BBLOCK sb x)) (x.toNat % BPB.toNat) = true

/-- The first block that is not used for the file system itself. -/
def firstData : UInt32 := sb.size - sb.nblocks

/-- The inodes on a disk, with their contents. -/
def tree : Tree where
  disk := fun t => if t < sb.ninodes then (dinode sb blk t).fields else ⟨0, 0, 0, 0, 0⟩
  data := fun t => content blk (dinode sb blk t).addrs

/-- **The blocks of the inodes**: each inode has as many as it needs, no block is used
twice, and the bitmap marks the blocks of the file system itself and the blocks of the
inodes. -/
structure BlocksOk : Prop where
  full : ∀ t, t < sb.ninodes → (dinode sb blk t).type ≠ 0 →
    Full blk (dinode sb blk t).addrs (blocksFor (dinode sb blk t).size.toNat)
  once : ∀ i j x, refs blk (inodes sb blk) i = some x → refs blk (inodes sb blk) j = some x → i = j
  data : ∀ i x, refs blk (inodes sb blk) i = some x → firstData sb ≤ x ∧ x < sb.size
  marked : ∀ x, x < sb.size →
    (Marked sb blk x ↔ x < firstData sb ∨ ∃ i, refs blk (inodes sb blk) i = some x)

/-- **A well-formed disk.** -/
structure WellFormed : Prop extends BlocksOk sb blk where
  dirs : ∀ t, ((tree sb blk).disk t).type = T_DIR → (tree sb blk).Dots t
  links : ∀ t, ((tree sb blk).disk t).type ≠ 0 → (tree sb blk).Exact t

end Disk

end Xv6.Blk
