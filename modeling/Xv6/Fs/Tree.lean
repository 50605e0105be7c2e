import Xv6.Fs.Dir
import Xv6.Lib.Count

/-!
# The tree of the directories

What is on a disk, as far as names are concerned (`Xv6.Fs.Tree`): the inodes and their
contents. The entries of the directories are its edges, apart from those for `.` and
`..`, and the number of links of an inode is meant to be the number of edges that lead
to it, and for a directory in addition that of the directories below it, which refer to
it by `..` (`Xv6.Fs.Tree.Exact`).
-/

namespace Xv6.Fs

open Lib

/-- The inodes and their contents. -/
structure Tree where
  disk : UInt32 → Fields
  data : UInt32 → ℕ → UInt8

namespace Tree

/-- Entry `k` of directory `d` is a name of inode `t` other than `.` and `..`. -/
structure Names (T : Tree) (d : UInt32) (k : ℕ) (t : UInt32) : Prop where
  type : (T.disk d).type = T_DIR
  lt : 16 * k < (T.disk d).size.toNat
  inum : entInum (T.data d) k = t
  ne : t ≠ 0
  name : ¬IsDots (entName (T.data d) k)

/-- The directories that have a name in `t`. -/
def Below (T : Tree) (t u : UInt32) : Prop := (T.disk u).type = T_DIR ∧ ∃ k, T.Names t k u

/-- **The number of links of an inode is right.** -/
def Exact (T : Tree) (t : UInt32) : Prop :=
  ∃ m n : ℤ, Counts (fun x : UInt32 × ℕ => T.Names x.1 x.2 t) m ∧ Counts (T.Below t) n ∧
    (T.disk t).nlink.toInt = m + n + if t = ROOTINO then 1 else 0

/-- The contents of a directory are whole entries, of which the first two are for the
directory itself and for its parent. -/
structure Dots (T : Tree) (t : UInt32) : Prop where
  size : (T.disk t).size.toNat % 16 = 0
  two_le : 32 ≤ (T.disk t).size.toNat
  self : entInum (T.data t) 0 = t
  dot : SameName (entName (T.data t) 0) dot
  parent : entInum (T.data t) 1 ≠ 0
  dotdot : SameName (entName (T.data t) 1) dotdot

end Tree

end Xv6.Fs
