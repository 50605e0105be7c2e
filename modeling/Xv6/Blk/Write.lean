import Xv6.Blk.Map
import Xv6.Fs.Bytes

/-!
# Writing to an inode

The contents of an inode as a function of the offset (`Xv6.Blk.bytesOf`), and what
becomes of them when some bytes are written block by block: first the block is found,
or the inode gets one more (`Xv6.Blk.Found`), and then the bytes are copied into it
(`Xv6.Blk.Patched`). A write that goes over several blocks is made up of such steps
(`Xv6.Blk.Patched.trans`). The other inodes do not change (`Xv6.Blk.Apart`).

All this is about the blocks, no matter how a block that is not in use is found:
`mkfs` takes the next one, and the kernel looks into the bitmap.
-/

namespace Xv6.Blk

open Lib Function Fs

/-- The contents of an inode with `m` blocks; there is nothing after them. -/
def bytesOf (blk : Disk) (a : Addrs) (m j : ℕ) : UInt8 :=
  if j / BSIZE < m then content blk a j else 0

/-- **The block with index `n` of an inode that had `m` blocks**, with number `x`: it was
there, or it is new. -/
structure Found (blk blk' : Disk) (A : UInt32 → Option Addrs) (t : UInt32) (a a' : Addrs)
    (used' : UInt32 → Prop) (n m : ℕ) (x : UInt32) : Prop where
  alloc : Alloc (refs blk' (update A t (some a'))) used'
  full : Full blk' a' (max m (n + 1))
  slot : slot blk' a' n = x
  content : ∀ j, j / BSIZE < m → content blk' a' j = content blk a j
  zero : m = n → blk' x = fun _ => 0
  apart : Apart blk blk' A t

/-- **Some bytes have been written** to an inode that had `m` blocks and has `m'` now. -/
structure Patched (blk blk' : Disk) (A : UInt32 → Option Addrs) (t : UInt32) (a a' : Addrs)
    (used' : UInt32 → Prop) (m m' off : ℕ) (src : Str) : Prop where
  alloc : Alloc (refs blk' (update A t (some a'))) used'
  full : Full blk' a' m'
  bytes : bytesOf blk' a' m' = overwrite (bytesOf blk a m) off src
  apart : Apart blk blk' A t

section Write

variable {blk blk' blk'' : Disk} {A : UInt32 → Option Addrs} {t : UInt32} {a a' a'' : Addrs}
  {used used' used'' : UInt32 → Prop} {n m m' m'' off : ℕ} {x : UInt32} {q r : Str}

theorem Apart.refl (blk : Disk) (A : UInt32 → Option Addrs) (t : UInt32) : Apart blk blk A t :=
  fun _ _ _ _ _ _ _ => rfl

theorem Apart.trans (h : Apart blk blk' A t) (h' : Apart blk' blk'' A t) : Apart blk blk'' A t :=
  fun u a hu hA => (h u a hu hA).trans (h' u a hu hA)

theorem Apart.of_update (h : Apart blk blk' (update A t (some a)) t) : Apart blk blk' A t :=
  fun u a'' hu hA => h u a'' hu ((update_of_ne hu ..).trans hA)

theorem Same.bytesOf (h : Same blk blk' a) (hf : Full blk a n) :
    bytesOf blk' a n = bytesOf blk a n := by
  funext j
  unfold Blk.bytesOf
  split
  · rename_i hj
    exact h.content hf hj
  · rfl

theorem bytesOf_zero (blk : Disk) (a : Addrs) : bytesOf blk a 0 = fun _ => 0 :=
  funext fun _ => if_neg (Nat.not_lt_zero _)

namespace Found

/-- A block that the inode has already. -/
theorem self (h : Alloc (refs blk A) used) (hA : A t = some a) (hf : Full blk a m) (hn : n < m) :
    Found blk blk A t a a used n m (Blk.slot blk a n) := by
  refine ⟨?_, ?_, rfl, fun _ _ => rfl, fun hc => absurd hc (by omega), .refl blk A t⟩
  · rwa [← hA, update_eq_self]
  · rwa [max_eq_left hn]

/-- A new block. -/
theorem of_grown (g : Grown blk blk' A t a a' used used' n x) (h : Alloc (refs blk A) used)
    (hA : A t = some a) (hf : Full blk a n) : Found blk blk' A t a a' used' n n x := by
  refine ⟨g.alloc, ?_, g.new, fun j hj => g.content_old h hA hf hj, fun _ => g.zero,
    apart_of_keep h hA g.keep⟩
  rw [max_eq_right (Nat.le_succ n)]
  exact g.full

/-- The block is in use. -/
theorem used_self (h : Found blk blk' A t a a' used' n m x) : x ≠ 0 ∧ used' x := by
  have hmax : n < MAXFILE := by
    have := h.full.le
    omega
  have hne := (h.full.data n hmax).mpr (by omega)
  have hused := used_slot h.alloc (update_self ..) hmax.le hne
  rw [h.slot] at hne hused
  exact ⟨hne, hused⟩

/-- **The bytes are copied into the block.** -/
theorem patched (h : Found blk blk' A t a a' used' n m x) (hnm : n ≤ m) (hn : n = off / BSIZE)
    (hq : q.length ≤ BSIZE - off % BSIZE)
    (hx : blk'' x = (blk' x).patch (off % BSIZE) q.length fun k => q.getD k 0)
    (hkeep : ∀ y, used' y → y ≠ x → blk'' y = blk' y) :
    Patched blk blk'' A t a a' used' m (max m (n + 1)) off q := by
  have hmax : n < MAXFILE := by
    have := h.full.le
    omega
  have hA : update A t (some a') t = some a' := update_self ..
  have hne := (h.full.data n hmax).mpr (by omega)
  have hw : Written blk' blk'' a' n (blk'' x) used' := by
    refine ⟨by rw [h.slot], fun y hy hyx => hkeep y hy ?_⟩
    rwa [h.slot] at hyx
  refine ⟨hw.alloc h.alloc hA hmax hne, hw.full h.alloc hA hmax hne h.full, ?_,
    h.apart.trans (hw.apart h.alloc hA hmax).of_update⟩
  funext j
  unfold bytesOf
  by_cases hj : j / BSIZE < max m (n + 1)
  · rw [if_pos hj]
    by_cases hjn : j / BSIZE = n
    · -- the byte is in the block, which was there or is new
      have hold : (blk' x).byte (j % BSIZE) = bytesOf blk a m j := by
        unfold bytesOf
        rcases Nat.lt_or_eq_of_le hnm with hlt | heq
        · rw [if_pos (by omega), ← h.content j (by omega), Blk.content, hjn, h.slot]
        · rw [if_neg (by omega), h.zero heq.symm, Bytes.byte_zero]
      rw [hw.content_self h.alloc hA hmax hne hjn, hx,
        Bytes.byte_patch _ _ (Nat.mod_lt j (by decide)), hold]
      unfold overwrite
      refine if_congr ?_ ?_ rfl
      · unfold BSIZE at *
        omega
      · congr 1
        unfold BSIZE at *
        omega
    · have hlt : j / BSIZE < m := by omega
      rw [hw.content_of_ne h.alloc hA hmax hne h.full hj hjn, h.content j hlt, overwrite, if_neg,
        if_pos hlt]
      unfold BSIZE at *
      omega
  · rw [if_neg hj, overwrite, if_neg, if_neg (by omega)]
    unfold BSIZE at *
    omega

end Found

namespace Patched

/-- Nothing has been written. -/
theorem refl (h : Alloc (refs blk A) used) (hA : A t = some a) (hf : Full blk a m) (off : ℕ) :
    Patched blk blk A t a a used m m off [] := by
  refine ⟨?_, hf, (overwrite_nil ..).symm, .refl blk A t⟩
  rwa [← hA, update_eq_self]

/-- **A write of several steps.** -/
theorem trans (h : Patched blk blk' A t a a' used' m m' off q)
    (h' : Patched blk' blk'' (update A t (some a')) t a' a'' used'' m' m'' (off + q.length) r) :
    Patched blk blk'' A t a a'' used'' m m'' off (q ++ r) := by
  refine ⟨?_, h'.full, ?_, h.apart.trans h'.apart.of_update⟩
  · have := h'.alloc
    rwa [update_idem] at this
  · rw [h'.bytes, h.bytes, overwrite_append]

end Patched

end Write

end Xv6.Blk
