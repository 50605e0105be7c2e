import Xv6.Blk.Layout
import Xv6.Lib.Alloc

/-!
# The blocks of an inode

The block numbers of an inode in one row (`Xv6.Blk.slot`), how they change when a block
is written, and how an inode grows by a block (`Xv6.Blk.Grown`): there is a block for
each index below a number (`Xv6.Blk.Full`), the next one gets a block that is not in
use, and with the first block after `NDIRECT` the inode gets the block for the numbers
of the others as well.

The inodes are given by the function that assigns their block numbers to those that
are allocated, so that one of them may be taken from memory instead of the disk.
-/

namespace Xv6.Blk

open Lib Function

/-! ### Block numbers -/

/-- The index `k` of `addrs`. -/
def index (k : ℕ) : Fin (NDIRECT + 1) := ⟨k % (NDIRECT + 1), Nat.mod_lt k (Nat.succ_pos _)⟩

/-- `addrs[k]`. -/
def addr (a : Addrs) (k : ℕ) : UInt32 := a (index k)

/-- `addrs[k] = x`. -/
def setAddr (a : Addrs) (k : ℕ) (x : UInt32) : Addrs := update a (index k) x

/-- The block numbers of an inode: the `k`-th block of the contents, for
`k < MAXFILE`, and then the block with the other numbers. -/
def slot (blk : Disk) (a : Addrs) (k : ℕ) : UInt32 :=
  if k < NDIRECT then addr a k
  else if k < MAXFILE then
    if addr a NDIRECT = 0 then 0 else (blk (addr a NDIRECT)).get32 (4 * (k - NDIRECT))
  else addr a NDIRECT

section Slot

variable {blk : Disk} {a : Addrs} {k j : ℕ} {x : UInt32} {v : Block}

theorem addr_setAddr (hj : j ≤ NDIRECT) (hk : k ≤ NDIRECT) :
    addr (setAddr a k x) j = if j = k then x else addr a j := by
  have hval : ∀ i, i ≤ NDIRECT → (index i).val = i :=
    fun i hi => Nat.mod_eq_of_lt (by omega)
  unfold addr setAddr
  by_cases h : j = k
  · rw [if_pos h, h, update_self]
  · rw [if_neg h, update_of_ne]
    intro hc
    have := congrArg Fin.val hc
    rw [hval j hj, hval k hk] at this
    exact h this

theorem slot_direct (h : k < NDIRECT) : slot blk a k = addr a k := if_pos h

theorem slot_indirect (h : NDIRECT ≤ k) (hk : k < MAXFILE) (ha : addr a NDIRECT ≠ 0) :
    slot blk a k = (blk (addr a NDIRECT)).get32 (4 * (k - NDIRECT)) := by
  rw [slot, if_neg (by omega), if_pos hk, if_neg ha]

theorem slot_unmapped (h : NDIRECT ≤ k) (ha : addr a NDIRECT = 0) : slot blk a k = 0 := by
  rw [slot, if_neg (by omega)]
  split
  · rfl
  · exact ha

theorem slot_maxfile (blk : Disk) (a : Addrs) : slot blk a MAXFILE = addr a NDIRECT := by
  rw [slot, if_neg (by decide), if_neg (lt_irrefl _)]

/-- Only the block with the numbers matters. -/
theorem slot_congr {blk' : Disk} (h : addr a NDIRECT ≠ 0 → blk' (addr a NDIRECT) =
    blk (addr a NDIRECT)) : slot blk' a k = slot blk a k := by
  unfold slot
  by_cases ha : addr a NDIRECT = 0
  · rw [if_pos ha, if_pos ha]
  · rw [h ha]

/-- A number is stored in the inode. -/
theorem slot_setAddr_direct (hk : k < NDIRECT) :
    slot blk (setAddr a k x) j = if j = k then x else slot blk a j := by
  have hind : addr (setAddr a k x) NDIRECT = addr a NDIRECT := by
    rw [addr_setAddr le_rfl hk.le, if_neg (by omega)]
  by_cases hj : j < NDIRECT
  · rw [slot_direct hj, addr_setAddr hj.le hk.le, slot_direct hj]
  · rw [if_neg (by omega), slot, slot, if_neg hj, if_neg hj, hind]

/-- The inode gets the block for the other numbers. -/
theorem slot_setAddr_indirect (ha : addr a NDIRECT = 0) (hx : x ≠ 0)
    (hzero : ∀ i < NINDIRECT, (blk x).get32 (4 * i) = 0) (hj : j ≤ MAXFILE) :
    slot blk (setAddr a NDIRECT x) j = if j = MAXFILE then x else slot blk a j := by
  have hind : addr (setAddr a NDIRECT x) NDIRECT = x := by
    rw [addr_setAddr le_rfl le_rfl, if_pos rfl]
  by_cases hlt : j < NDIRECT
  · rw [slot_direct hlt, addr_setAddr hlt.le le_rfl, if_neg (by omega), slot_direct hlt,
      if_neg (by unfold MAXFILE; omega)]
  · by_cases hmax : j = MAXFILE
    · rw [if_pos hmax, hmax, slot_maxfile, hind]
    · have hjm : j < MAXFILE := by omega
      have hi : j - NDIRECT < NINDIRECT := by
        unfold MAXFILE at hjm
        omega
      rw [if_neg hmax, slot_indirect (by omega) hjm (by rw [hind]; exact hx), hind, hzero _ hi,
        slot_unmapped (by omega) ha]

/-- A number is stored in the block for the numbers. -/
theorem slot_set32 (blk : Disk) (ha : addr a NDIRECT ≠ 0) (hk : k < NINDIRECT) (hj : j ≤ MAXFILE) :
    slot (update blk (addr a NDIRECT) ((blk (addr a NDIRECT)).set32 (4 * k) x)) a j =
      if j = NDIRECT + k then x else slot blk a j := by
  by_cases hlt : j < NDIRECT
  · rw [slot_direct hlt, slot_direct hlt, if_neg (by omega)]
  · by_cases hmax : j = MAXFILE
    · rw [hmax, slot_maxfile, slot_maxfile, if_neg]
      unfold MAXFILE
      omega
    · have hjm : j < MAXFILE := by omega
      rw [slot_indirect (by omega) hjm ha, slot_indirect (by omega) hjm ha, update_self]
      by_cases hjk : j = NDIRECT + k
      · have hk' : 4 * k + 4 ≤ BSIZE := by
          unfold NINDIRECT at hk
          omega
        rw [if_pos hjk, hjk, Nat.add_sub_cancel_left, Bytes.get32_set32 _ _ hk']
      · rw [if_neg hjk, Bytes.get32_set32_of_disjoint]
        omega

end Slot

/-! ### The contents -/

/-- The number of blocks for a number of bytes. -/
def blocksFor (size : ℕ) : ℕ := (size + (BSIZE - 1)) / BSIZE

theorem blocksFor_mono {m n : ℕ} (h : m ≤ n) : blocksFor m ≤ blocksFor n :=
  Nat.div_le_div_right (by omega)

theorem lt_blocksFor {j size : ℕ} (h : j < size) : j / BSIZE < blocksFor size := by
  unfold blocksFor BSIZE
  omega

/-- **There is a block for each index below `n`**, and no other. -/
structure Full (blk : Disk) (a : Addrs) (n : ℕ) : Prop where
  data : ∀ k, k < MAXFILE → (slot blk a k ≠ 0 ↔ k < n)
  indirect : addr a NDIRECT ≠ 0 ↔ NDIRECT < n
  le : n ≤ MAXFILE

theorem Full.slot_self {blk : Disk} {a : Addrs} {n : ℕ} (h : Full blk a n) (hn : n < MAXFILE) :
    slot blk a n = 0 := not_not.mp ((h.data n hn).not.mpr (lt_irrefl n))

theorem Full.unique {blk : Disk} {a : Addrs} {m n : ℕ} (hm : Full blk a m) (hn : Full blk a n) :
    m = n := by
  refine le_antisymm (not_lt.mp fun hlt => ?_) (not_lt.mp fun hlt => ?_)
  · have hmax : n < MAXFILE := hlt.trans_le hm.le
    exact lt_irrefl n ((hn.data n hmax).mp ((hm.data n hmax).mpr hlt))
  · have hmax : m < MAXFILE := hlt.trans_le hn.le
    exact lt_irrefl m ((hm.data m hmax).mp ((hn.data m hmax).mpr hlt))

/-- A byte of the contents of an inode. -/
def content (blk : Disk) (a : Addrs) (j : ℕ) : UInt8 :=
  (blk (slot blk a (j / BSIZE))).byte (j % BSIZE)

/-- **The blocks of an inode are as they were.** -/
def Same (blk blk' : Disk) (a : Addrs) : Prop :=
  ∀ k ≤ MAXFILE, slot blk a k ≠ 0 → blk' (slot blk a k) = blk (slot blk a k)

/-- **The other inodes** have the blocks they had. -/
def Apart (blk blk' : Disk) (A : UInt32 → Option Addrs) (t : UInt32) : Prop :=
  ∀ u a, u ≠ t → A u = some a → Same blk blk' a

namespace Same

variable {blk blk' blk'' : Disk} {a : Addrs} {j k n : ℕ}

theorem slot (h : Same blk blk' a) : slot blk' a k = slot blk a k := by
  refine slot_congr fun hne => ?_
  rw [← slot_maxfile blk] at hne ⊢
  exact h _ le_rfl hne

theorem trans (h : Same blk blk' a) (h' : Same blk' blk'' a) : Same blk blk'' a := by
  intro k hk hne
  have hnext := h' k hk
  rw [h.slot] at hnext
  exact (hnext hne).trans (h k hk hne)

theorem full (h : Same blk blk' a) (hf : Full blk a n) : Full blk' a n :=
  ⟨fun k hk => by rw [h.slot]; exact hf.data k hk, hf.indirect, hf.le⟩

/-- Nor do the contents change. -/
theorem content (h : Same blk blk' a) (hf : Full blk a n) (hj : j / BSIZE < n) :
    content blk' a j = content blk a j := by
  have hmax := hj.trans_le hf.le
  rw [Blk.content, Blk.content, h.slot, h _ hmax.le ((hf.data _ hmax).mpr hj)]

end Same

/-- The block numbers of the inodes, as slots that hold blocks. -/
def refs (blk : Disk) (A : UInt32 → Option Addrs) (i : UInt32 × ℕ) : Option UInt32 :=
  match A i.1 with
  | none => none
  | some a => if i.2 ≤ MAXFILE ∧ slot blk a i.2 ≠ 0 then some (slot blk a i.2) else none

section Refs

variable {blk blk' : Disk} {A : UInt32 → Option Addrs} {a a' a'' : Addrs} {t u : UInt32}
  {k j n : ℕ} {x : UInt32} {used used' : UInt32 → Prop}

theorem refs_eq_some : refs blk A (t, k) = some x ↔
    ∃ a, A t = some a ∧ k ≤ MAXFILE ∧ slot blk a k = x ∧ x ≠ 0 := by
  unfold refs
  cases h : A t with
  | none => simp
  | some a =>
    simp only [Option.some.injEq, exists_eq_left']
    split
    · rename_i hc
      rw [Option.some.injEq]
      refine ⟨fun hx => ⟨hc.1, hx, hx ▸ hc.2⟩, fun hx => hx.2.1⟩
    · rename_i hc
      refine iff_of_false (by simp) fun hx => hc ⟨hx.1, ?_⟩
      rw [hx.2.1]
      exact hx.2.2

theorem refs_slot (hA : A t = some a) (hk : k ≤ MAXFILE) (h : slot blk a k ≠ 0) :
    refs blk A (t, k) = some (slot blk a k) := refs_eq_some.mpr ⟨a, hA, hk, rfl, h⟩

theorem refs_eq_none (hA : A t = some a) (h : slot blk a k = 0) : refs blk A (t, k) = none := by
  cases hr : refs blk A (t, k) with
  | none => rfl
  | some x =>
    obtain ⟨a', hA', -, hx, hne⟩ := refs_eq_some.mp hr
    obtain rfl : a = a' := Option.some.inj (hA.symm.trans hA')
    exact absurd (hx.symm.trans h) hne

theorem refs_congr (h : ∀ t a k, A t = some a → slot blk' a k = slot blk a k) (i : UInt32 × ℕ) :
    refs blk' A i = refs blk A i := by
  obtain ⟨t, k⟩ := i
  unfold refs
  cases hA : A t with
  | none => rfl
  | some a => simp only [h t a k hA]

/-- The slots after one slot of an inode has changed. -/
theorem refs_update (hA : A t = some a) (hk : k ≤ MAXFILE) (hx : x ≠ 0)
    (hself : ∀ j, j ≤ MAXFILE → slot blk' a' j = if j = k then x else slot blk a j)
    (hothers : Apart blk blk' A t) (i : UInt32 × ℕ) :
    refs blk' (update A t (some a')) i = update (refs blk A) (t, k) (some x) i := by
  obtain ⟨u, j⟩ := i
  by_cases hut : u = t
  · subst hut
    by_cases hjk : j = k
    · subst hjk
      rw [update_self]
      refine refs_eq_some.mpr ⟨a', update_self .., hk, ?_, hx⟩
      rw [hself j hk, if_pos rfl]
    · rw [update_of_ne (fun hc => hjk (Prod.mk.inj hc).2)]
      unfold refs
      rw [hA, update_self]
      by_cases hj : j ≤ MAXFILE
      · simp only [hself j hj, if_neg hjk]
      · simp only [hj, false_and, if_false]
  · rw [update_of_ne (fun hc => hut (Prod.mk.inj hc).1)]
    unfold refs
    rw [update_of_ne hut]
    cases hAu : A u with
    | none => rfl
    | some a'' => simp only [(hothers u a'' hut hAu).slot]

/-- An inode without blocks. -/
theorem slot_zero (blk : Disk) (k : ℕ) : slot blk (fun _ => 0) k = 0 := by
  by_cases hk : k < NDIRECT
  · rw [slot_direct hk]
    rfl
  · exact slot_unmapped (not_lt.mp hk) rfl

theorem full_zero (blk : Disk) : Full blk (fun _ => 0) 0 :=
  ⟨fun k _ => iff_of_false (not_not.mpr (slot_zero blk k)) (by omega),
    iff_of_false (not_not.mpr rfl) (by omega), Nat.zero_le _⟩

/-- An inode without blocks is added. -/
theorem refs_insert (hA : A t = none) (i : UInt32 × ℕ) :
    refs blk (update A t (some fun _ => 0)) i = refs blk A i := by
  obtain ⟨u, k⟩ := i
  by_cases hut : u = t
  · subst hut
    rw [refs_eq_none (a := fun _ => 0) (update_self ..) (slot_zero blk k), refs, hA]
  · unfold refs
    rw [update_of_ne hut]

section

variable (h : Alloc (refs blk A) used) (hA : A t = some a)
include h hA

theorem used_slot (hk : k ≤ MAXFILE) (hne : slot blk a k ≠ 0) : used (slot blk a k) :=
  h.of_slot (refs_slot hA hk hne)

/-- The block with the numbers is in use. -/
theorem used_indirect (hne : addr a NDIRECT ≠ 0) : used (addr a NDIRECT) := by
  rw [← slot_maxfile blk] at hne ⊢
  exact used_slot h hA le_rfl hne

/-- Two slots with the same number are the same. -/
theorem slot_inj (hA' : A u = some a') (hk : k ≤ MAXFILE) (hj : j ≤ MAXFILE)
    (hne : slot blk a k ≠ 0) (heq : slot blk a k = slot blk a' j) : t = u ∧ k = j := by
  have h1 := refs_slot hA hk hne
  have h2 := refs_slot hA' hj (heq ▸ hne)
  rw [← heq] at h2
  exact Prod.mk.inj (h.inj h1 h2)

/-- The block with the numbers of an inode is not a block of the contents of an
inode. -/
theorem slot_ne_indirect (hA' : A u = some a') (hk : k < MAXFILE) (hne : slot blk a k ≠ 0) :
    slot blk a k ≠ addr a' NDIRECT := by
  intro heq
  rw [← slot_maxfile blk a'] at heq
  exact absurd (slot_inj h hA hA' hk.le le_rfl hne heq).2 (by omega)

/-- Nothing changes for an inode as long as the blocks in use stay as they are. -/
theorem same_of_keep (hkeep : ∀ y, used y → blk' y = blk y) : Same blk blk' a :=
  fun _ hk hne => hkeep _ (used_slot h hA hk hne)

/-- The block with the numbers of an inode belongs to no other. -/
theorem apart_of_keep (hkeep : ∀ y, used y → y ≠ addr a NDIRECT → blk' y = blk y) :
    Apart blk blk' A t := by
  refine fun u a'' hut hAu k hk hne => hkeep _ (used_slot h hAu hk hne) fun heq => hut ?_
  rw [← slot_maxfile blk a] at heq
  exact (slot_inj h hAu hA hk le_rfl hne heq).1

/-! ### One more block -/

/-- A slot gets a block that is not in use. -/
theorem alloc_take (hk : k ≤ MAXFILE) (h0 : slot blk a k = 0) (hx : x ≠ 0) (hxu : ¬used x)
    (hself : ∀ j, j ≤ MAXFILE → slot blk' a' j = if j = k then x else slot blk a j)
    (hothers : Apart blk blk' A t) :
    Alloc (refs blk' (update A t (some a'))) fun y => y = x ∨ used y :=
  (h.take (i := (t, k)) (refs_eq_none hA h0) hxu).congr (refs_update hA hk hx hself hothers)
    fun _ => Iff.rfl

end

/-- **A block that is not in use**, filled with zeros; those in use are as they were. -/
structure Fresh (blk blk' : Disk) (used : UInt32 → Prop) (x : UInt32) : Prop where
  ne : x ≠ 0
  fresh : ¬used x
  keep : ∀ y, used y → blk' y = blk y
  zero : blk' x = fun _ => 0

/-- **An inode has got one more block**, the `n`-th, with number `x`. -/
structure Grown (blk blk' : Disk) (A : UInt32 → Option Addrs) (t : UInt32) (a a' : Addrs)
    (used used' : UInt32 → Prop) (n : ℕ) (x : UInt32) : Prop where
  alloc : Alloc (refs blk' (update A t (some a'))) used'
  full : Full blk' a' (n + 1)
  old : ∀ k, k < n → slot blk' a' k = slot blk a k
  new : slot blk' a' n = x
  zero : blk' x = fun _ => 0
  keep : ∀ y, used y → y ≠ addr a NDIRECT → blk' y = blk y

/-- An inode has the block for the numbers of its blocks after the first ones. -/
structure Indirect (blk blk' : Disk) (A : UInt32 → Option Addrs) (t : UInt32) (a a' : Addrs)
    (used used' : UInt32 → Prop) : Prop where
  alloc : Alloc (refs blk' (update A t (some a'))) used'
  ne : addr a' NDIRECT ≠ 0
  data : ∀ k, k < MAXFILE → slot blk' a' k = slot blk a k
  keep : ∀ y, used y → blk' y = blk y
  mono : ∀ y, used y → used' y
  fresh : addr a' NDIRECT = addr a NDIRECT ∨ ¬used (addr a' NDIRECT)

theorem Grown.of_slot (halloc : Alloc (refs blk' (update A t (some a'))) used')
    (hf : Full blk a n) (hmax : n < MAXFILE) (hx : x ≠ 0)
    (hslot : ∀ j < MAXFILE, slot blk' a' j = if j = n then x else slot blk a j)
    (hind : addr a' NDIRECT ≠ 0 ↔ NDIRECT < n + 1) (hzero : blk' x = fun _ => 0)
    (hkeep : ∀ y, used y → y ≠ addr a NDIRECT → blk' y = blk y) :
    Grown blk blk' A t a a' used used' n x := by
  refine ⟨halloc, ⟨fun k hk => ?_, hind, hmax⟩, fun k hk => ?_, ?_, hzero, hkeep⟩
  · rw [hslot k hk]
    split
    · rename_i hkn
      exact iff_of_true hx (by omega)
    · rw [hf.data k hk]
      omega
  · rw [hslot k (hk.trans hmax), if_neg hk.ne]
  · rw [hslot n hmax, if_pos rfl]

section

variable (h : Alloc (refs blk A) used) (hA : A t = some a)
include h hA

theorem grown_direct (hn : n < NDIRECT) (hf : Full blk a n) (hx : Fresh blk blk' used x) :
    Grown blk blk' A t a (setAddr a n x) used (fun y => y = x ∨ used y) n x := by
  have hmax : n < MAXFILE := by
    unfold MAXFILE
    omega
  have hslot : ∀ j, slot blk' (setAddr a n x) j = if j = n then x else slot blk a j := fun j => by
    rw [slot_setAddr_direct hn, (same_of_keep h hA hx.keep).slot]
  refine .of_slot (alloc_take h hA hmax.le (hf.slot_self hmax) hx.ne hx.fresh (fun j _ => hslot j)
    (apart_of_keep h hA fun y hy _ => hx.keep y hy)) hf hmax hx.ne (fun j _ => hslot j) ?_ hx.zero
    fun y hy _ => hx.keep y hy
  rw [addr_setAddr le_rfl hn.le, if_neg (by omega), hf.indirect]
  omega

theorem indirect_self (hne : addr a NDIRECT ≠ 0) : Indirect blk blk A t a a used used := by
  refine ⟨?_, hne, fun _ _ => rfl, fun _ _ => rfl, fun _ => id, .inl rfl⟩
  rwa [← hA, update_eq_self]

theorem indirect_new (h0 : addr a NDIRECT = 0) (hx : Fresh blk blk' used x) :
    Indirect blk blk' A t a (setAddr a NDIRECT x) used fun y => y = x ∨ used y := by
  have hslot : ∀ j ≤ MAXFILE, slot blk' (setAddr a NDIRECT x) j =
      if j = MAXFILE then x else slot blk a j := fun j hj => by
    rw [slot_setAddr_indirect h0 hx.ne (fun i _ => by rw [hx.zero]; exact Bytes.get32_zero _) hj,
      (same_of_keep h hA hx.keep).slot]
  have haddr : addr (setAddr a NDIRECT x) NDIRECT = x := by
    rw [addr_setAddr le_rfl le_rfl, if_pos rfl]
  refine ⟨alloc_take h hA le_rfl ((slot_maxfile blk a).trans h0) hx.ne hx.fresh hslot
    (apart_of_keep h hA fun y hy _ => hx.keep y hy), ?_, fun k hk => ?_, hx.keep, fun _ => .inr,
    .inr ?_⟩
  · rw [haddr]
    exact hx.ne
  · rw [hslot k hk.le, if_neg hk.ne]
  · rw [haddr]
    exact hx.fresh

end

theorem Indirect.used_self (h : Indirect blk blk' A t a a' used used') : used' (addr a' NDIRECT) :=
  used_indirect h.alloc (update_self ..) h.ne

theorem Indirect.grown {blk₁ : Disk} {a₁ : Addrs} {used₁ : UInt32 → Prop}
    (h : Indirect blk blk₁ A t a a₁ used used₁) (hf : Full blk a n) (hn : NDIRECT ≤ n)
    (hmax : n < MAXFILE) (hx : x ≠ 0) (hxu : ¬used₁ x)
    (hind : blk' (addr a₁ NDIRECT) = (blk₁ (addr a₁ NDIRECT)).set32 (4 * (n - NDIRECT)) x)
    (hkeep : ∀ y, used₁ y → y ≠ addr a₁ NDIRECT → blk' y = blk₁ y) (hzero : blk' x = fun _ => 0) :
    Grown blk blk' A t a a₁ used (fun y => y = x ∨ used₁ y) n x := by
  have hk : n - NDIRECT < NINDIRECT := by
    unfold MAXFILE at hmax
    omega
  have hslot : ∀ j ≤ MAXFILE, slot blk' a₁ j = if j = n then x else slot blk₁ a₁ j := by
    intro j hj
    have hset := slot_set32 (x := x) blk₁ h.ne hk hj
    rw [show NDIRECT + (n - NDIRECT) = n by omega] at hset
    rw [← hset]
    refine slot_congr fun _ => ?_
    rw [hind, update_self]
  have halloc := alloc_take h.alloc (update_self ..) hmax.le
    ((h.data n hmax).trans (hf.slot_self hmax)) hx hxu hslot
    (apart_of_keep h.alloc (update_self ..) hkeep)
  rw [update_idem] at halloc
  refine .of_slot halloc hf hmax hx (fun j hj => ?_) (iff_of_true h.ne (by omega)) hzero
    fun y hy hne => ?_
  · rw [hslot j hj.le, h.data j hj]
  · refine (hkeep y (h.mono y hy) fun heq => ?_).trans (h.keep y hy)
    rcases h.fresh with hold | hfresh
    · exact hne (heq.trans hold)
    · exact hfresh (heq ▸ hy)

/-- The inode has the contents it had. -/
theorem Grown.content_old (g : Grown blk blk' A t a a' used used' n x)
    (h : Alloc (refs blk A) used) (hA : A t = some a) (hf : Full blk a n) (hj : j / BSIZE < n) :
    content blk' a' j = content blk a j := by
  have hk : j / BSIZE < MAXFILE := hj.trans_le hf.le
  have hne := (hf.data _ hk).mpr hj
  rw [content, content, g.old _ hj, g.keep _ (used_slot h hA hk.le hne)
    (slot_ne_indirect h hA hA hk hne)]

/-! ### Writing a block -/

/-- **A block of the contents of an inode has been written.** -/
structure Written (blk blk' : Disk) (a : Addrs) (k : ℕ) (v : Block) (used : UInt32 → Prop) :
    Prop where
  data : blk' (slot blk a k) = v
  keep : ∀ y, used y → y ≠ slot blk a k → blk' y = blk y

namespace Written

variable {v : Block} (w : Written blk blk' a k v used) (h : Alloc (refs blk A) used)
  (hA : A t = some a) (hk : k < MAXFILE) (hne : slot blk a k ≠ 0)
include w h hA hk hne

theorem slot_eq (hA' : A u = some a') : slot blk' a' j = slot blk a' j :=
  slot_congr fun hne' => w.keep _ (used_indirect h hA' hne')
    (slot_ne_indirect h hA hA' hk hne).symm

theorem alloc : Alloc (refs blk' A) used :=
  h.congr (refs_congr fun _ _ _ hA' => w.slot_eq h hA hk hne hA') fun _ => Iff.rfl

theorem full (hf : Full blk a n) : Full blk' a n :=
  ⟨fun i hi => by rw [w.slot_eq h hA hk hne hA]; exact hf.data i hi, hf.indirect, hf.le⟩

omit hne in
theorem apart : Apart blk blk' A t := fun _ _ hut hA' _ hj hne' =>
  w.keep _ (used_slot h hA' hj hne') fun heq => hut (slot_inj h hA' hA hj hk.le hne' heq).1

/-- The other bytes are what they were. -/
theorem content_of_ne (hf : Full blk a n) (hj : j / BSIZE < n) (hjk : j / BSIZE ≠ k) :
    content blk' a j = content blk a j := by
  have hmax := hj.trans_le hf.le
  have hne' := (hf.data _ hmax).mpr hj
  rw [content, content, w.slot_eq h hA hk hne hA, w.keep _ (used_slot h hA hmax.le hne')]
  exact fun heq => hjk (slot_inj h hA hA hmax.le hk.le hne' heq).2

/-- The bytes of the block are those that were written. -/
theorem content_self (hj : j / BSIZE = k) : content blk' a j = v.byte (j % BSIZE) := by
  rw [content, w.slot_eq h hA hk hne hA, hj, w.data]

end Written

end Refs

end Xv6.Blk
