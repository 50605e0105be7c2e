import Xv6.Blk.Write
import Xv6.Mkfs.Bounds

/-!
# Appending to a file

What `iappend` does when there is room on the image: the inode gets the bytes at the end
of its contents, with the blocks for them, and nothing else changes
(`Xv6.Mkfs.wp_iappendLoop`).

While the loop runs, the block numbers of the inode are in memory and the image still
has the old ones. What holds of the image (`Xv6.Mkfs.Room`) is therefore said about the
block numbers of the inodes, wherever they are.
-/

namespace Xv6.Mkfs

open Lib Function Blk Fs List UInt32

/-- The number of blocks an inode with `n` blocks of contents takes up. -/
def cost (n : ℕ) : ℕ := n + if NDIRECT < n then 1 else 0

theorem cost_mono {m n : ℕ} (h : m ≤ n) : cost m ≤ cost n := by
  unfold cost
  split <;> split <;> omega

/-- A run that must not end other than with `exit(0)`. -/
abbrev totalLogic : Logic Op.Res St := logic fun _ => True

/-- The block numbers that have been assigned. -/
def Assigned (s : St) (x : UInt32) : Prop := nmeta ≤ x ∧ x < s.freeblock

/-- **The image, with the block numbers of the inodes**: every block that has been
assigned is in one of them, and the others have not been written. -/
structure Room (s : St) (A : UInt32 → Option Addrs) : Prop where
  length : s.length = FSSIZE
  lo : nmeta ≤ s.freeblock
  hi : s.freeblock.toNat ≤ FSSIZE
  zero : ∀ x, s.freeblock ≤ x → x < fssize → s.blk x = fun _ => 0
  alloc : Alloc (refs s.blk A) (Assigned s)

/-- **What stays as it was** when something is appended to inode `t`. -/
structure Frame (A : UInt32 → Option Addrs) (t : UInt32) (s s' : St) : Prop where
  low : ∀ x, x < nmeta → s'.blk x = s.blk x
  apart : Apart s.blk s'.blk A t
  freeinode : s'.freeinode = s.freeinode

section Work

variable {s s' s'' : St} {A : UInt32 → Option Addrs} {t : UInt32} {a a' : Addrs} {n : ℕ}
  {x : UInt32}

theorem Frame.refl (A : UInt32 → Option Addrs) (t : UInt32) (s : St) : Frame A t s s :=
  ⟨fun _ _ => rfl, .refl s.blk A t, rfl⟩

theorem Frame.trans (h : Frame A t s s') (h' : Frame (update A t (some a)) t s' s'') :
    Frame A t s s'' :=
  ⟨fun x hx => (h'.low x hx).trans (h.low x hx), h.apart.trans h'.apart.of_update,
    h'.freeinode.trans h.freeinode⟩

theorem toNat_nmeta : nmeta.toNat = 59 := rfl

/-- A block that has been assigned is on the image. -/
theorem Room.lt_length (h : Room s A) (hx : Assigned s x) : (sector x).toNat < s.length := by
  have hlt := lt_iff_toNat_lt.mp hx.2
  have hi := h.hi
  rw [sector_eq (by omega), h.length]
  omega

theorem Room.sector (h : Room s A) (hx : Assigned s x) : sector x = x := by
  have hlt := lt_iff_toNat_lt.mp hx.2
  have hi := h.hi
  exact sector_eq (by omega)

theorem Room.toNat_succ (h : Room s A) : (s.freeblock + 1).toNat = s.freeblock.toNat + 1 := by
  have hi := h.hi
  have hone : (1 : UInt32).toNat = 1 := rfl
  unfold FSSIZE at hi
  rw [UInt32.toNat_add, hone]
  omega

/-- **The next block is assigned**: it was not in use, and the rest of the image is still zero. -/
theorem Room.newBlock (h : Room s A) (hroom : s.freeblock.toNat < FSSIZE) :
    Blk.Fresh s.blk s.blk (Assigned s) s.freeblock ∧
      (∀ y, s.freeblock + 1 ≤ y → y < fssize → s.blk y = fun _ => 0) ∧
      (fun y => y = s.freeblock ∨ Assigned s y) = Assigned s.newBlock := by
  have hlo := le_iff_toNat_le.mp h.lo
  refine ⟨⟨fun hc => ?_, fun hx => UInt32.lt_irrefl _ hx.2, fun _ _ => rfl,
    h.zero _ (UInt32.le_refl _) (lt_iff_toNat_lt.mpr hroom)⟩,
    fun y hy => h.zero y (le_iff_toNat_le.mpr ?_), funext fun y => propext ?_⟩
  · rw [toNat_nmeta, hc] at hlo
    exact absurd hlo (by decide)
  · have := le_iff_toNat_le.mp hy
    rw [h.toNat_succ] at this
    omega
  · unfold Assigned
    change _ ↔ nmeta ≤ y ∧ y < s.freeblock + 1
    rw [le_iff_toNat_le, lt_iff_toNat_lt, lt_iff_toNat_lt, h.toNat_succ, ← UInt32.toNat_inj]
    omega

/-- What `findBlock` ends with: the inode has the block with index `n`. -/
structure Next (A : UInt32 → Option Addrs) (t : UInt32) (s s' : St) (a a' : Addrs) (n m : ℕ)
    (x : UInt32) : Prop where
  room : Room s' (update A t (some a'))
  found : Blk.Found s.blk s'.blk A t a a' (Assigned s') n m x
  low : ∀ x, x < nmeta → s'.blk x = s.blk x
  freeinode : s'.freeinode = s.freeinode
  freeblock : s'.freeblock.toNat + cost m = s.freeblock.toNat + cost (n + 1)

/-- A block that the inode has already. -/
theorem Next.self (h : Room s A) (hA : A t = some a) (hf : Full s.blk a (n + 1)) :
    Next A t s s a a n (n + 1) (slot s.blk a n) := by
  refine ⟨?_, .self h.alloc hA hf (Nat.lt_succ_self n), fun _ _ => rfl, rfl, rfl⟩
  rwa [← hA, update_eq_self]

/-- A new block. -/
theorem Next.of_grown (h : Room s A) (hA : A t = some a) (hf : Full s.blk a n)
    (g : Grown s.blk s'.blk A t a a' (Assigned s) (Assigned s') n x) (hlen : s'.length = FSSIZE)
    (hfree : s'.freeblock.toNat + cost n = s.freeblock.toNat + cost (n + 1))
    (hhi : s'.freeblock.toNat ≤ FSSIZE)
    (hzero : ∀ x, s'.freeblock ≤ x → x < fssize → s'.blk x = fun _ => 0)
    (hlow : ∀ x, x < nmeta → s'.blk x = s.blk x) (hinode : s'.freeinode = s.freeinode) :
    Next A t s s' a a' n n x := by
  have hcost : cost n ≤ cost (n + 1) := cost_mono (Nat.le_succ n)
  refine ⟨⟨hlen, le_iff_toNat_le.mpr ?_, hhi, hzero, g.alloc⟩, .of_grown g h.alloc hA hf,
    hlow, hinode, hfree⟩
  have := le_iff_toNat_le.mp h.lo
  omega

/-- What `findIndirect` ends with. -/
theorem wp_findIndirect {Q : Addrs → St → Prop} (h : Room s A) (hA : A t = some a)
    (hf : Full s.blk a n) (hn : NDIRECT ≤ n)
    (hroom : s.freeblock.toNat + cost (n + 1) ≤ FSSIZE + cost n)
    (hQ : ∀ a' s', Indirect s.blk s'.blk A t a a' (Assigned s) (Assigned s') →
      Room s' (update A t (some a')) → s'.freeinode = s.freeinode → s'.blk = s.blk →
      s'.freeblock.toNat + 1 + cost n = s.freeblock.toNat + cost (n + 1) → Q a' s') :
    totalLogic.wp (findIndirect a) Q s := by
  unfold findIndirect
  have hcost : cost (n + 1) = n + 2 := by
    unfold cost
    rw [if_pos (by omega)]
  split
  · rename_i h0
    have hle : ¬NDIRECT < n := hf.indirect.not.mp (not_not.mpr h0)
    have hcost' : cost n = n := by
      unfold cost
      rw [if_neg hle, Nat.add_zero]
    have hlt : s.freeblock.toNat < FSSIZE := by omega
    obtain ⟨hx, hrest, heq⟩ := h.newBlock hlt
    have hind : Indirect s.blk s.newBlock.blk A t a _ (Assigned s) _ :=
      indirect_new h.alloc hA h0 hx
    rw [heq] at hind
    refine .bind (wp_newBlock (hQ _ _ hind ⟨h.length, ?_, ?_, hrest, hind.alloc⟩ rfl rfl
      ?_))
    · have := le_iff_toNat_le.mp h.lo
      refine le_iff_toNat_le.mpr ?_
      change _ ≤ (s.freeblock + 1).toNat
      rw [h.toNat_succ]
      omega
    · change (s.freeblock + 1).toNat ≤ _
      rw [h.toNat_succ]
      omega
    · change (s.freeblock + 1).toNat + _ + _ = _
      rw [h.toNat_succ]
      omega
  · rename_i hne
    have hlt : NDIRECT < n := hf.indirect.mp hne
    have hcost' : cost n = n + 1 := by
      unfold cost
      rw [if_pos hlt]
    have hself : update A t (some a) = A := by rw [← hA, update_eq_self]
    refine hQ _ _ (indirect_self h.alloc hA hne) ?_ rfl rfl (by omega)
    rwa [hself]

/-- **The block with index `n`**: it is there, or it is assigned now. -/
theorem wp_findBlock {Q : Addrs × UInt32 → St → Prop} {m : ℕ} (h : Room s A) (hA : A t = some a)
    (hf : Full s.blk a m) (hn : n < MAXFILE) (hm : m = n ∨ m = n + 1)
    (hroom : s.freeblock.toNat + cost (n + 1) ≤ FSSIZE + cost m)
    (hQ : ∀ a' x s', Next A t s s' a a' n m x → Q (a', x) s') :
    totalLogic.wp (findBlock a n) Q s := by
  have hslot := hf.data n hn
  unfold findBlock
  split
  · rename_i hdirect
    rw [slot_direct hdirect] at hslot
    split
    · rename_i h0
      obtain rfl : m = n := by
        have := hslot.not.mp (not_not.mpr h0)
        omega
      have hcost : cost (m + 1) = cost m + 1 := by
        unfold cost
        rw [if_neg (by omega), if_neg (by omega)]
      have hlt : s.freeblock.toNat < FSSIZE := by omega
      obtain ⟨hx, hrest, heq⟩ := h.newBlock hlt
      have hg : Grown s.blk s.newBlock.blk A t a _ (Assigned s) _ m s.freeblock :=
        grown_direct h.alloc hA hdirect hf hx
      rw [heq] at hg
      have hfound := Next.of_grown h hA hf hg h.length
        (by change (s.freeblock + 1).toNat + _ = _; rw [h.toNat_succ]; omega)
        (by change (s.freeblock + 1).toNat ≤ _; rw [h.toNat_succ]; omega) hrest
        (fun _ _ => rfl) rfl
      exact .bind (wp_newBlock (hQ _ _ _ hfound))
    · rename_i hne
      obtain rfl : m = n + 1 := by
        have := hslot.mp hne
        omega
      have hfound := Next.self h hA hf
      rw [slot_direct hdirect] at hfound
      exact hQ _ _ _ hfound
  · rename_i hind
    have hind : NDIRECT ≤ n := not_lt.mp hind
    rcases hm with rfl | rfl
    · refine .bind (wp_findIndirect h hA hf hind hroom
        fun a₁ s₁ hi hroom₁ hinode hblk hfree => ?_)
      have hused : Assigned s₁ (addr a₁ NDIRECT) := hi.used_self
      have hlt : s₁.freeblock.toNat < FSSIZE := by omega
      refine .bind (wp_rsect (fun hc => ?_) fun hsec => ?_)
      · exact absurd (hroom₁.lt_length hused) (not_lt.mpr hc)
      rw [hroom₁.sector hused] at hsec ⊢
      have hentry : (s₁.blk (addr a₁ NDIRECT)).get32 (4 * (m - NDIRECT)) = 0 := by
        rw [← slot_indirect hind hn hi.ne, hi.data m hn, hf.slot_self hn]
      rw [if_pos hentry]
      refine .bind (wp_newBlock (.bind (wp_wsect ?_)))
      obtain ⟨hx, hrest, heq⟩ := hroom₁.newBlock hlt
      set v := (s₁.blk (addr a₁ NDIRECT)).set32 (4 * (m - NDIRECT)) s₁.freeblock with hv
      set s₂ := s₁.newBlock.wsect .iappend (addr a₁ NDIRECT) v with hs₂
      have hblk₂ : s₂.blk = update s₁.blk (addr a₁ NDIRECT) v := by
        change update s₁.blk (Mkfs.sector _) v = _
        rw [hroom₁.sector hused]
      have hne : s₁.freeblock ≠ addr a₁ NDIRECT := fun hc => hx.fresh (hc ▸ hused)
      have hz₂ : s₂.blk s₁.freeblock = fun _ => 0 := by rw [hblk₂, update_of_ne hne, hx.zero]
      have hg := hi.grown hf hind hn hx.ne hx.fresh (by rw [hblk₂, update_self])
        (fun y _ hy => by rw [hblk₂, update_of_ne hy]) hz₂
      rw [heq] at hg
      have hfree₂ : s₂.freeblock.toNat = s₁.freeblock.toNat + 1 := hroom₁.toNat_succ
      refine hQ _ _ _ (Next.of_grown h hA hf hg ?_ ?_ ?_ (fun y hy hyf => ?_) (fun y hy => ?_)
        hinode)
      · change max s₁.length _ = _
        rw [max_eq_left (by rw [hroom₁.sector hused]; exact hsec), hroom₁.length]
      · rw [hfree₂]
        omega
      · rw [hfree₂]
        omega
      · have hya : y ≠ addr a₁ NDIRECT := by
          rintro rfl
          have h1 := le_iff_toNat_le.mp hy
          have h2 := lt_iff_toNat_lt.mp hused.2
          omega
        rw [hblk₂, update_of_ne hya]
        exact hrest y hy hyf
      · have hya : y ≠ addr a₁ NDIRECT := by
          rintro rfl
          have h1 := le_iff_toNat_le.mp hused.1
          have h2 := lt_iff_toNat_lt.mp hy
          omega
        rw [hblk₂, update_of_ne hya, hblk]
    · have hne : addr a NDIRECT ≠ 0 := hf.indirect.mpr (by omega)
      refine .bind ?_
      unfold findIndirect
      rw [if_neg hne]
      have hused : Assigned s (addr a NDIRECT) := used_indirect h.alloc hA hne
      refine .bind (wp_rsect (fun hc => ?_) fun _ => ?_)
      · exact absurd (h.lt_length hused) (not_lt.mpr hc)
      have hfound := Next.self h hA hf
      have hne' := hslot.mpr (Nat.lt_succ_self n)
      rw [slot_indirect hind hn hne] at hfound hne'
      rw [h.sector hused, if_neg hne']
      exact hQ _ _ _ hfound

/-- **An inode with the contents `c`**; the rest of the last block is zero. -/
structure Holds (blk : Disk) (a : Addrs) (c : Str) : Prop where
  full : Full blk a (blocksFor c.length)
  bytes : bytesOf blk a (blocksFor c.length) = fun j => c.getD j 0

theorem Holds.append {blk blk' : Disk} {used' : UInt32 → Prop} {c q : Str} (h : Holds blk a c)
    (hp : Patched blk blk' A t a a' used' (blocksFor c.length) (blocksFor (c ++ q).length)
      c.length q) : Holds blk' a' (c ++ q) :=
  ⟨hp.full, by rw [hp.bytes, h.bytes, overwrite_getD]⟩

/-- **The bytes are copied into the block.** -/
theorem Next.write {m off : ℕ} {q : Str} (h : Next A t s s' a a' n m x) (hnm : n ≤ m)
    (hn : n = off / BSIZE) (hq : q.length ≤ BSIZE - off % BSIZE) (hs : s'' = s'.wsect .iappend x
      ((s'.blk x).patch (off % BSIZE) q.length fun k => q.getD k 0)) :
    Patched s.blk s''.blk A t a a' (Assigned s'') m (max m (n + 1)) off q ∧
      Room s'' (update A t (some a')) ∧ Frame A t s s'' := by
  have hused : Assigned s' x := h.found.used_self.2
  have hblk : s''.blk = update s'.blk x
      ((s'.blk x).patch (off % BSIZE) q.length fun k => q.getD k 0) := by
    rw [hs]
    change update s'.blk (sector x) _ = _
    rw [h.room.sector hused]
  have hpatched : Patched s.blk s''.blk A t a a' (Assigned s'') m (max m (n + 1)) off q := by
    rw [hs] at hblk ⊢
    refine h.found.patched hnm hn hq ?_ fun y _ hy => ?_
    · rw [hblk, update_self]
    · rw [hblk, update_of_ne hy]
  have hother : ∀ y, y < nmeta ∨ s'.freeblock ≤ y → s''.blk y = s'.blk y := by
    intro y hy
    rw [hblk, update_of_ne]
    rintro rfl
    rcases hy with hy | hy
    · exact absurd hused.1 (UInt32.not_le.mpr hy)
    · exact absurd hy (UInt32.not_le.mpr hused.2)
  refine ⟨hpatched, ?_, fun y hy => (hother y (.inl hy)).trans (h.low y hy), hpatched.apart, ?_⟩
  · rw [hs] at hother hpatched ⊢
    refine ⟨?_, h.room.lo, h.room.hi, fun y hy hyf => ?_, hpatched.alloc⟩
    · change max s'.length _ = _
      rw [max_eq_left (h.room.lt_length hused), h.room.length]
    · exact (hother y (.inr hy)).trans (h.room.zero y hy hyf)
  · rw [hs]
    exact h.freeinode

/-- **The loop of `iappend`** appends the bytes. -/
theorem wp_iappendLoop {Q : Addrs × ℕ → St → Prop} : ∀ {m : ℕ} {s : St} {A : UInt32 → Option Addrs}
    {a : Addrs} {c p : Str}, Room s A → A t = some a → Holds s.blk a c → p.length ≤ m →
      c.length + p.length ≤ MAXFILE * BSIZE →
      s.freeblock.toNat + cost (blocksFor (c.length + p.length)) ≤
        FSSIZE + cost (blocksFor c.length) →
      (∀ a' s', Room s' (update A t (some a')) → Holds s'.blk a' (c ++ p) →
        Frame A t s s' → s'.freeblock.toNat + cost (blocksFor c.length) =
          s.freeblock.toNat + cost (blocksFor (c.length + p.length)) →
        Q (a', c.length + p.length) s') →
      totalLogic.wp (iappendLoop m a c.length p) Q s := by
  intro m
  induction m with
  | zero =>
    intro s A a c p h hA hc hp _ _ hQ
    obtain rfl := length_eq_zero_iff.mp (Nat.le_zero.mp hp)
    refine hQ a s ?_ ?_ (.refl A t s) rfl
    · rwa [← hA, update_eq_self]
    · rwa [append_nil]
  | succ m ih =>
    intro s A a c p h hA hc hp hmax hroom hQ
    rw [iappendLoop]
    split
    · rename_i hnil
      subst hnil
      refine hQ a s ?_ ?_ (.refl A t s) rfl
      · rwa [← hA, update_eq_self]
      · rwa [append_nil]
    · rename_i hnil
      have hpos : 0 < p.length := length_pos_iff.mpr hnil
      set n := c.length / BSIZE with hn
      set n1 := min p.length ((n + 1) * BSIZE - c.length) with hn1
      have hn1pos : 0 < n1 := by
        unfold BSIZE at *
        omega
      have hlt : n < MAXFILE := by
        unfold BSIZE at *
        omega
      have hcost : cost (n + 1) ≤ cost (blocksFor (c.length + p.length)) := by
        refine cost_mono ?_
        unfold blocksFor BSIZE at *
        omega
      refine .bind (wp_assert (fun hc => absurd hlt hc) fun _ => ?_)
      have hmn : blocksFor c.length = n ∨ blocksFor c.length = n + 1 := by
        unfold blocksFor BSIZE at *
        omega
      refine .bind (wp_findBlock (n := n) h hA hc.full hlt hmn (by omega)
        fun a₁ x s₁ hnext => ?_)
      have hused := hnext.found.used_self.2
      refine .bind (wp_rsect (fun hc => ?_) fun _ => ?_)
      · exact absurd (hnext.room.lt_length hused) (not_lt.mpr hc)
      rw [hnext.room.sector hused]
      refine .bind (wp_wsect ?_)
      -- the part of the bytes that goes into this block
      have htake : (p.take n1).length = n1 := by
        rw [length_take]
        omega
      have hlen : (c ++ p.take n1).length = c.length + n1 := by
        rw [length_append, htake]
      have hpatch : (s₁.blk x).patch (c.length - n * BSIZE) n1 (fun k => p.getD k 0) =
          (s₁.blk x).patch (c.length % BSIZE) (p.take n1).length
            fun k => (p.take n1).getD k 0 := by
        rw [show c.length - n * BSIZE = c.length % BSIZE by unfold BSIZE at *; omega]
        exact Bytes.patch_take _ _ (by omega)
      rw [hpatch]
      have hfits : (p.take n1).length ≤ BSIZE - c.length % BSIZE := by
        rw [htake]
        unfold BSIZE at *
        omega
      obtain ⟨hw, hroom₂, hframe⟩ := hnext.write (by omega) hn hfits rfl
      have hblocks : blocksFor (c.length + n1) = n + 1 := by
        unfold blocksFor BSIZE at *
        omega
      have hn' : max (blocksFor c.length) (n + 1) = n + 1 := by omega
      rw [hn', ← hblocks, ← hlen] at hw
      have hholds := hc.append hw
      have hrest : (c ++ p.take n1).length + (p.drop n1).length = c.length + p.length := by
        rw [hlen, length_drop]
        omega
      have hfree := hnext.freeblock
      rw [← hlen]
      refine ih (A := update A t (some a₁)) hroom₂ (update_self ..) hholds
        (by rw [length_drop]; omega) (by rw [hrest]; exact hmax) ?_
        fun a' s' hr hh hf hfree' => ?_
      · rw [hrest, hlen, hblocks]
        change s₁.freeblock.toNat + _ ≤ _
        omega
      · rw [update_idem] at hr
        rw [append_assoc, take_append_drop] at hh
        rw [hrest, hlen, hblocks] at hfree'
        change _ = s₁.freeblock.toNat + _ at hfree'
        rw [hrest]
        exact hQ a' s' hr hh (hframe.trans hf) (by omega)

end Work

end Xv6.Mkfs
