import Mathlib.Order.Interval.Finset.Nat
import Xv6.Blk.Content

/-!
# Rules for inodes

An inode on the disk is changed by `iupdate`, and the rest of the disk is not
(`Xv6.Blk.Dev.dinode_putInode`). Between two operations the disk is sound
(`Xv6.Blk.Sound`): every inode has the blocks for its contents, and the bitmap marks
these. While `writei` works, the block numbers in memory are ahead of those on the disk
(`Xv6.Blk.Ahead`), and it is sound again when they have been written.

An inode then has contents, its first `size` bytes (`Xv6.Blk.contents`): `readi` returns
a part of them and `writei` replaces or extends a part of them, and the contents of the
other inodes stay as they are.
-/

namespace Xv6.Blk

open Lib Function Fs UInt32

/-- An inode on the disk. -/
def Dev.dinode (s : Dev) (t : UInt32) : Dinode := Blk.dinode s.sb s.blk t

/-- An inode is written. -/
def Dev.putInode (s : Dev) (t : UInt32) (d : Dinode) : Dev :=
  s.put (IBLOCK s.sb t) (putDinode (s.blk (IBLOCK s.sb t)) (t.toNat % 8) d)

/-- An inode that is allocated. -/
structure Allocated (s : Dev) (t : UInt32) : Prop where
  lt : t < s.sb.ninodes
  type : (s.dinode t).type ≠ 0

/-- **A sound disk**: each inode has the blocks for its contents, and these are the
blocks in use. -/
structure Sound (s : Dev) : Prop extends Base s where
  alloc : Alloc (refs s.blk (inodes s.sb s.blk)) (Used s)
  full : ∀ t, Allocated s t → Full s.blk (s.dinode t).addrs (blocksFor (s.dinode t).size.toNat)

/-- **The contents of an inode.** -/
def contents (s : Dev) (t : UInt32) : Str :=
  bytes (content s.blk (s.dinode t).addrs) 0 (s.dinode t).size.toNat

section Inodes

variable {s s' : Dev} {t u : UInt32} {d : Dinode} {a : Addrs} {x : UInt32} {m : ℕ}

theorem inodes_eq (h : Allocated s t) :
    inodes s.sb s.blk t = some (s.dinode t).addrs := if_pos ⟨h.lt, h.type⟩

theorem inodes_eq_some : inodes s.sb s.blk t = some a ↔ Allocated s t ∧ (s.dinode t).addrs = a := by
  unfold inodes
  split
  · rename_i h
    rw [Option.some.injEq]
    exact ⟨fun ha => ⟨⟨h.1, h.2⟩, ha⟩, fun ha => ha.2⟩
  · rename_i h
    refine ⟨fun ha => ?_, fun ha => absurd ⟨ha.1.lt, ha.1.type⟩ h⟩
    cases ha

/-- The inodes are in the blocks before the bitmap. -/
theorem Kept.dinode (h : Kept s s') (hs : Base s) (ht : t < s.sb.ninodes) :
    s'.dinode t = s.dinode t := by
  unfold Dev.dinode Blk.dinode
  rw [h.sb, h.low _ (hs.geo.IBLOCK_lt ht)]

theorem Kept.allocated (h : Kept s s') (hs : Base s) : Allocated s' t ↔ Allocated s t := by
  refine ⟨fun ha => ?_, fun ha => ?_⟩
  · have hlt : t < s.sb.ninodes := h.sb ▸ ha.lt
    exact ⟨hlt, h.dinode hs hlt ▸ ha.type⟩
  · refine ⟨h.sb.symm ▸ ha.lt, ?_⟩
    rw [h.dinode hs ha.lt]
    exact ha.type

theorem Kept.inodes (h : Kept s s') (hs : Base s) : inodes s'.sb s'.blk = inodes s.sb s.blk := by
  funext t
  have hiff : ∀ a, Blk.inodes s'.sb s'.blk t = some a ↔ Blk.inodes s.sb s.blk t = some a := by
    intro a
    rw [inodes_eq_some, inodes_eq_some, h.allocated hs]
    refine and_congr_right fun ha => ?_
    rw [h.dinode hs ha.lt]
  exact Option.ext hiff

/-- A sound disk is one with the blocks of the inodes as they should be. -/
theorem BlocksOk.sound (h : BlocksOk s.sb s.blk) (hgeo : Geometry s.sb)
    (hsuper : Superblock.decode (s.blk 1) = s.sb) : Sound s := by
  refine ⟨⟨hgeo, hsuper, fun x hx => ?_⟩, ⟨fun hi hj => h.once _ _ _ hi hj, ?_⟩, fun t ht =>
    h.full t ht.lt ht.type⟩
  · exact (h.marked x (UInt32.lt_of_lt_of_le hx hgeo.data)).mpr (.inl hx)
  · intro x
    refine ⟨fun hx => ?_, fun ⟨i, hi⟩ => ?_⟩
    · exact ((h.marked x hx.hi).mp hx.marked).resolve_left (UInt32.not_lt.mpr hx.lo)
    · obtain ⟨hlo, hhi⟩ := h.data i x hi
      exact ⟨hlo, hhi, (h.marked x hhi).mpr (.inr ⟨i, hi⟩)⟩

/-! ### Writing an inode -/

theorem Dev.putInode_sb (s : Dev) (t : UInt32) (d : Dinode) : (s.putInode t d).sb = s.sb := rfl

/-- **The inodes after one has been written.** -/
theorem Dev.dinode_putInode (hs : Base s) (ht : t < s.sb.ninodes) (hu : u < s.sb.ninodes)
    (d : Dinode) : (s.putInode t d).dinode u = if u = t then d else s.dinode u := by
  unfold Dev.dinode Blk.dinode
  rw [Dev.putInode_sb]
  by_cases hb : IBLOCK s.sb u = IBLOCK s.sb t
  · rw [hb, Dev.putInode, Dev.put_blk]
    by_cases hut : u = t
    · rw [if_pos hut, hut, getDinode_putDinode _ (Nat.mod_lt _ (by decide))]
    · rw [if_neg hut, getDinode_putDinode_of_ne]
      intro hmod
      have hb := congrArg UInt32.toNat hb
      rw [hs.geo.toNat_IBLOCK ht, hs.geo.toNat_IBLOCK hu] at hb
      refine hut (UInt32.toNat_inj.mp ?_)
      omega
  · rw [Dev.putInode, Dev.put_blk_of_ne hb, if_neg]
    rintro rfl
    exact hb rfl

/-- The blocks with inodes have nothing to do with the other ones. -/
theorem Dev.putInode_blk (hs : Base s) (ht : t < s.sb.ninodes) {y : UInt32}
    (hy : s.sb.bmapstart ≤ y) : (s.putInode t d).blk y = s.blk y :=
  Dev.put_blk_of_ne (UInt32.ne_of_lt (UInt32.lt_of_lt_of_le (hs.geo.IBLOCK_lt ht) hy)).symm

theorem Used.bmapstart_le (h : Used s x) (hs : Base s) : s.sb.bmapstart ≤ x :=
  UInt32.le_of_lt (UInt32.lt_of_lt_of_le hs.geo.bmapstart_lt h.lo)

theorem Base.putInode (hs : Base s) (ht : t < s.sb.ninodes) (d : Dinode) :
    Base (s.putInode t d) ∧ Used (s.putInode t d) = Used s := by
  have hmarked : ∀ y, y < s.sb.size →
      (Marked s.sb (s.putInode t d).blk y ↔ Marked s.sb s.blk y) := fun y hy =>
    marked_congr (Dev.putInode_blk hs ht (hs.geo.le_BBLOCK hy))
  have hone : (1 : UInt32) ≠ IBLOCK s.sb t := by
    intro hc
    have hc := congrArg UInt32.toNat hc
    have hstart := hs.geo.start
    rw [hs.geo.toNat_IBLOCK ht] at hc
    change 1 = _ at hc
    omega
  refine ⟨⟨hs.geo, ?_, fun y hy => ?_⟩, funext fun y => propext ⟨fun hu => ?_, fun hu => ?_⟩⟩
  · rw [Dev.putInode, Dev.put_blk_of_ne hone]
    exact hs.super
  · exact (hmarked y (UInt32.lt_of_lt_of_le hy hs.geo.data)).mpr (hs.low y hy)
  · exact ⟨hu.lo, hu.hi, (hmarked y hu.hi).mp hu.marked⟩
  · exact ⟨hu.lo, hu.hi, (hmarked y hu.hi).mpr hu.marked⟩

variable {own : List String}

theorem Base.IBLOCK_lt_size (hs : Base s) (ht : t < s.sb.ninodes) : IBLOCK s.sb t < s.sb.size :=
  UInt32.lt_trans (hs.geo.IBLOCK_lt ht) hs.bmapstart_lt_size

theorem wp_iupdate {Q : Unit → Dev → Prop} (hs : Base s) (ha : Allows own s) (hr : Room own s 1)
    (ht : t < s.sb.ninodes) (hQ : Q () (s.putInode t d)) : (devLogic own).wp (iupdate t d) Q s :=
  .bind (wp_sb (.bind (wp_bread ha.disk (hs.IBLOCK_lt_size ht)
    (wp_logWrite ha hr hQ))))

end Inodes

/-! ### Between two operations -/

/-- **The block numbers of an inode in memory are ahead** of those on the disk. -/
structure Ahead (s : Dev) (t : UInt32) (a : Addrs) (m : ℕ) : Prop extends Base s where
  alloc : Alloc (refs s.blk (update (inodes s.sb s.blk) t (some a))) (Used s)
  self : Full s.blk a m
  full : ∀ u, u ≠ t → Allocated s u →
    Full s.blk (s.dinode u).addrs (blocksFor (s.dinode u).size.toNat)

section Ahead

variable {s s' : Dev} {t u : UInt32} {d : Dinode} {a : Addrs} {x : UInt32} {m : ℕ}

theorem Sound.ahead (hs : Sound s) (ht : Allocated s t) :
    Ahead s t (s.dinode t).addrs (blocksFor (s.dinode t).size.toNat) := by
  refine ⟨hs.toBase, ?_, hs.full t ht, fun u _ hu => hs.full u hu⟩
  rw [← inodes_eq ht, update_eq_self]
  exact hs.alloc

theorem allocated_putInode_of_ne (hs : Base s) (ht : t < s.sb.ninodes) (hut : u ≠ t) :
    Allocated (s.putInode t d) u ↔ Allocated s u := by
  refine ⟨fun ha => ⟨ha.lt, ?_⟩, fun ha => ⟨ha.lt, ?_⟩⟩
  · have hty := ha.type
    rwa [Dev.dinode_putInode hs ht ha.lt, if_neg hut] at hty
  · rw [Dev.dinode_putInode hs ht ha.lt, if_neg hut]
    exact ha.type

/-- The block numbers of the inodes after one has been written. -/
theorem inodes_putInode (hs : Base s) (ht : t < s.sb.ninodes) :
    inodes (s.putInode t d).sb (s.putInode t d).blk =
      update (inodes s.sb s.blk) t (if d.type ≠ 0 then some d.addrs else none) := by
  funext u
  by_cases hut : u = t
  · subst hut
    rw [update_self]
    have hd : Blk.dinode (s.putInode u d).sb (s.putInode u d).blk u = d :=
      (Dev.dinode_putInode hs ht ht d).trans (if_pos rfl)
    unfold inodes
    rw [hd]
    exact if_congr ⟨fun h => h.2, fun h => ⟨ht, h⟩⟩ rfl rfl
  · rw [update_of_ne hut]
    refine Option.ext fun a => ?_
    rw [inodes_eq_some, inodes_eq_some, allocated_putInode_of_ne hs ht hut]
    refine and_congr_right fun hu => ?_
    rw [Dev.dinode_putInode hs ht hu.lt, if_neg hut]

/-- The block numbers and the blocks do not depend on the blocks with inodes. -/
theorem Base.same_putInode {A : UInt32 → Option Addrs} (hs : Base s) (ht : t < s.sb.ninodes)
    (h : Alloc (refs s.blk A) (Used s)) (hA : A u = some a) :
    Same s.blk (s.putInode t d).blk a :=
  same_of_keep h hA fun _ hy => Dev.putInode_blk hs ht (hy.bmapstart_le hs)

/-- **The disk is sound again when the inode has been written.** -/
theorem Ahead.putInode (h : Ahead s t a m) (ht : t < s.sb.ninodes) (hty : d.type ≠ 0)
    (ha : d.addrs = a) (hm : blocksFor d.size.toNat = m) : Sound (s.putInode t d) := by
  obtain ⟨hbase, hused⟩ := h.toBase.putInode ht d
  have hinodes := inodes_putInode (d := d) h.toBase ht
  rw [if_pos hty, ha] at hinodes
  refine ⟨hbase, ?_, fun u hu => ?_⟩
  · rw [hinodes, hused]
    exact h.alloc.congr (refs_congr fun u a' k hA => (h.toBase.same_putInode ht h.alloc hA).slot)
      fun _ => Iff.rfl
  · by_cases hut : u = t
    · subst hut
      rw [Dev.dinode_putInode h.toBase ht ht, if_pos rfl, ha, hm]
      exact (h.toBase.same_putInode ht h.alloc (update_self ..)).full h.self
    · have hu' := (allocated_putInode_of_ne h.toBase ht hut).mp hu
      rw [Dev.dinode_putInode h.toBase ht hu'.lt, if_neg hut]
      exact (h.toBase.same_putInode ht h.alloc ((update_of_ne hut ..).trans (inodes_eq hu'))).full
        (h.full u hut hu')

/-- When nothing is ahead any more. -/
theorem Ahead.sound (h : Ahead s t (s.dinode t).addrs (blocksFor (s.dinode t).size.toNat))
    (ht : Allocated s t) : Sound s := by
  have halloc := h.alloc
  rw [← inodes_eq ht, update_eq_self] at halloc
  refine ⟨h.toBase, halloc, fun u hu => ?_⟩
  by_cases hut : u = t
  · exact hut ▸ h.self
  · exact h.full u hut hu

/-- After a write, before the inode has been written. -/
theorem Stored.ahead {a' : Addrs} {off : ℕ} {src : Str} (hs : Ahead s t a m)
    (h : Stored (inodes s.sb s.blk) t s s' a a' m off src) :
    Ahead s' t a' (max m (blocksFor (off + src.length))) := by
  refine ⟨h.base, ?_, h.patched.full, fun u hut hu => ?_⟩
  · rw [h.kept.inodes hs.toBase]
    exact h.patched.alloc
  · have hu' := (h.kept.allocated hs.toBase).mp hu
    rw [h.kept.dinode hs.toBase hu'.lt]
    exact (h.patched.apart u _ hut (inodes_eq hu')).full (hs.full u hut hu')

end Ahead

/-! ### `readi` and `writei` -/

/-- A copy of an inode in memory that may differ from it in the number of links and the
device only. -/
structure Current (s : Dev) (t : UInt32) (d : Dinode) : Prop where
  addrs : d.addrs = (s.dinode t).addrs
  size : d.size = (s.dinode t).size
  type : d.type = (s.dinode t).type

theorem Current.self (s : Dev) (t : UInt32) : Current s t (s.dinode t) := ⟨rfl, rfl, rfl⟩

/-- `writei` makes the inode longer. -/
def Grows (size off n : UInt32) : Prop := 0 < n ∧ size < off + n

instance (size off n : UInt32) : Decidable (Grows size off n) := inferInstanceAs (Decidable (_ ∧ _))

/-- The size of an inode after a write. -/
def newSize (size off n : UInt32) : UInt32 := if Grows size off n then off + n else size

/-- **The blocks that a write takes up in the log**: the data, what comes with new blocks, and the
inode if it gets longer. -/
def writeCost (s : Dev) (d : Dinode) (off n : ℕ) : ℕ :=
  blocksAt off n + growCost s d.addrs (blocksFor d.size.toNat) (blocksFor (off + n)) +
    if d.size.toNat < off + n then 1 else 0

/-- **What `writei` ends with** when it does not fail. In a transaction of its own, and with one block
of the bitmap, it has written exactly the blocks of `Xv6.Blk.writeCost`. -/
structure WroteTo (s s' : Dev) (t : UInt32) (d d' : Dinode) (off : UInt32) (src : Str) :
    Prop where
  sound : Sound s'
  sb : s'.sb = s.sb
  disksize : s'.disksize = s.disksize
  outstanding : s'.outstanding = s.outstanding
  nodup : s.logged.Nodup → s'.logged.Nodup
  copy : d' = d.resize (newSize d.size off (UInt32.ofNat src.length)) d'.addrs
  same : ¬Grows d.size off (UInt32.ofNat src.length) → d' = d
  self : s'.dinode t =
    if Grows d.size off (UInt32.ofNat src.length) then d' else s.dinode t
  other : ∀ u, u ≠ t → u < s.sb.ninodes → s'.dinode u = s.dinode u
  bytes : ∀ j, j < d'.size.toNat →
    content s'.blk d'.addrs j = overwrite (content s.blk d.addrs) off.toNat src j
  apart : ∀ u, u ≠ t → Allocated s u → ∀ j, j < (s.dinode u).size.toNat →
    content s'.blk (s.dinode u).addrs j = content s.blk (s.dinode u).addrs j
  length : s'.logged.length ≤ s.logged.length + writeCost s d off.toNat src.length
  least : (bitmaps s.sb).card ≤ 1 →
    writeCost s d off.toNat src.length ≤ s'.logged.length
  spare : ∀ e, max (blocksFor d.size.toNat) (blocksFor (off.toNat + src.length)) ≤ e →
    Spare s (newBlocks d.addrs (blocksFor d.size.toNat) e) →
    Spare s' (newBlocks d'.addrs (blocksFor d'.size.toNat) e)

section ReadWrite

variable {own : List String} {s s' : Dev} {t u : UInt32} {d d' : Dinode} {a : Addrs} {m : ℕ}
  {off n : UInt32} {src : Str}

/-- **`readi`** returns a part of the contents and changes nothing. -/
theorem wp_readi {Q : Option Str × Dinode → Dev → Prop} (hs : Sound s) (ha : OnDisk own s)
    (ht : Allocated s t) (hd : Current s t d)
    (hQ : Q ((readiLen d.size off n).map fun m =>
      bytes (content s.blk (s.dinode t).addrs) off.toNat m.toNat, d) s) :
    (devLogic own).wp (readi d off n) Q s := by
  unfold readi
  cases hlen : readiLen d.size off n with
  | none =>
    rwa [hlen] at hQ
  | some m =>
    rw [hlen] at hQ
    have hbound : off.toNat + m.toNat ≤ d.size.toNat := by
      unfold readiLen at hlen
      split at hlen
      · cases hlen
      · rename_i hc
        rw [not_or, UInt32.not_lt, UInt32.not_lt, le_iff_toNat_le,
          le_iff_toNat_le, UInt32.toNat_add] at hc
        have h2 := n.toNat_lt
        rw [← Option.some.inj hlen]
        split
        · rename_i hlt
          rw [UInt32.toNat_sub_of_le _ _ (le_iff_toNat_le.mpr hc.1)]
          omega
        · rename_i hle
          rw [UInt32.not_lt, le_iff_toNat_le, UInt32.toNat_add] at hle
          omega
    have hcover : off.toNat + m.toNat ≤ blocksFor (s.dinode t).size.toNat * BSIZE := by
      rw [hd.size] at hbound
      unfold blocksFor BSIZE
      omega
    refine .bind ?_
    rw [hd.addrs]
    refine wp_readLoop ha hs.alloc (inodes_eq ht) (hs.full t ht) m.toNat off.toNat m.toNat le_rfl
      hcover ?_
    rw [← hd.addrs] at hQ ⊢
    exact hQ

/-- A write that does not make the inode longer. -/
theorem le_of_not_grows (hsrc : src.length < 2 ^ 32)
    (hmax : off.toNat + src.length ≤ MAXFILE * BSIZE) {size : UInt32} (hoff : off ≤ size)
    (h : ¬Grows size off (UInt32.ofNat src.length)) : off.toNat + src.length ≤ size.toNat := by
  rcases not_and_or.mp h with h0 | h0
  · have h0 := le_iff_toNat_le.mp (UInt32.not_lt.mp h0)
    rw [toNat_ofNat_of_lt' hsrc] at h0
    change src.length ≤ 0 at h0
    have := le_iff_toNat_le.mp hoff
    omega
  · rw [← toNat_end hsrc hmax]
    exact le_iff_toNat_le.mp (UInt32.not_lt.mp h0)

/-- Blocks from three parts of the disk. -/
theorem length_of_parts {l : List UInt32} (lo mid hi : Finset UInt32) {b c : UInt32}
    (hl : ∀ y, y ∈ lo ∨ y ∈ mid ∨ y ∈ hi → y ∈ l) (hlo : ∀ y ∈ lo, y < b)
    (hmid : ∀ y ∈ mid, b ≤ y ∧ y < c) (hhi : ∀ y ∈ hi, c ≤ y) (hbc : b ≤ c) :
    lo.card + mid.card + hi.card ≤ l.length := by
  have h1 : Disjoint lo mid := Finset.disjoint_left.mpr fun y h h' =>
    absurd (hlo y h) (UInt32.not_lt.mpr (hmid y h').1)
  have h2 : Disjoint (lo ∪ mid) hi := Finset.disjoint_left.mpr fun y h h' => by
    rcases Finset.mem_union.mp h with h | h
    · exact absurd (UInt32.lt_of_lt_of_le (hlo y h) hbc) (UInt32.not_lt.mpr (hhi y h'))
    · exact absurd (hmid y h).2 (UInt32.not_lt.mpr (hhi y h'))
  rw [← Finset.card_union_of_disjoint h1, ← Finset.card_union_of_disjoint h2]
  refine (Finset.card_le_card fun y hy => ?_).trans (List.toFinset_card_le l)
  rw [Finset.mem_union, Finset.mem_union, or_assoc] at hy
  exact List.mem_toFinset.mpr (hl y hy)

namespace Stored

variable {a₁ : Addrs} {s₁ : Dev}

/-- **What has been written.** The blocks of `ino` are those with inodes. -/
theorem least {A : UInt32 → Option Addrs} {off : ℕ} (h : Stored A t s s₁ a a₁ m off src)
    (hone : (bitmaps s.sb).card ≤ 1) {l : List UInt32} (ino : Finset UInt32)
    (hl : ∀ y, y ∈ ino ∨ y ∈ s₁.logged → y ∈ l) (hino : ∀ y ∈ ino, y < s.sb.bmapstart) :
    blocksAt off src.length + growCost s a m (blocksFor (off + src.length)) + ino.card ≤
      l.length := by
  set e := blocksFor (off + src.length) with he
  have hgeo := h.kept.sb ▸ h.base.geo
  have hA : update A t (some a₁) t = some a₁ := update_self ..
  -- the indices of the blocks of the inode that have been written
  obtain ⟨J, hJ⟩ : ∃ J : Finset ℕ, J = Finset.Ico (off / BSIZE) (off / BSIZE + blocksAt off src.length) ∪
    if m < e ∧ NDIRECT < e then {MAXFILE} else ∅ := ⟨_, rfl⟩
  have hend : off / BSIZE + blocksAt off src.length ≤ max (off / BSIZE) e := by
    rw [he]
    unfold blocksAt blocksFor BSIZE
    split <;> omega
  have hslot : ∀ k ∈ J, k ≤ MAXFILE ∧ slot s₁.blk a₁ k ≠ 0 ∧ slot s₁.blk a₁ k ∈ s₁.logged := by
    intro k hk
    rw [hJ, Finset.mem_union, Finset.mem_Ico] at hk
    rcases hk with ⟨h1, h2⟩ | hk
    · have hke : k < e := by omega
      have hmax : k < MAXFILE := lt_of_lt_of_le (lt_max_of_lt_right hke) h.patched.full.le
      refine ⟨hmax.le, (h.patched.full.data k hmax).mpr (lt_max_of_lt_right hke), ?_⟩
      have hj := h.mem (max off (k * BSIZE)) (le_max_left ..) (by
        rw [he] at hke
        unfold blocksAt at h2
        unfold blocksFor BSIZE at *
        split at h2 <;> omega)
      rwa [show max off (k * BSIZE) / BSIZE = k by unfold BSIZE at *; omega] at hj
    · split at hk
      · rename_i hc
        rw [Finset.mem_singleton.mp hk, slot_maxfile]
        exact ⟨le_rfl, h.patched.full.indirect.mpr (lt_max_of_lt_right hc.2),
          (h.new (lt_max_of_lt_right hc.1)).2 (lt_max_of_lt_right hc.2)⟩
      · cases hk
  have hcard : (J.image (slot s₁.blk a₁)).card = J.card :=
    Finset.card_image_of_injOn fun i hi j hj heq => (slot_inj h.patched.alloc hA hA
      (hslot i hi).1 (hslot j hj).1 (hslot i hi).2.1 heq).2
  have hJcard : blocksAt off src.length + (if m < e ∧ NDIRECT < e then 1 else 0) ≤ J.card := by
    have hlt : ∀ k ∈ Finset.Ico (off / BSIZE) (off / BSIZE + blocksAt off src.length),
        k ≠ MAXFILE := fun k hk => by
      rw [Finset.mem_Ico] at hk
      have := h.patched.full.le
      omega
    rw [hJ, Finset.card_union_of_disjoint, Nat.card_Ico]
    · split <;> simp
    · split
      · exact Finset.disjoint_singleton_right.mpr fun hk => hlt _ hk rfl
      · exact Finset.disjoint_empty_right _
  obtain ⟨B, hB, hBcard⟩ : ∃ B : Finset UInt32, (∀ y ∈ B, y ∈ bitmaps s.sb ∧ y ∈ s₁.logged) ∧
      (if m < e then 1 else 0) ≤ B.card := by
    by_cases hm : m < e
    · obtain ⟨y, hy, hlog⟩ := (h.new (lt_max_of_lt_right hm)).1
      refine ⟨{y}, fun z hz => ?_, by rw [if_pos hm, Finset.card_singleton]⟩
      rw [Finset.mem_singleton.mp hz]
      exact ⟨hy, hlog⟩
    · exact ⟨∅, by simp, by rw [if_neg hm]; exact Nat.zero_le _⟩
  have hparts := length_of_parts ino B (J.image (slot s₁.blk a₁))
    (b := s.sb.bmapstart) (c := firstData s.sb) (l := l) (fun y hy => hl y ?_) hino
    (fun y hy => ?_) (fun y hy => ?_) (UInt32.le_of_lt hgeo.bmapstart_lt)
  · have hcost : growCost s a m e ≤
        (if m < e then 1 else 0) + if m < e ∧ NDIRECT < e then 1 else 0 := by
      have hbit : ∀ r, bitmapCost s r ≤ 1 := fun r => (min_le_right ..).trans
        ((Finset.card_le_card Finset.sdiff_subset).trans hone)
      have h1 := hbit (newBlocks a m e)
      have h2 : indirectCost s a ≤ 1 := by unfold indirectCost; split <;> omega
      by_cases hm : m < e
      · rw [growCost, if_pos hm]
        split_ifs <;> omega
      · rw [growCost_of_le _ _ (not_lt.mp hm)]
        exact Nat.zero_le _
    omega
  · refine hy.imp_right fun hy => hy.elim (fun hy => (hB y hy).2) fun hy => ?_
    obtain ⟨k, hk, rfl⟩ := Finset.mem_image.mp hy
    exact (hslot k hk).2.2
  · obtain ⟨x, hx, rfl⟩ := Finset.mem_image.mp (hB y hy).1
    have hxs : UInt32.ofNat x < s.sb.size := by
      have hx := Finset.mem_range.mp hx
      rw [lt_iff_toNat_lt, toNat_ofNat_of_lt' (hx.trans (s.sb.size.toNat_lt))]
      exact hx
    exact ⟨hgeo.le_BBLOCK hxs, hgeo.BBLOCK_lt hxs⟩
  · obtain ⟨k, hk, rfl⟩ := Finset.mem_image.mp hy
    obtain ⟨h1, h2, -⟩ := hslot k hk
    exact h.kept.sb ▸ (used_slot h.patched.alloc hA h1 h2).lo

/-- The bytes of the inode after a write. -/
theorem content_eq (h : Stored (inodes s.sb s.blk) t s s₁ d.addrs a₁ (blocksFor d.size.toNat)
    off.toNat src) (hoff : off ≤ d.size) {j : ℕ}
    (hj : j < d.size.toNat ∨ j < off.toNat + src.length) :
    content s₁.blk a₁ j = overwrite (content s.blk d.addrs) off.toNat src j := by
  have hoff := le_iff_toNat_le.mp hoff
  have hblock : j / BSIZE < max (blocksFor d.size.toNat) (blocksFor (off.toNat + src.length)) :=
    lt_max_iff.mpr (hj.imp lt_blocksFor lt_blocksFor)
  have hpatch := congrFun h.patched.bytes j
  rw [bytesOf, if_pos hblock] at hpatch
  rw [hpatch]
  unfold overwrite
  split
  · rfl
  · rw [bytesOf, if_pos (lt_blocksFor (by omega))]

/-- The bytes of the other inodes. -/
theorem content_other (hs : Sound s) (h : Stored (inodes s.sb s.blk) t s s₁ a a₁ m off.toNat src)
    (hut : u ≠ t) (hu : Allocated s u) {j : ℕ} (hj : j < (s.dinode u).size.toNat) :
    content s₁.blk (s.dinode u).addrs j = content s.blk (s.dinode u).addrs j :=
  (h.patched.apart u _ hut (inodes_eq hu)).content (hs.full u hu) (lt_blocksFor hj)

/-- **A write that makes the inode longer**, after `iupdate`. -/
theorem wroteTo_of_grows (hs : Sound s) (ht : Allocated s t) (hd : Current s t d)
    (hsrc : src.length < 2 ^ 32) (hmax : off.toNat + src.length ≤ MAXFILE * BSIZE)
    (hoff : off ≤ d.size) (hgrow : Grows d.size off (UInt32.ofNat src.length))
    (h : Stored (inodes s.sb s.blk) t s s₁ d.addrs a₁ (blocksFor d.size.toNat) off.toNat src)
    (hd' : d' = d.resize (off + UInt32.ofNat src.length) a₁) :
    WroteTo s (s₁.putInode t d') t d d' off src := by
  have hahead : Ahead s₁ t a₁ _ := h.ahead (hd.addrs ▸ hd.size ▸ hs.ahead ht)
  have ht₁ : t < s₁.sb.ninodes := h.kept.sb.symm ▸ ht.lt
  have hsum : d'.size.toNat = off.toNat + src.length := by
    rw [hd']
    exact toNat_end hsrc hmax
  have haddrs : d'.addrs = a₁ := by rw [hd']; rfl
  have hlt := lt_iff_toNat_lt.mp hgrow.2
  rw [toNat_end hsrc hmax] at hlt
  have hm : blocksFor d'.size.toNat =
      max (blocksFor d.size.toNat) (blocksFor (off.toNat + src.length)) := by
    rw [max_eq_right (blocksFor_mono hlt.le), hsum]
  have hty : d'.type ≠ 0 := by
    rw [hd']
    change d.type ≠ 0
    rw [hd.type]
    exact ht.type
  have hcost : writeCost s d off.toNat src.length = blocksAt off.toNat src.length +
      growCost s d.addrs (blocksFor d.size.toNat) (blocksFor (off.toNat + src.length)) + 1 := by
    rw [writeCost, if_pos hlt]
  refine ⟨hahead.putInode ht₁ hty haddrs hm, h.kept.sb, h.kept.disksize, h.kept.outstanding,
    fun hnd => Dev.nodup_put (h.kept.nodup hnd), ?_, fun hc => absurd hgrow hc, ?_,
    fun u hut hu => ?_, fun j hj => ?_, fun u hut hu j hj => ?_, ?_, fun hone => ?_,
    fun e he hsp => ?_⟩
  · rw [newSize, if_pos hgrow, hd']
    rfl
  · rw [if_pos hgrow, Dev.dinode_putInode h.base ht₁ ht₁, if_pos rfl]
  · rw [Dev.dinode_putInode h.base ht₁ (h.kept.sb.symm ▸ hu), if_neg hut,
      h.kept.dinode hs.toBase hu]
  · rw [haddrs, (h.base.same_putInode ht₁ hahead.alloc (update_self ..)).content hahead.self
      (hm ▸ lt_blocksFor hj)]
    exact h.content_eq hoff (.inr (hsum ▸ hj))
  · have hu₁ := (h.kept.allocated hs.toBase).mpr hu
    have hA₁ : update (inodes s₁.sb s₁.blk) t (some a₁) u =
        some (s.dinode u).addrs := by
      rw [update_of_ne hut, inodes_eq hu₁, h.kept.dinode hs.toBase hu.lt]
    have hfull₁ := hahead.full u hut hu₁
    rw [h.kept.dinode hs.toBase hu.lt] at hfull₁
    rw [(h.base.same_putInode ht₁ hahead.alloc hA₁).content hfull₁ (lt_blocksFor hj)]
    exact h.content_other hs hut hu hj
  · have hlength := h.length (blocksFor (off.toNat + src.length))
      (max_le (blocksFor_mono hlt.le) le_rfl)
    have := Dev.length_put s₁ (IBLOCK s₁.sb t)
      (putDinode (s₁.blk (IBLOCK s₁.sb t)) (t.toNat % 8) d')
    unfold Dev.putInode
    omega
  · have hleast := h.least hone (l := (s₁.putInode t d').logged) {IBLOCK s.sb t}
      (fun y hy => Dev.mem_put_of ?_) fun y hy => ?_
    · rwa [Finset.card_singleton, ← hcost] at hleast
    · rw [h.kept.sb]
      exact hy.symm.imp_right Finset.mem_singleton.mp
    · rw [Finset.mem_singleton.mp hy]
      exact hs.geo.IBLOCK_lt ht.lt
  · rw [haddrs, hm]
    exact (h.spare e he hsp).congr rfl (h.base.putInode ht₁ d').2

/-- **A write within the inode.** -/
theorem wroteTo_of_not_grows (hs : Sound s) (ht : Allocated s t) (hd : Current s t d)
    (hsrc : src.length < 2 ^ 32) (hmax : off.toNat + src.length ≤ MAXFILE * BSIZE)
    (hoff : off ≤ d.size) (hgrow : ¬Grows d.size off (UInt32.ofNat src.length))
    (h : Stored (inodes s.sb s.blk) t s s₁ d.addrs a₁ (blocksFor d.size.toNat) off.toNat src) :
    a₁ = d.addrs ∧ WroteTo s s₁ t d d off src := by
  have hahead := h.ahead (hd.addrs ▸ hd.size ▸ hs.ahead ht)
  have hblocks := blocksFor_mono (le_of_not_grows hsrc hmax hoff hgrow)
  have hsame := h.same (max_le le_rfl hblocks)
  have hdisk : s₁.dinode t = s.dinode t := h.kept.dinode hs.toBase ht.lt
  rw [max_eq_left hblocks, hsame, hd.addrs, hd.size, ← hdisk] at hahead
  have hle := le_of_not_grows hsrc hmax hoff hgrow
  have hcost : writeCost s d off.toNat src.length = blocksAt off.toNat src.length +
      growCost s d.addrs (blocksFor d.size.toNat) (blocksFor (off.toNat + src.length)) := by
    rw [writeCost, if_neg (by omega), Nat.add_zero]
  refine ⟨hsame, hahead.sound ((h.kept.allocated hs.toBase).mpr ht), h.kept.sb, h.kept.disksize,
    h.kept.outstanding, h.kept.nodup, ?_, fun _ => rfl, ?_,
    fun u _ hu => h.kept.dinode hs.toBase hu, fun j hj => ?_,
    fun u hut hu j hj => h.content_other hs hut hu hj, ?_, fun hone => ?_, fun e he hsp => ?_⟩
  · rw [newSize, if_neg hgrow]
    rfl
  · rwa [if_neg hgrow]
  · have heq := h.content_eq hoff (.inl hj)
    rwa [hsame] at heq
  · have hlength := h.length _ le_rfl
    rw [max_eq_left hblocks, growCost_of_le _ _ le_rfl, growCost_of_le _ _ le_rfl] at hlength
    omega
  · rw [hcost]
    exact h.least hone ∅ (fun y hy => hy.resolve_left (Finset.notMem_empty y))
      fun y hy => absurd hy (Finset.notMem_empty y)
  · have hspare := h.spare e he hsp
    rwa [hsame, max_eq_left hblocks] at hspare

end Stored

/-- **`writei`** fails, or replaces or extends a part of the contents. -/
theorem wp_writei {Q : Option UInt32 × Dinode → Dev → Prop} (hs : Sound s) (ha : Allows own s)
    (hfree : Blocks own s (newBlocks d.addrs (blocksFor d.size.toNat)
      (blocksFor (off.toNat + src.length))))
    (hr : Room own s (writeCost s d off.toNat src.length))
    (ht : Allocated s t) (hd : Current s t d) (hsrc : src.length < 2 ^ 32)
    (hfail : writeiOk d.size off (UInt32.ofNat src.length) = false → Q (none, d) s)
    (hok : writeiOk d.size off (UInt32.ofNat src.length) = true → ∀ d' s',
      WroteTo s s' t d d' off src → Q (some (UInt32.ofNat src.length), d') s') :
    (devLogic own).wp (writei t d off src) Q s := by
  unfold writei
  split
  · rename_i hwok
    obtain ⟨hoff, hmax⟩ := (writeiOk_iff hsrc).mp hwok
    have hA : inodes s.sb s.blk t = some d.addrs := by
      rw [hd.addrs]
      exact inodes_eq ht
    have hf : Full s.blk d.addrs (blocksFor d.size.toNat) := by
      rw [hd.addrs, hd.size]
      exact hs.full t ht
    refine .bind (wp_writeLoop src.length hs.toBase ha hfree (fun hc => ?_) hr hs.alloc hA
      hf (blocksFor_mono (le_iff_toNat_le.mp hoff)) le_rfl hmax fun a₁ s₁ hst => ?_)
    · rw [if_pos]
      by_contra hle
      exact absurd hc (not_lt.mpr (blocksFor_mono (not_lt.mp hle)))
    unfold grow
    by_cases hgrow : Grows d.size off (UInt32.ofNat src.length)
    · rw [if_pos (by exact hgrow)]
      have hlt := lt_iff_toNat_lt.mp hgrow.2
      rw [toNat_end hsrc hmax] at hlt
      have hlength := hst.length (blocksFor (off.toNat + src.length))
        (max_le (blocksFor_mono hlt.le) le_rfl)
      rw [writeCost, if_pos hlt] at hr
      exact .bind (wp_iupdate hst.base (hst.kept.allows ha)
        (hr.of_le hst.kept.sb (by omega)) (hst.kept.sb.symm ▸ ht.lt)
        (hok hwok _ _ (hst.wroteTo_of_grows hs ht hd hsrc hmax hoff hgrow rfl)))
    · obtain ⟨hsame, hwrote⟩ := hst.wroteTo_of_not_grows hs ht hd hsrc hmax hoff hgrow
      rw [if_neg (by exact hgrow), hsame]
      exact hok hwok _ _ hwrote
  · rename_i hc
    exact hfail (Bool.not_eq_true _ ▸ hc)

end ReadWrite

end Xv6.Blk
