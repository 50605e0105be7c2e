import Xv6.Blk.Program
import Xv6.Blk.WellFormed

/-!
# Rules for the bitmap

What `balloc` does on a disk whose parts are where they should be (`Xv6.Blk.Base`): it marks
a block that was not in use, fills it with zeros and leaves everything else alone
(`Xv6.Blk.wp_balloc`). A run stops when there is no such block. Whether it may stop for this
reason, or because of the driver or the log, is left open (`Xv6.Blk.Blocks`, `Xv6.Blk.Allows`,
`Xv6.Blk.Room`); the other messages must not occur.

The bitmap may have many blocks. A block of it that the transaction has written already takes up
no more room in the log, so `Xv6.Blk.bitmapCost` says how many of them are still to come.
-/

namespace Xv6.Blk

open Lib Fs List UInt32

/-- The logic of the programs on blocks, with the messages that may stop them. -/
def devLogic (own : List String) : Logic DevOp.Res Dev :=
  ⟨DevOp.handle, fun _ _ => True, fun _ _ => True, fun msg => msg ∉ own, True⟩

/-! ### Operations -/

/-- The blocks are on the disk, unless the driver may stop the program. -/
def OnDisk (own : List String) (s : Dev) : Prop :=
  "incorrect blockno" ∈ own ∨ s.sb.size.toNat ≤ s.disksize

/-- **What may stop a program**: the driver and the log, unless all blocks are on the
disk and a transaction is open. -/
structure Allows (own : List String) (s : Dev) : Prop where
  disk : OnDisk own s
  trans : "log_write outside of trans" ∈ own ∨ 1 ≤ s.outstanding

/-- The most blocks that a transaction can have. -/
def Dev.logRoom (s : Dev) : ℕ := min LOGSIZE (s.sb.nlog.toNat - 1)

/-- **There is room in the log for `c` more blocks**, unless a lack of it may stop the
program. -/
def Room (own : List String) (s : Dev) (c : ℕ) : Prop :=
  "too big a transaction" ∈ own ∨ s.logged.length + c ≤ s.logRoom

section Rules

variable {own : List String} {s s' : Dev}

theorem Allows.congr (h : Allows own s) (hsb : s'.sb = s.sb) (hdisk : s'.disksize = s.disksize)
    (hout : s'.outstanding = s.outstanding) : Allows own s' :=
  ⟨by rw [OnDisk, hsb, hdisk]; exact h.disk, by rw [hout]; exact h.trans⟩

theorem Room.of_le {c c' : ℕ} (h : Room own s c) (hsb : s'.sb = s.sb)
    (hle : s'.logged.length + c' ≤ s.logged.length + c) : Room own s' c' := by
  refine h.imp_right fun h => ?_
  rw [Dev.logRoom, hsb]
  exact hle.trans h

theorem Room.mono {c c' : ℕ} (h : Room own s c) (hle : c' ≤ c) : Room own s c' :=
  h.of_le rfl (by omega)

theorem wp_stop {α : Type} {Q : α → Dev → Prop} {msg : String} (h : msg ∈ own) :
    (devLogic own).wp (stop msg) Q s := fun _ => ⟨trivial, not_not.mpr h⟩

theorem wp_bread {Q : Block → Dev → Prop} {b : UInt32} (ha : OnDisk own s) (hb : b < s.sb.size)
    (hQ : Q (s.blk b) s) : (devLogic own).wp (DevOp.bread b).perform Q s := by
  refine fun _ => ⟨trivial, ?_⟩
  change (devLogic own).Outcome _ (if _ then _ else _)
  split
  · rename_i hc
    refine not_not.mpr (ha.resolve_right fun hle => ?_)
    have := lt_iff_toNat_lt.mp hb
    omega
  · exact hQ

theorem wp_logWrite {Q : Unit → Dev → Prop} {b : UInt32} {v : Block} (ha : Allows own s)
    (hr : Room own s 1) (hQ : Q () (s.put b v)) :
    (devLogic own).wp (DevOp.logWrite b v).perform Q s := by
  refine fun _ => ⟨trivial, ?_⟩
  change (devLogic own).Outcome _ (if _ then _ else if _ then _ else _)
  split
  · rename_i hfull
    refine not_not.mpr (hr.resolve_right fun hroom => ?_)
    unfold Dev.logRoom at hroom
    rcases hfull with hfull | hfull
    · omega
    · omega
  · split
    · exact not_not.mpr (ha.trans.resolve_right (by omega))
    · exact hQ

theorem wp_sb {Q : Superblock → Dev → Prop} (hQ : Q s.sb s) :
    (devLogic own).wp DevOp.sb.perform Q s := fun _ => ⟨trivial, hQ⟩

end Rules

/-! ### Where things are -/

/-- **The parts of the disk**: the superblock, the inodes, the bitmap and the data are in
this order. -/
structure Geometry (sb : Superblock) : Prop where
  start : 2 ≤ sb.inodestart.toNat
  inodes : sb.inodestart.toNat + sb.ninodes.toNat / 8 < sb.bmapstart.toNat
  bitmap : sb.bmapstart.toNat + sb.size.toNat / 4096 < (firstData sb).toNat
  data : firstData sb ≤ sb.size
  size : sb.size.toNat < 2 ^ 31

/-- A data block that is marked in the bitmap. -/
structure Used (s : Dev) (x : UInt32) : Prop where
  lo : firstData s.sb ≤ x
  hi : x < s.sb.size
  marked : Marked s.sb s.blk x

/-- **The parts of the disk, and the marks of the blocks before the data.** -/
structure Base (s : Dev) : Prop where
  geo : Geometry s.sb
  super : Superblock.decode (s.blk 1) = s.sb
  low : ∀ x, x < firstData s.sb → Marked s.sb s.blk x

section Places

variable {sb : Superblock} {t x y : UInt32}

variable (h : Geometry sb)
include h

theorem Geometry.toNat_IBLOCK (ht : t < sb.ninodes) :
    (IBLOCK sb t).toNat = sb.inodestart.toNat + t.toNat / 8 := by
  have h1 := h.inodes
  have h2 := sb.bmapstart.toNat_lt
  have ht := lt_iff_toNat_lt.mp ht
  have hipb : IPB.toNat = 8 := rfl
  rw [IBLOCK, UInt32.toNat_add, UInt32.toNat_div, hipb]
  omega

theorem Geometry.IBLOCK_lt (ht : t < sb.ninodes) :
    IBLOCK sb t < sb.bmapstart := by
  have h1 := h.inodes
  have ht' := lt_iff_toNat_lt.mp ht
  rw [lt_iff_toNat_lt, h.toNat_IBLOCK ht]
  omega

theorem Geometry.toNat_BBLOCK (hx : x < sb.size) :
    (BBLOCK sb x).toNat = sb.bmapstart.toNat + x.toNat / 4096 := by
  have h1 := h.bitmap
  have h2 := (firstData sb).toNat_lt
  have hx := lt_iff_toNat_lt.mp hx
  have hbpb : BPB.toNat = 4096 := rfl
  rw [BBLOCK, UInt32.toNat_add, UInt32.toNat_div, hbpb]
  omega

theorem Geometry.BBLOCK_lt (hx : x < sb.size) : BBLOCK sb x < firstData sb := by
  have h1 := h.bitmap
  have hx' := lt_iff_toNat_lt.mp hx
  rw [lt_iff_toNat_lt, h.toNat_BBLOCK hx]
  omega

theorem Geometry.le_BBLOCK (hx : x < sb.size) : sb.bmapstart ≤ BBLOCK sb x := by
  rw [le_iff_toNat_le, h.toNat_BBLOCK hx]
  exact Nat.le_add_right ..

theorem Geometry.bmapstart_lt : sb.bmapstart < firstData sb := by
  have h1 := h.bitmap
  rw [lt_iff_toNat_lt]
  omega

theorem Geometry.one_lt : 1 < sb.bmapstart := by
  have h1 := h.start
  have h2 := h.inodes
  rw [lt_iff_toNat_lt]
  change 1 < _
  omega

/-- A block is determined by its place in the bitmap. -/
theorem Geometry.BBLOCK_inj (hx : x < sb.size) (hy : y < sb.size)
    (hb : BBLOCK sb y = BBLOCK sb x) (hm : y.toNat % BPB.toNat = x.toNat % BPB.toNat) : y = x := by
  have hb := congrArg UInt32.toNat hb
  rw [h.toNat_BBLOCK hx, h.toNat_BBLOCK hy] at hb
  change y.toNat % 4096 = x.toNat % 4096 at hm
  rw [← UInt32.toNat_inj]
  omega

omit h

variable {blk blk' : Disk}

theorem marked_congr (h : blk' (BBLOCK sb y) = blk (BBLOCK sb y)) :
    Marked sb blk' y ↔ Marked sb blk y := by
  rw [Marked, Marked, h]

/-- A bit is set. -/
theorem Geometry.marked_setBit (h : Geometry sb) (hx : x < sb.size) (hy : y < sb.size)
    (hblk : blk' (BBLOCK sb x) = setBit (blk (BBLOCK sb x)) (x.toNat % BPB.toNat))
    (hother : BBLOCK sb y ≠ BBLOCK sb x → blk' (BBLOCK sb y) = blk (BBLOCK sb y)) :
    Marked sb blk' y ↔ y = x ∨ Marked sb blk y := by
  by_cases hb : BBLOCK sb y = BBLOCK sb x
  · have hlt : y.toNat % BPB.toNat < 4096 := Nat.mod_lt _ (by decide)
    rw [Marked, hb, hblk, isSet_setBit _ hlt, ← hb]
    refine or_congr_left ⟨fun hm => h.BBLOCK_inj hx hy hb hm, ?_⟩
    rintro rfl
    rfl
  · rw [marked_congr (hother hb)]
    refine (or_iff_right ?_).symm
    rintro rfl
    exact hb rfl

end Places

/-! ### Allocation -/

/-- The blocks of the bitmap. -/
def bitmaps (sb : Superblock) : Finset UInt32 :=
  (Finset.range sb.size.toNat).image fun x => BBLOCK sb (UInt32.ofNat x)

/-- **The blocks of the bitmap that are yet to be written** when `r` blocks are allocated: at most
one for each of them, and none that the transaction has written. -/
def bitmapCost (s : Dev) (r : ℕ) : ℕ := min r (bitmaps s.sb \ s.logged.toFinset).card

/-- There are `k` blocks that are not in use. -/
def Spare (s : Dev) (k : ℕ) : Prop :=
  ∃ F : Finset UInt32, k ≤ F.card ∧ ∀ x ∈ F, firstData s.sb ≤ x ∧ x < s.sb.size ∧ ¬Used s x

/-- **There are `k` blocks that are not in use**, unless a lack of blocks may stop the program. -/
def Blocks (own : List String) (s : Dev) (k : ℕ) : Prop := "balloc: out of blocks" ∈ own ∨ Spare s k

/-- What stays as it was, whatever blocks are allocated. -/
structure Kept (s s' : Dev) : Prop where
  sb : s'.sb = s.sb
  disksize : s'.disksize = s.disksize
  outstanding : s'.outstanding = s.outstanding
  low : ∀ y, y < s.sb.bmapstart → s'.blk y = s.blk y
  nodup : s.logged.Nodup → s'.logged.Nodup
  logged : ∀ y ∈ s.logged, y ∈ s'.logged

/-- **A block has been taken.** -/
structure Taken (s s' : Dev) (x : UInt32) : Prop
    extends Kept s s', Fresh s.blk s'.blk (Used s) x where
  base : Base s'
  used : ∀ y, Used s' y ↔ y = x ∨ Used s y
  length : ∀ r, s'.logged.length + bitmapCost s' r ≤ s.logged.length + 1 + bitmapCost s (r + 1)
  mem : x ∈ s'.logged
  bitmap : ∃ y ∈ bitmaps s.sb, y ∈ s'.logged

section Alloc

variable {s s' : Dev} {x y b : UInt32} {v : Block}

theorem Dev.put_blk (s : Dev) (b : UInt32) (v : Block) : (s.put b v).blk b = v :=
  Function.update_self ..

theorem Dev.put_blk_of_ne (h : y ≠ b) : (s.put b v).blk y = s.blk y :=
  Function.update_of_ne h ..

theorem Dev.length_put (s : Dev) (b : UInt32) (v : Block) :
    (s.put b v).logged.length ≤ s.logged.length + 1 := by
  unfold Dev.put
  simp only
  split
  · exact Nat.le_succ _
  · rw [length_append, length_singleton]

theorem Dev.length_put_of_mem (h : b ∈ s.logged) :
    (s.put b v).logged.length = s.logged.length := congrArg List.length (if_pos h)

/-- The log has the blocks it had, and this one. -/
theorem Dev.mem_put_of (h : y ∈ s.logged ∨ y = b) :
    y ∈ (s.put b v).logged := by
  unfold Dev.put
  simp only
  split
  · rename_i hb
    rcases h with h | rfl
    · exact h
    · exact hb
  · refine mem_append.mpr (h.imp_right ?_)
    rintro rfl
    exact mem_singleton_self _

theorem Dev.nodup_put (h : s.logged.Nodup) : (s.put b v).logged.Nodup := by
  unfold Dev.put
  simp only
  split
  · exact h
  · rename_i hb
    refine List.Nodup.append h (nodup_singleton b) ?_
    rintro z hz hzb
    obtain rfl := mem_singleton.mp hzb
    exact hb hz

theorem mem_bitmaps {sb : Superblock} (hx : x < sb.size) : BBLOCK sb x ∈ bitmaps sb :=
  Finset.mem_image.mpr ⟨x.toNat, Finset.mem_range.mpr (lt_iff_toNat_lt.mp hx), by rw [UInt32.ofNat_toNat]⟩

theorem bitmapCost_mono {r r' : ℕ} (h : r ≤ r') : bitmapCost s r ≤ bitmapCost s r' :=
  min_le_min_right _ h

theorem bitmapCost_le (s : Dev) (r : ℕ) : bitmapCost s r ≤ r := min_le_left ..

/-- A block is written. -/
theorem bitmapCost_put (s : Dev) (b : UInt32) (v : Block) (r : ℕ) :
    bitmapCost (s.put b v) r ≤ bitmapCost s r := by
  refine min_le_min_left _ (Finset.card_le_card (Finset.sdiff_subset_sdiff le_rfl fun y hy => ?_))
  exact mem_toFinset.mpr (Dev.mem_put_of (.inl (mem_toFinset.mp hy)))

/-- A block of the bitmap is written. -/
theorem bitmapCost_put_bitmap (hb : b ∈ bitmaps s.sb) (r : ℕ) :
    (s.put b v).logged.length + bitmapCost (s.put b v) r ≤
      s.logged.length + bitmapCost s (r + 1) := by
  by_cases hmem : b ∈ s.logged
  · rw [Dev.length_put_of_mem hmem]
    exact Nat.add_le_add_left ((bitmapCost_put s b v r).trans (bitmapCost_mono (Nat.le_succ r))) _
  · have hlt : (bitmaps s.sb \ (s.put b v).logged.toFinset).card <
        (bitmaps s.sb \ s.logged.toFinset).card := by
      refine Finset.card_lt_card ⟨Finset.sdiff_subset_sdiff le_rfl fun y hy => ?_, fun hc => ?_⟩
      · exact mem_toFinset.mpr (Dev.mem_put_of (.inl (mem_toFinset.mp hy)))
      · have hin := hc (Finset.mem_sdiff.mpr ⟨hb, fun h => hmem (mem_toFinset.mp h)⟩)
        exact (Finset.mem_sdiff.mp hin).2 (mem_toFinset.mpr (Dev.mem_put_of (.inr rfl)))
    have hlen := Dev.length_put s b v
    change _ + min r (bitmaps s.sb \ (s.put b v).logged.toFinset).card ≤ _ + min (r + 1) _
    omega

theorem Kept.refl (s : Dev) : Kept s s := ⟨rfl, rfl, rfl, fun _ _ => rfl, id, fun _ => id⟩

theorem Kept.trans {s'' : Dev} (h : Kept s s') (h' : Kept s' s'') : Kept s s'' :=
  ⟨h'.sb.trans h.sb, h'.disksize.trans h.disksize, h'.outstanding.trans h.outstanding, fun y hy =>
    (h'.low y (by rw [h.sb]; exact hy)).trans (h.low y hy), fun h0 => h'.nodup (h.nodup h0),
    fun y hy => h'.logged y (h.logged y hy)⟩

theorem Kept.allows {own : List String} (h : Kept s s') (ha : Allows own s) : Allows own s' :=
  ha.congr h.sb h.disksize h.outstanding

theorem Used.ne_BBLOCK (h : Used s x) (hs : Base s) (hy : y < s.sb.size) : x ≠ BBLOCK s.sb y := by
  rintro rfl
  exact absurd h.lo (UInt32.not_le.mpr (hs.geo.BBLOCK_lt hy))

/-- A free block is marked and filled with zeros. -/
theorem taken_put (hs : Base s) (hx : x < s.sb.size) (hfree : ¬Marked s.sb s.blk x) :
    Taken s ((s.put (BBLOCK s.sb x)
      (setBit (s.blk (BBLOCK s.sb x)) (x.toNat % BPB.toNat))).put x fun _ => 0) x := by
  have hlo : firstData s.sb ≤ x := by
    by_contra hc
    exact hfree (hs.low x (UInt32.not_le.mp hc))
  have hbx : BBLOCK s.sb x < x := UInt32.lt_of_lt_of_le (hs.geo.BBLOCK_lt hx) hlo
  set s' := (s.put (BBLOCK s.sb x)
    (setBit (s.blk (BBLOCK s.sb x)) (x.toNat % BPB.toNat))).put x fun _ => 0 with hs'
  have hblk : ∀ y, y ≠ x → y ≠ BBLOCK s.sb x → s'.blk y = s.blk y := fun y h1 h2 => by
    rw [hs', Dev.put_blk_of_ne h1, Dev.put_blk_of_ne h2]
  have hself : s'.blk (BBLOCK s.sb x) =
      setBit (s.blk (BBLOCK s.sb x)) (x.toNat % BPB.toNat) := by
    rw [hs', Dev.put_blk_of_ne (UInt32.ne_of_lt hbx), Dev.put_blk]
  have hmarked : ∀ y, y < s.sb.size → (Marked s.sb s'.blk y ↔ y = x ∨ Marked s.sb s.blk y) := by
    intro y hy
    refine hs.geo.marked_setBit hx hy hself fun hne => hblk _ ?_ hne
    exact UInt32.ne_of_lt (UInt32.lt_of_lt_of_le (hs.geo.BBLOCK_lt hy) hlo)
  have hlow : ∀ y, y < s.sb.bmapstart → s'.blk y = s.blk y := fun y hy => by
    refine hblk y (UInt32.ne_of_lt ?_) (UInt32.ne_of_lt ?_)
    · exact UInt32.lt_trans hy (UInt32.lt_of_lt_of_le hs.geo.bmapstart_lt hlo)
    · exact UInt32.lt_of_lt_of_le hy (hs.geo.le_BBLOCK hx)
  have hbit := mem_bitmaps hx
  have hlength : ∀ r, s'.logged.length + bitmapCost s' r ≤
      s.logged.length + 1 + bitmapCost s (r + 1) := fun r => by
    have h1 := bitmapCost_put_bitmap (s := s)
      (v := setBit (s.blk (BBLOCK s.sb x)) (x.toNat % BPB.toNat)) hbit r
    refine (Nat.add_le_add (Dev.length_put ..) (bitmapCost_put ..)).trans ?_
    omega
  refine ⟨⟨rfl, rfl, rfl, hlow, fun h => Dev.nodup_put (Dev.nodup_put h), fun y hy =>
      Dev.mem_put_of (.inl (Dev.mem_put_of (.inl hy)))⟩,
    ⟨?_, fun hu => hfree hu.marked, fun y hu => ?_, Dev.put_blk ..⟩,
    ⟨hs.geo, ?_, fun y hy => ?_⟩, fun y => ⟨fun hu => ?_, ?_⟩, hlength, Dev.mem_put_of (.inr rfl),
    ⟨_, hbit, Dev.mem_put_of (.inl (Dev.mem_put_of (.inr rfl)))⟩⟩
  · rintro rfl
    exact absurd (lt_iff_toNat_lt.mp hbx) (Nat.not_lt_zero _)
  · refine hblk y ?_ (hu.ne_BBLOCK hs hx)
    rintro rfl
    exact hfree hu.marked
  · rw [hlow 1 hs.geo.one_lt]
    exact hs.super
  · have hy' : y < s.sb.size := UInt32.lt_of_lt_of_le hy hs.geo.data
    exact (hmarked y hy').mpr (.inr (hs.low y hy))
  · exact ((hmarked y hu.hi).mp hu.marked).imp_right fun hm => ⟨hu.lo, hu.hi, hm⟩
  · rintro (rfl | hu)
    · exact ⟨hlo, hx, (hmarked y hx).mpr (.inl rfl)⟩
    · exact ⟨hu.lo, hu.hi, (hmarked y hu.hi).mpr (.inr hu.marked)⟩

theorem Spare.congr {k : ℕ} (h : Spare s k) (hsb : s'.sb = s.sb) (hused : Used s' = Used s) :
    Spare s' k := by
  obtain ⟨F, hk, hF⟩ := h
  refine ⟨F, hk, ?_⟩
  rwa [hsb, hused]

/-- A block less is free. -/
theorem Taken.spare (h : Taken s s' x) {k : ℕ} (hk : Spare s (k + 1)) : Spare s' k := by
  obtain ⟨F, hcard, hF⟩ := hk
  refine ⟨F.erase x, ?_, fun y hy => ?_⟩
  · have := Finset.pred_card_le_card_erase (s := F) (a := x)
    omega
  · obtain ⟨hne, hy⟩ := Finset.mem_erase.mp hy
    obtain ⟨hlo, hhi, hu⟩ := hF y hy
    exact ⟨by rwa [h.sb], by rwa [h.sb], fun hc => ((h.used y).mp hc).elim hne hu⟩

theorem Spare.mono {k k' : ℕ} (h : Spare s k) (hle : k' ≤ k) : Spare s k' := by
  obtain ⟨F, hk, hF⟩ := h
  exact ⟨F, hle.trans hk, hF⟩

/-- When all blocks are marked, there is none left. -/
theorem Spare.exists_free {k : ℕ} (h : Spare s (k + 1)) : ∃ x, x < s.sb.size ∧ ¬Marked s.sb s.blk x := by
  obtain ⟨F, hk, hF⟩ := h
  obtain ⟨x, hx⟩ := Finset.card_pos.mp ((Nat.succ_pos k).trans_le hk)
  obtain ⟨hlo, hhi, hu⟩ := hF x hx
  exact ⟨x, hhi, fun hm => hu ⟨hlo, hhi, hm⟩⟩

theorem freeBit_eq_none {b : Block} {n bi : ℕ} (h : freeBit b n = none) (hbi : bi < n) :
    isSet b bi = true := by
  have hset := find?_eq_none.mp h bi (mem_range.mpr hbi)
  rwa [decide_eq_true_iff, Bool.not_eq_false] at hset

theorem freeBit_eq_some {b : Block} {n bi : ℕ} (h : freeBit b n = some bi) :
    bi < n ∧ isSet b bi = false := by
  have hmem := mem_of_find?_eq_some h
  have hp := find?_some h
  exact ⟨mem_range.mp hmem, of_decide_eq_true hp⟩

/-- A block of the bitmap is on the disk. -/
theorem Base.BBLOCK_lt_size (hs : Base s) (hx : x < s.sb.size) : BBLOCK s.sb x < s.sb.size :=
  UInt32.lt_of_lt_of_le (hs.geo.BBLOCK_lt hx) hs.geo.data

theorem Base.bmapstart_lt_size (hs : Base s) : s.sb.bmapstart < s.sb.size :=
  UInt32.lt_of_lt_of_le hs.geo.bmapstart_lt hs.geo.data

variable {own : List String}

/-- **`balloc`**, from some block of the bitmap on. The blocks before it are in use. -/
theorem wp_ballocLoop {Q : UInt32 → Dev → Prop} (hs : Base s) (ha : Allows own s)
    (hfree : Blocks own s 1) (hr : Room own s (1 + bitmapCost s 1))
    (hQ : ∀ x s', Taken s s' x → Q x s') : ∀ (n : ℕ) (b : UInt32), b.toNat % 4096 = 0 →
      s.sb.size.toNat < 4096 * n + b.toNat → (∀ y, y < s.sb.size → y < b → Marked s.sb s.blk y) →
      (devLogic own).wp (ballocLoop n b) Q s := by
  intro n
  have hstop : ∀ b : UInt32, s.sb.size.toNat ≤ b.toNat →
      (∀ y, y < s.sb.size → y < b → Marked s.sb s.blk y) →
      (devLogic own).wp (stop "balloc: out of blocks") Q s := by
    intro b hb hall
    refine wp_stop (hfree.resolve_right fun hspare => ?_)
    obtain ⟨x, hx, hfree⟩ := hspare.exists_free
    exact hfree (hall x hx (UInt32.lt_of_lt_of_le hx (le_iff_toNat_le.mpr hb)))
  induction n with
  | zero => exact fun b _ hn hall => hstop b (by omega) hall
  | succ n ih =>
    intro b hb hn hall
    have hsize := hs.geo.size
    refine .bind (wp_sb ?_)
    split
    · rename_i hlt
      refine .bind (wp_bread ha.disk (hs.BBLOCK_lt_size hlt) ?_)
      cases hbit : freeBit (s.blk (BBLOCK s.sb b)) (min BPB.toNat (s.sb.size.toNat - b.toNat)) with
      | none =>
        have hbpb : BPB.toNat = 4096 := rfl
        have hlt' := lt_iff_toNat_lt.mp hlt
        have hadd : (b + BPB).toNat = b.toNat + 4096 := by
          rw [UInt32.toNat_add, hbpb]
          omega
        refine ih (b + BPB) (by omega) (by omega) fun y hy hyb => ?_
        by_cases hyb' : y < b
        · exact hall y hy hyb'
        · rw [UInt32.not_lt, le_iff_toNat_le] at hyb'
          have hy' := lt_iff_toNat_lt.mp hy
          have hyb := lt_iff_toNat_lt.mp hyb
          have hsame : BBLOCK s.sb y = BBLOCK s.sb b := by
            rw [← UInt32.toNat_inj, hs.geo.toNat_BBLOCK hy, hs.geo.toNat_BBLOCK hlt]
            omega
          rw [Marked, hsame]
          exact freeBit_eq_none hbit (by rw [hbpb]; omega)
      | some bi =>
        obtain ⟨hbi, hclear⟩ := freeBit_eq_some hbit
        have hbpb : BPB.toNat = 4096 := rfl
        rw [hbpb] at hbi
        have hx : (b + UInt32.ofNat bi).toNat = b.toNat + bi := by
          rw [UInt32.toNat_add, toNat_ofNat']
          omega
        have hxlt : b + UInt32.ofNat bi < s.sb.size := by
          rw [lt_iff_toNat_lt, hx]
          omega
        have hbb : BBLOCK s.sb b = BBLOCK s.sb (b + UInt32.ofNat bi) := by
          rw [← UInt32.toNat_inj, hs.geo.toNat_BBLOCK hlt, hs.geo.toNat_BBLOCK hxlt, hx]
          omega
        have hmod : (b + UInt32.ofNat bi).toNat % BPB.toNat = bi := by
          rw [hx, hbpb]
          omega
        have htaken := taken_put hs hxlt (by
          rw [Marked, ← hbb, hmod, hclear]
          decide)
        rw [← hbb, hmod] at htaken
        have hlength := bitmapCost_put_bitmap (v := setBit (s.blk (BBLOCK s.sb b)) bi)
          (mem_bitmaps hlt) 0
        rw [Nat.zero_add] at hlength
        refine .bind (wp_logWrite ha (hr.mono (Nat.le_add_right ..)) (.bind (.bind ?_)))
        exact wp_bread ha.disk hxlt (wp_logWrite (ha.congr rfl rfl rfl)
          (hr.of_le rfl (by omega)) (hQ _ _ htaken))
    · rename_i hge
      exact hstop b (le_iff_toNat_le.mp (UInt32.not_lt.mp hge)) hall

theorem wp_balloc {Q : UInt32 → Dev → Prop} (hs : Base s) (ha : Allows own s)
    (hfree : Blocks own s 1) (hr : Room own s (1 + bitmapCost s 1))
    (hQ : ∀ x s', Taken s s' x → Q x s') : (devLogic own).wp balloc Q s :=
  .bind (wp_sb (wp_ballocLoop hs ha hfree hr hQ _ 0 rfl (by
    change _ < 4096 * (_ / 4096 + 1) + 0
    omega) fun y _ hy => absurd (lt_iff_toNat_lt.mp hy) (Nat.not_lt_zero _)))

end Alloc

end Xv6.Blk
