import Xv6.Blk.Bitmap
import Xv6.Blk.Write

/-!
# Rules for the contents of an inode

What `bmap` does for an inode that has the blocks for its contents: it finds the block,
or the inode gets the next one (`Xv6.Blk.wp_bmap`). `readi` finds all the blocks it
looks for, and so allocates none (`Xv6.Blk.wp_readLoop`); `writei` writes the bytes
where they belong (`Xv6.Blk.wp_writeLoop`).

The inode is given by its block numbers in memory, which may be newer than those on the
disk.
-/

namespace Xv6.Blk

open Lib Function Fs List

/-- The block with the numbers is not exchanged. -/
def SameIndirect (a a' : Addrs) : Prop := addr a NDIRECT ≠ 0 → addr a' NDIRECT = addr a NDIRECT

/-- The number of blocks that `n` bytes at an offset lie in. -/
def blocksAt (off n : ℕ) : ℕ := if n = 0 then 0 else blocksFor (off % BSIZE + n)

/-- Whether the block with the numbers is yet to be allocated. -/
def indirectNew (a : Addrs) : ℕ := if addr a NDIRECT = 0 then 1 else 0

/-- Whether the block with the numbers is yet to be written. -/
def indirectCost (s : Dev) (a : Addrs) : ℕ :=
  if addr a NDIRECT ≠ 0 ∧ addr a NDIRECT ∈ s.logged then 0 else 1

/-- The number of blocks that are allocated for an inode to get from `m` blocks to `e`. -/
def newBlocks (a : Addrs) (m e : ℕ) : ℕ :=
  e - m + if m < e ∧ NDIRECT < e then indirectNew a else 0

/-- **The blocks that are yet to be written beside the data** for this: those of the bitmap, and the
block with the numbers. -/
def growCost (s : Dev) (a : Addrs) (m e : ℕ) : ℕ :=
  bitmapCost s (newBlocks a m e) + if m < e ∧ NDIRECT < e then indirectCost s a else 0

/-- **An inode that had `m` blocks has `m'` now**, and `c` blocks have been written beside those of
`Xv6.Blk.growCost`. -/
structure Growth (s s' : Dev) (a a' : Addrs) (m m' c : ℕ) : Prop where
  kept : Kept s s'
  base : Base s'
  same : m' ≤ m → a' = a
  old : ∀ k, k < m → slot s'.blk a' k = slot s.blk a k
  indirect : SameIndirect a a'
  length : ∀ e, m' ≤ e →
    s'.logged.length + growCost s' a' m' e ≤ s.logged.length + c + growCost s a m e
  spare : ∀ e, m' ≤ e → Spare s (newBlocks a m e) → Spare s' (newBlocks a' m' e)
  new : m < m' → (∃ y ∈ bitmaps s.sb, y ∈ s'.logged) ∧ (NDIRECT < m' → addr a' NDIRECT ∈ s'.logged)

/-- **What `bmap` ends with**, for the block with index `n` of an inode that had `m`. -/
structure Mapped (A : UInt32 → Option Addrs) (t : UInt32) (s s' : Dev) (a a' : Addrs) (n m : ℕ)
    (x : UInt32) : Prop extends Growth s s' a a' m (max m (n + 1)) (if n < m then 0 else 1) where
  found : Found s.blk s'.blk A t a a' (Used s') n m x
  mem : ¬n < m → x ∈ s'.logged

/-- **What a write ends with**, for an inode that had `m` blocks. -/
structure Stored (A : UInt32 → Option Addrs) (t : UInt32) (s s' : Dev) (a a' : Addrs) (m off : ℕ)
    (src : Str) : Prop extends
    Growth s s' a a' m (max m (blocksFor (off + src.length))) (blocksAt off src.length) where
  patched : Patched s.blk s'.blk A t a a' (Used s') m (max m (blocksFor (off + src.length))) off src
  mem : ∀ j, off ≤ j → j < off + src.length → slot s'.blk a' (j / BSIZE) ∈ s'.logged

section Bmap

variable {own : List String} {s s' s'' : Dev} {A : UInt32 → Option Addrs} {t x : UInt32}
  {a a' : Addrs} {n m e : ℕ}

theorem SameIndirect.trans {a'' : Addrs} (h : SameIndirect a a') (h' : SameIndirect a' a'') :
    SameIndirect a a'' := fun hne => by
  rw [h' (by rw [h hne]; exact hne), h hne]

theorem indirectCost_of_mem (h0 : addr a NDIRECT ≠ 0) (h : addr a NDIRECT ∈ s.logged) :
    indirectCost s a = 0 := if_pos ⟨h0, h⟩

/-- The block with the numbers costs no more after other blocks have been written. -/
theorem indirectCost_le (h : ∀ y ∈ s.logged, y ∈ s'.logged) (ha : addr a' NDIRECT = addr a NDIRECT) :
    indirectCost s' a' ≤ indirectCost s a := by
  unfold indirectCost
  rw [ha]
  split
  · exact Nat.zero_le _
  · rename_i hc
    rw [if_neg fun hmem => hc ⟨hmem.1, h _ hmem.2⟩]

theorem newBlocks_mono {e' : ℕ} (h : e ≤ e') : newBlocks a m e ≤ newBlocks a m e' := by
  unfold newBlocks
  split_ifs <;> omega

theorem growCost_mono {e' : ℕ} (h : e ≤ e') : growCost s a m e ≤ growCost s a m e' := by
  have hbit : bitmapCost s (newBlocks a m e) ≤ bitmapCost s (newBlocks a m e') :=
    bitmapCost_mono (newBlocks_mono h)
  unfold growCost
  split_ifs <;> omega

theorem growCost_of_le (s : Dev) (a : Addrs) (h : e ≤ m) : growCost s a m e = 0 := by
  rw [growCost, newBlocks, if_neg (by omega), if_neg (by omega), Nat.sub_eq_zero_of_le h]
  exact Nat.le_zero.mp (bitmapCost_le s 0)

theorem growCost_put (s : Dev) (a : Addrs) (m e : ℕ) (b : UInt32) (v : Block) :
    growCost (s.put b v) a m e ≤ growCost s a m e := by
  have hbit := bitmapCost_put s b v (newBlocks a m e)
  have hind : indirectCost (s.put b v) a ≤ indirectCost s a :=
    indirectCost_le (fun y hy => Dev.mem_put_of (.inl hy)) rfl
  unfold growCost
  split_ifs <;> omega

theorem Growth.refl (hs : Base s) (a : Addrs) (m : ℕ) : Growth s s a a m m 0 :=
  ⟨.refl s, hs, fun _ => rfl, fun _ _ => rfl, fun _ => rfl, fun _ _ => le_rfl, fun _ _ => id,
    fun hc => absurd hc (lt_irrefl m)⟩

/-- A block that the inode has already. -/
theorem Mapped.self (hs : Base s) (h : Alloc (refs s.blk A) (Used s)) (hA : A t = some a)
    (hf : Full s.blk a m) (hn : n < m) : Mapped A t s s a a n m (slot s.blk a n) := by
  refine ⟨?_, .self h hA hf hn, fun hc => absurd hn hc⟩
  rw [max_eq_left hn, if_pos hn]
  exact .refl hs a m

/-- A block that the inode did not have. -/
theorem Mapped.of_growth (h : Growth s s' a a' n (n + 1) 1)
    (hf : Found s.blk s'.blk A t a a' (Used s') n n x) (hx : x ∈ s'.logged) :
    Mapped A t s s' a a' n n x := by
  refine ⟨?_, hf, fun _ => hx⟩
  rwa [max_eq_right (Nat.le_add_right n 1), if_neg (lt_irrefl n)]

/-- The blocks in use after one has been taken. -/
theorem Taken.used_eq (h : Taken s s' x) : (fun y => y = x ∨ Used s y) = Used s' :=
  funext fun y => propext (h.used y).symm

/-- What the first part of `bmap` ends with. -/
theorem wp_bmapIndirect {Q : Addrs → Dev → Prop} (hs : Base s) (ha : Allows own s)
    (hfree : Blocks own s (indirectNew a))
    (hr : Room own s (indirectCost s a + bitmapCost s (indirectNew a)))
    (h : Alloc (refs s.blk A) (Used s)) (hA : A t = some a)
    (hQ : ∀ a' s', Kept s s' → Base s' → Indirect s.blk s'.blk A t a a' (Used s) (Used s') →
      SameIndirect a a' → (∀ r, s'.logged.length + bitmapCost s' r + indirectCost s' a' ≤
        s.logged.length + bitmapCost s (r + indirectNew a) + indirectCost s a) →
      (∀ k, Spare s (k + indirectNew a) → Spare s' k) → Q a' s') :
    (devLogic own).wp (bmapIndirect a) Q s := by
  unfold bmapIndirect
  split
  · rename_i h0
    have hnew : indirectNew a = 1 := if_pos h0
    have hcost : indirectCost s a = 1 := if_neg fun hc => hc.1 h0
    rw [hcost, hnew] at hr
    rw [hnew] at hfree
    refine .bind (wp_balloc hs ha hfree hr fun x s' ht => ?_)
    have hind : Indirect s.blk s'.blk A t a _ (Used s) _ :=
      indirect_new h hA h0 ht.toFresh
    rw [ht.used_eq] at hind
    have haddr : addr (setAddr a NDIRECT x) NDIRECT = x := by
      rw [addr_setAddr le_rfl le_rfl, if_pos rfl]
    refine hQ _ _ ht.toKept ht.base hind (fun hc => absurd h0 hc) (fun r => ?_) fun k hk =>
      ht.spare (hnew ▸ hk)
    have hlength := ht.length r
    rw [hcost, hnew, indirectCost_of_mem (by rw [haddr]; exact ht.ne) (by rw [haddr]; exact ht.mem)]
    omega
  · rename_i hne
    have hnew : indirectNew a = 0 := if_neg hne
    refine hQ _ _ (.refl s) hs (indirect_self h hA hne) (fun _ => rfl) (fun r => ?_) fun k hk => ?_
    · rw [hnew, Nat.add_zero]
    · rwa [hnew] at hk

/-- A block that is in use lies after the bitmap, and so is not read by what looks at the
other blocks. -/
theorem Base.put (hs : Base s) (hx : Used s x) (v : Block) : Base (s.put x v) ∧
    Kept s (s.put x v) ∧ Used (s.put x v) = Used s := by
  have hother : ∀ y, y < firstData s.sb → (s.put x v).blk y = s.blk y := fun y hy =>
    Dev.put_blk_of_ne (UInt32.ne_of_lt (UInt32.lt_of_lt_of_le hy hx.lo))
  have hmarked : ∀ y, y < s.sb.size → (Marked s.sb (s.put x v).blk y ↔ Marked s.sb s.blk y) :=
    fun y hy => marked_congr (hother _ (hs.geo.BBLOCK_lt hy))
  refine ⟨⟨hs.geo, ?_, fun y hy => ?_⟩, ⟨rfl, rfl, rfl, fun y hy => ?_, Dev.nodup_put,
    fun y hy => Dev.mem_put_of (.inl hy)⟩, ?_⟩
  · rw [hother 1 (UInt32.lt_trans hs.geo.one_lt hs.geo.bmapstart_lt)]
    exact hs.super
  · exact (hmarked y (UInt32.lt_of_lt_of_le hy hs.geo.data)).mpr (hs.low y hy)
  · exact hother y (UInt32.lt_trans hy hs.geo.bmapstart_lt)
  · refine funext fun y => propext ⟨fun hu => ?_, fun hu => ?_⟩
    · exact ⟨hu.lo, hu.hi, (hmarked y hu.hi).mp hu.marked⟩
    · exact ⟨hu.lo, hu.hi, (hmarked y hu.hi).mpr hu.marked⟩

/-- `bmap` of a block that the inode has. -/
theorem wp_bmap_self {Q : Addrs × UInt32 → Dev → Prop} (ha : OnDisk own s)
    (h : Alloc (refs s.blk A) (Used s)) (hA : A t = some a) (hf : Full s.blk a m) (hn : n < m)
    (hQ : Q (a, slot s.blk a n) s) : (devLogic own).wp (bmap a n) Q s := by
  have hmax := hn.trans_le hf.le
  have hslot := (hf.data n hmax).mpr hn
  unfold bmap
  split
  · rename_i hdirect
    rw [slot_direct hdirect] at hslot hQ
    rwa [if_neg hslot]
  · rename_i hind
    have hind : NDIRECT ≤ n := not_lt.mp hind
    have hne : addr a NDIRECT ≠ 0 := hf.indirect.mpr (by omega)
    have hstep : bmapIndirect a = (pure a : DevM Addrs) := if_neg hne
    rw [if_pos (by unfold MAXFILE at hmax; omega), hstep, Prog.pure_bind]
    refine .bind (wp_bread ha (used_indirect h hA hne).hi ?_)
    rw [slot_indirect hind hmax hne] at hslot hQ
    rwa [if_neg hslot]

/-- **`bmap`**: the block is there, or it is allocated now. -/
theorem wp_bmap {Q : Addrs × UInt32 → Dev → Prop} (hs : Base s) (ha : Allows own s)
    (hfree : ¬n < m → Blocks own s (newBlocks a m (n + 1)))
    (hr : ¬n < m → Room own s (growCost s a m (n + 1) + 2)) (h : Alloc (refs s.blk A) (Used s))
    (hA : A t = some a) (hf : Full s.blk a m) (hn : n < MAXFILE) (hnm : n ≤ m)
    (hQ : ∀ a' x s', Mapped A t s s' a a' n m x → Q (a', x) s') :
    (devLogic own).wp (bmap a n) Q s := by
  by_cases hlt : n < m
  · exact wp_bmap_self ha.disk h hA hf hlt (hQ _ _ _ (.self hs h hA hf hlt))
  obtain rfl : n = m := le_antisymm hnm (not_lt.mp hlt)
  have hr := hr hlt
  have hfree := hfree hlt
  have h0 := hf.slot_self hn
  unfold bmap
  split
  · rename_i hdirect
    rw [slot_direct hdirect] at h0
    rw [if_pos h0]
    have hnew : newBlocks a n (n + 1) = 1 := by
      rw [newBlocks, if_neg (by omega), Nat.add_sub_cancel_left]
    have hgrow : growCost s a n (n + 1) = bitmapCost s 1 := by
      rw [growCost, hnew, if_neg (by omega)]
      rfl
    refine .bind (wp_balloc hs ha (hnew ▸ hfree) (hr.mono (by omega)) fun x s' ht => hQ _ _ _ ?_)
    have hg : Grown s.blk s'.blk A t a _ (Used s) _ n x :=
      grown_direct h hA hdirect hf ht.toFresh
    rw [ht.used_eq] at hg
    have haddr : addr (setAddr a n x) NDIRECT = addr a NDIRECT := by
      rw [addr_setAddr le_rfl hdirect.le, if_neg (by omega)]
    have hmore : ∀ e, n + 1 ≤ e → newBlocks a n e = newBlocks (setAddr a n x) (n + 1) e + 1 := by
      intro e he
      rw [newBlocks, newBlocks, indirectNew, indirectNew, haddr]
      split_ifs <;> omega
    refine .of_growth ⟨ht.toKept, ht.base, fun hc => absurd hc (by omega), hg.old, fun _ => haddr,
      fun e he => ?_, fun e he hk => ht.spare (hmore e he ▸ hk), fun _ => ⟨ht.bitmap, fun hc => ?_⟩⟩
      (.of_grown hg h hA hf) ht.mem
    · have hcost := indirectCost_le ht.logged haddr
      have hlen := ht.length (newBlocks (setAddr a n x) (n + 1) e)
      rw [← hmore e he] at hlen
      rw [growCost, growCost]
      split_ifs <;> omega
    · omega
  · rename_i hind
    have hind : NDIRECT ≤ n := not_lt.mp hind
    have hnew : ∀ e, n + 1 ≤ e → newBlocks a n e = e - (n + 1) + 1 + indirectNew a := fun e he => by
      rw [newBlocks, if_pos (by omega)]
      omega
    have hone := hnew (n + 1) le_rfl
    rw [Nat.sub_self, Nat.zero_add] at hone
    have hgrow : growCost s a n (n + 1) = bitmapCost s (1 + indirectNew a) + indirectCost s a := by
      rw [growCost, hone, if_pos (by omega)]
    rw [hgrow] at hr
    rw [hone] at hfree
    have hle : bitmapCost s (indirectNew a) ≤ bitmapCost s (1 + indirectNew a) :=
      bitmapCost_mono (by omega)
    rw [if_pos (by unfold MAXFILE at hn; omega)]
    refine .bind (wp_bmapIndirect hs ha (hfree.imp_right fun hf => hf.mono (by omega))
      (hr.mono (by omega)) h hA fun a₁ s₁ hkept hbase hi hsame hlen₁ hspare₁ =>
        .bind (wp_bread (hkept.allows ha).disk hi.used_self.hi ?_))
    have hentry : (s₁.blk (addr a₁ NDIRECT)).get32 (4 * (n - NDIRECT)) = 0 := by
      rwa [← slot_indirect hind hn hi.ne, hi.data n hn]
    rw [if_pos hentry]
    refine .bind (wp_balloc hbase (hkept.allows ha) (hfree.imp_right (hspare₁ 1))
      (hr.of_le hkept.sb (by have := hlen₁ 1; omega)) fun x s₂ ht => ?_)
    have hkept₂ := hkept.trans ht.toKept
    have hlen₂ := ht.length
    refine .bind (wp_logWrite (hkept₂.allows ha)
      (hr.of_le hkept₂.sb ?_) (hQ _ _ _ ?_))
    · have h1 := hlen₁ 1
      have h2 : _ ≤ s₁.logged.length + 1 + bitmapCost s₁ 1 := hlen₂ 0
      omega
    set v := (s₁.blk (addr a₁ NDIRECT)).set32 (4 * (n - NDIRECT)) x with hv
    have hused₂ : Used s₂ (addr a₁ NDIRECT) := (ht.used _).mpr (.inr hi.used_self)
    obtain ⟨hbase₃, hkept₃, hused₃⟩ := ht.base.put hused₂ v
    have hne : x ≠ addr a₁ NDIRECT := by
      rintro rfl
      exact ht.fresh hi.used_self
    have hg := hi.grown hf hind hn ht.ne ht.fresh (Dev.put_blk s₂ ..) (fun y hy hyx => by
      rw [Dev.put_blk_of_ne hyx, ht.keep y hy]) (by rw [Dev.put_blk_of_ne hne, ht.zero])
    rw [ht.used_eq, ← hv, ← hused₃] at hg
    have hnew₁ : ∀ e, newBlocks a₁ (n + 1) e = e - (n + 1) := fun e => by
      rw [newBlocks, indirectNew, if_neg hi.ne, ite_self, Nat.add_zero]
    have hmem : addr a₁ NDIRECT ∈ (s₂.put (addr a₁ NDIRECT) v).logged := Dev.mem_put_of (.inr rfl)
    refine .of_growth ⟨hkept₂.trans hkept₃, hbase₃, fun hc => absurd hc (by omega), hg.old,
      hsame, fun e he => ?_, fun e he hk => ?_, fun _ => ⟨?_, fun _ => hmem⟩⟩ (.of_grown hg h hA hf)
      (hkept₃.logged _ ht.mem)
    · -- the block with the numbers has been written, now or before
      have hput : ∀ r, (s₂.put (addr a₁ NDIRECT) v).logged.length +
          bitmapCost (s₂.put (addr a₁ NDIRECT) v) r ≤
          s.logged.length + bitmapCost s (r + 1 + indirectNew a) + indirectCost s a + 1 := by
        intro r
        have h1 := hlen₁ (r + 1)
        have h2 := hlen₂ r
        have h3 := indirectCost_le (a := a₁) ht.logged rfl
        refine (Nat.add_le_add_left (bitmapCost_put ..) _).trans ?_
        by_cases hin : addr a₁ NDIRECT ∈ s₂.logged
        · rw [Dev.length_put_of_mem hin]
          omega
        · have hone : indirectCost s₂ a₁ = 1 := if_neg fun hc => hin hc.2
          have := Dev.length_put s₂ (addr a₁ NDIRECT) v
          omega
      have h0 := hput (e - (n + 1))
      rw [growCost, growCost, hnew₁, hnew e he, indirectCost_of_mem hi.ne hmem, ite_self,
        if_pos (by omega)]
      omega
    · rw [hnew₁]
      rw [hnew e he] at hk
      exact (ht.spare (hspare₁ _ hk)).congr rfl hused₃
    · obtain ⟨y, hy, hlog⟩ := ht.bitmap
      exact ⟨y, hkept.sb ▸ hy, hkept₃.logged _ hlog⟩

end Bmap

/-! ### Reading -/

section Loops

variable {own : List String} {s s' s'' : Dev} {A : UInt32 → Option Addrs} {t x : UInt32}
  {a a' : Addrs} {m off : ℕ}

/-- **The loop of `readi`**: it allocates nothing and gets the bytes. -/
theorem wp_readLoop {Q : Addrs × Str → Dev → Prop} (ha : OnDisk own s)
    (h : Alloc (refs s.blk A) (Used s)) (hA : A t = some a) (hf : Full s.blk a m) :
    ∀ (k off n : ℕ), n ≤ k → off + n ≤ m * BSIZE → Q (a, bytes (content s.blk a) off n) s →
      (devLogic own).wp (readLoop k a off n) Q s := by
  intro k
  induction k generalizing Q with
  | zero =>
    intro off n hk _ hQ
    obtain rfl : n = 0 := Nat.le_zero.mp hk
    exact hQ
  | succ k ih =>
    intro off n hk hoff hQ
    unfold readLoop
    by_cases hn : n = 0
    · rw [if_pos hn]
      subst hn
      exact hQ
    · rw [if_neg hn]
      have hblock : off / BSIZE < m := by
        unfold BSIZE at *
        omega
      have hmax := hblock.trans_le hf.le
      have hused := used_slot h hA hmax.le ((hf.data _ hmax).mpr hblock)
      refine .bind (wp_bmap_self ha h hA hf hblock (.bind
        (wp_bread ha hused.hi (.bind (ih _ _ ?_ (by omega) ?_)))))
      · have : off % BSIZE < BSIZE := Nat.mod_lt _ (by decide)
        omega
      have hbytes : (List.range (min n (BSIZE - off % BSIZE))).map
          (fun i => (s.blk (slot s.blk a (off / BSIZE))).byte (off % BSIZE + i)) =
            bytes (content s.blk a) off (min n (BSIZE - off % BSIZE)) := by
        refine map_congr_left fun i hi => ?_
        have hi := mem_range.mp hi
        have hdiv : (off + i) / BSIZE = off / BSIZE := by
          unfold BSIZE at *
          omega
        have hmod : (off + i) % BSIZE = off % BSIZE + i := by
          unfold BSIZE at *
          omega
        rw [content, hdiv, hmod]
      change Q (a, _ ++ _) s
      rwa [hbytes, bytes_append, Nat.add_sub_cancel' (min_le_left ..)]

/-! ### Writing -/

/-- Nothing is written. -/
theorem Stored.refl (hs : Base s) (h : Alloc (refs s.blk A) (Used s)) (hA : A t = some a)
    (hf : Full s.blk a m) (hoff : blocksFor off ≤ m) :
    Stored A t s s a a m off [] := by
  have hmax : max m (blocksFor (off + ([] : Str).length)) = m := max_eq_left hoff
  refine ⟨?_, ?_, fun j h1 h2 => absurd h2 (not_lt.mpr h1)⟩
  · rw [hmax]
    exact .refl hs a m
  · rw [hmax]
    exact .refl h hA hf off

/-- **One block of a write.** -/
theorem Mapped.stored {q : Str} (h : Mapped A t s s' a a' (off / BSIZE) m x)
    (hoff : off / BSIZE ≤ m) (hq : 0 < q.length) (hlen : q.length ≤ BSIZE - off % BSIZE) :
    Stored A t s (s'.put x ((s'.blk x).patch (off % BSIZE) q.length fun k => q.getD k 0)) a a' m
      off q := by
  set v := (s'.blk x).patch (off % BSIZE) q.length fun k => q.getD k 0
  obtain ⟨hbase, hkept, hused⟩ := h.base.put h.found.used_self.2 v
  have hblocks : blocksFor (off + q.length) = off / BSIZE + 1 := by
    unfold blocksFor BSIZE at *
    omega
  have hone : blocksAt off q.length = 1 := by
    rw [blocksAt, if_neg (by omega)]
    unfold blocksFor BSIZE at *
    omega
  -- writing a data block does not change the numbers
  have hslot : ∀ k, slot (s'.put x v).blk a' k = slot s'.blk a' k := fun k =>
    slot_congr fun _ => Dev.put_blk_of_ne fun hc => by
      have hmax : off / BSIZE < MAXFILE := by
        have := h.found.full.le
        omega
      refine slot_ne_indirect h.found.alloc (update_self ..) (update_self ..) hmax ?_ ?_
      · rw [h.found.slot]
        exact h.found.used_self.1
      · rw [h.found.slot, hc]
  refine ⟨?_, ?_, fun j h1 h2 => ?_⟩
  · rw [hblocks, hone]
    refine ⟨h.kept.trans hkept, hbase, h.same, fun k hk => (hslot k).trans (h.old k hk), h.indirect,
      fun e he => ?_, fun e he hk => (h.spare e he hk).congr rfl hused, fun hlt => ?_⟩
    · have hlength := h.length e he
      refine (Nat.add_le_add_left (growCost_put ..) _).trans ?_
      by_cases hlt : off / BSIZE < m
      · have := Dev.length_put s' x v
        rw [if_pos hlt] at hlength
        omega
      · -- a new block has been written already, to fill it with zeros
        rw [Dev.length_put_of_mem (h.mem hlt)]
        rwa [if_neg hlt] at hlength
    · obtain ⟨⟨y, hy, hlog⟩, hind⟩ := h.new hlt
      exact ⟨⟨y, hy, hkept.logged _ hlog⟩, fun hc => hkept.logged _ (hind hc)⟩
  · rw [hblocks, hused]
    exact h.found.patched hoff rfl hlen (Dev.put_blk ..) fun y _ hy => Dev.put_blk_of_ne hy
  · have hj : j / BSIZE = off / BSIZE := by
      unfold BSIZE at *
      omega
    rw [hslot, hj, h.found.slot]
    exact Dev.mem_put_of (.inr rfl)

/-- The blocks of a write in two parts. -/
theorem blocksAt_add {n k : ℕ} (h : (off + n) % BSIZE = 0 ∨ k = 0) :
    blocksAt off n + blocksAt (off + n) k ≤ blocksAt off (n + k) := by
  rcases h with h | rfl
  · unfold blocksAt blocksFor BSIZE at *
    split <;> split <;> split <;> omega
  · exact le_rfl

theorem Growth.trans {a'' : Addrs} {m' m'' c c' d : ℕ} (h : Growth s s' a a' m m' c)
    (h' : Growth s' s'' a' a'' m' m'' c') (hf : Full s'.blk a' m') (hm : m ≤ m') (hm' : m' ≤ m'')
    (hc : c + c' ≤ d) : Growth s s'' a a'' m m'' d := by
  refine ⟨h.kept.trans h'.kept, h'.base, fun hle => ?_, fun k hk => ?_,
    h.indirect.trans h'.indirect, fun e he => ?_, fun e he hk => ?_, fun hlt => ?_⟩
  · exact (h'.same (by omega)).trans (h.same (by omega))
  · exact (h'.old k (hk.trans_le hm)).trans (h.old k hk)
  · have h1 := h.length e (by omega)
    have h2 := h'.length e he
    omega
  · exact h'.spare e he (h.spare e (by omega) hk)
  · by_cases hq : m < m'
    · obtain ⟨⟨y, hy, hlog⟩, hind⟩ := h.new hq
      refine ⟨⟨y, hy, h'.kept.logged _ hlog⟩, fun hc => ?_⟩
      by_cases hqi : NDIRECT < m'
      · rw [h'.indirect (hf.indirect.mpr hqi)]
        exact h'.kept.logged _ (hind hqi)
      · exact (h'.new (by omega)).2 hc
    · have hnew := h'.new (by omega)
      rwa [h.kept.sb] at hnew

/-- **A write of several blocks.** -/
theorem Stored.trans {q r : Str} {a'' : Addrs} (h : Stored A t s s' a a' m off q)
    (h' : Stored (update A t (some a')) t s' s'' a' a'' (max m (blocksFor (off + q.length)))
      (off + q.length) r)
    (hq : (off + q.length) % BSIZE = 0 ∨ r.length = 0) :
    Stored A t s s'' a a'' m off (q ++ r) := by
  have hlen : off + (q ++ r).length = off + q.length + r.length := by
    rw [length_append, Nat.add_assoc]
  have hmono : blocksFor (off + q.length) ≤ blocksFor (off + q.length + r.length) :=
    Nat.div_le_div_right (by omega)
  have hblocks := blocksAt_add hq
  rw [← length_append] at hblocks
  have hmax : max (max m (blocksFor (off + q.length)))
      (blocksFor (off + q.length + r.length)) = max m (blocksFor (off + (q ++ r).length)) := by
    rw [hlen]
    omega
  refine ⟨?_, ?_, fun j h1 h2 => ?_⟩
  · rw [← hmax]
    exact h.toGrowth.trans h'.toGrowth h.patched.full (le_max_left ..) (le_max_left ..) hblocks
  · rw [← hmax]
    exact h.patched.trans h'.patched
  · rw [hlen] at h2
    by_cases hj : j < off + q.length
    · rw [h'.old _ (lt_of_lt_of_le (lt_blocksFor hj) (le_max_right ..))]
      exact h'.kept.logged _ (h.mem j h1 hj)
    · exact h'.mem j (by omega) h2

/-- **The loop of `writei`.** -/
theorem wp_writeLoop {Q : Addrs → Dev → Prop} {g : ℕ} : ∀ (k : ℕ) {s : Dev} {A : UInt32 → Option Addrs}
    {a : Addrs} {m off : ℕ} {src : Str}, Base s → Allows own s →
      Blocks own s (newBlocks a m (blocksFor (off + src.length))) →
      (m < blocksFor (off + src.length) → 1 ≤ g) →
      Room own s (blocksAt off src.length + growCost s a m (blocksFor (off + src.length)) + g) →
      Alloc (refs s.blk A) (Used s) → A t = some a → Full s.blk a m → blocksFor off ≤ m →
      src.length ≤ k → off + src.length ≤ MAXFILE * BSIZE →
      (∀ a' s', Stored A t s s' a a' m off src → Q a' s') →
      (devLogic own).wp (writeLoop k a off src) Q s := by
  intro k
  induction k with
  | zero =>
    intro s A a m off src hs _ _ _ _ h hA hf hoff hk _ hQ
    obtain rfl := length_eq_zero_iff.mp (Nat.le_zero.mp hk)
    exact hQ _ _ (.refl hs h hA hf hoff)
  | succ k ih =>
    intro s A a m off src hs ha hfree hg hr h hA hf hoff hk hmax hQ
    unfold writeLoop
    by_cases hsrc : src = []
    · rw [if_pos hsrc]
      subst hsrc
      exact hQ _ _ (.refl hs h hA hf hoff)
    · rw [if_neg hsrc]
      have hpos := length_pos_iff.mpr hsrc
      have hn : off / BSIZE < MAXFILE := by
        unfold BSIZE at *
        omega
      have hle : off / BSIZE ≤ m := by
        unfold blocksFor BSIZE at *
        omega
      set n₁ := min src.length (BSIZE - off % BSIZE) with hn₁
      have hlt : off % BSIZE < BSIZE := Nat.mod_lt _ (by decide)
      have htake : (src.take n₁).length = n₁ := by
        rw [length_take]
        omega
      have hdrop : (src.drop n₁).length = src.length - n₁ := length_drop
      have halign : (off + n₁) % BSIZE = 0 ∨ src.length - n₁ = 0 := by
        unfold BSIZE at *
        omega
      have hblocks := blocksAt_add halign
      rw [Nat.add_sub_cancel' (min_le_left ..)] at hblocks
      have hone : blocksAt off n₁ = 1 := by
        rw [blocksAt, if_neg (by omega)]
        unfold blocksFor BSIZE at *
        omega
      have hnew : off / BSIZE + 1 ≤ blocksFor (off + src.length) := by
        unfold blocksFor BSIZE at *
        omega
      have hgrow : growCost s a m (off / BSIZE + 1) ≤ growCost s a m (blocksFor (off + src.length)) :=
        growCost_mono hnew
      refine .bind (wp_bmap hs ha (fun hc => hfree.imp_right fun hs => hs.mono (newBlocks_mono hnew))
        (fun hc => hr.mono ?_) h hA hf hn hle fun a₁ x s₁ hmap => ?_)
      · have := hg (by omega)
        omega
      have hstored := hmap.stored (q := src.take n₁) hle (by omega) (by omega)
      have hlen₁ := hmap.length _ le_rfl
      have hroom : Room own s₁ 1 := by
        refine hr.of_le hmap.kept.sb ?_
        split at hlen₁
        · rename_i hc
          rw [max_eq_left hc, growCost_of_le _ _ le_rfl, growCost_of_le _ _ le_rfl] at hlen₁
          omega
        · rename_i hc
          have := hg (by omega)
          rw [max_eq_right (by omega), growCost_of_le _ _ le_rfl] at hlen₁
          omega
      refine .bind (wp_bread (hmap.kept.allows ha).disk hmap.found.used_self.2.hi
        (.bind (wp_logWrite (hmap.kept.allows ha) hroom ?_)))
      rw [Bytes.patch_take _ _ (min_le_left ..), ← hn₁]
      have hoff₁ : off + n₁ + (src.length - n₁) = off + src.length := by omega
      refine ih hstored.base (hstored.kept.allows ha) (hfree.imp_right fun hs => ?_)
        (fun hc => hg ?_) (hr.of_le hstored.kept.sb ?_) hstored.patched.alloc (update_self ..)
        hstored.patched.full ?_ ?_ ?_ fun a' s' hrest => hQ _ _ ?_
      · rw [htake, hdrop, hoff₁]
        by_cases hm : m ≤ blocksFor (off + src.length)
        · have hspare := hstored.spare (blocksFor (off + src.length))
            (by rw [htake]; exact max_le hm (blocksFor_mono (by omega))) hs
          rwa [htake] at hspare
        · refine ⟨∅, ?_, fun x hx => absurd hx (Finset.notMem_empty x)⟩
          rw [newBlocks, if_neg (by omega)]
          omega
      · rw [htake, hdrop, hoff₁] at hc
        exact lt_of_le_of_lt (le_max_left ..) hc
      · have hmono : blocksFor (off + n₁) ≤ blocksFor (off + src.length) :=
          blocksFor_mono (by omega)
        rw [htake, hdrop, hoff₁]
        by_cases hm : m ≤ blocksFor (off + src.length)
        · have hlength := hstored.length (blocksFor (off + src.length)) (by rw [htake]; omega)
          rw [htake] at hlength
          omega
        · have hlength := hstored.length _ le_rfl
          rw [htake, max_eq_left (by omega), growCost_of_le _ _ le_rfl, growCost_of_le _ _ le_rfl]
            at hlength
          rw [max_eq_left (by omega), growCost_of_le _ _ (by omega)]
          omega
      · rw [htake]
        exact le_max_right ..
      · rw [hdrop]
        omega
      · rw [hdrop]
        omega
      · rw [← take_append_drop n₁ src]
        refine hstored.trans ?_ ?_
        · rw [htake] at hrest ⊢
          exact hrest
        · rwa [htake, hdrop]

end Loops

end Xv6.Blk
