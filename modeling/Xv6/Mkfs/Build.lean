import Xv6.Mkfs.Append

/-!
# The image that mkfs builds

The image of a list of inodes with their contents (`Xv6.Mkfs.Built`), and what the
functions of `mkfs` do to it: `ialloc` adds an inode without contents, and `iappend`
appends to the contents of an inode. From this follows that `mkfs` succeeds whenever
the inodes and the contents fit on the image, and what the image is then
(`Xv6.Mkfs.main_built`): the root directory with an entry for each file, and the files.
-/

namespace Xv6.Mkfs

open Lib Function Blk Fs List UInt32

/-- The most inodes there is room for before the bitmap, with the one that is not
used. -/
def MAXINODES : ℕ := 208

/-- The type and the contents of an inode. -/
abbrev Node := Int16 × Str

/-- The inode with number `t` is a node. -/
structure IsNode (blk : Disk) (t : UInt32) (x : Node) : Prop where
  fields : (dinode sb blk t).fields = ⟨x.1, 0, 0, 1, UInt32.ofNat x.2.length⟩
  holds : Holds blk (dinode sb blk t).addrs x.2
  length : x.2.length ≤ MAXFILE * BSIZE

/-- The block numbers of the first `n` inodes of the image. -/
def table (blk : Disk) (n : ℕ) (t : UInt32) : Option Addrs :=
  if 1 ≤ t.toNat ∧ t.toNat ≤ n then some (dinode sb blk t).addrs else none

/-- The number of blocks the nodes take up. -/
def total (F : List Node) : ℕ := (F.map fun x => cost (blocksFor x.2.length)).sum

/-- **The image of a list of nodes**, of which the first one is inode number `1`. -/
structure Built (F : List Node) (s : St) : Prop where
  room : Room s (table s.blk F.length)
  freeinode : s.freeinode.toNat = F.length + 1
  few : F.length < MAXINODES
  super : s.blk 1 = sb.encode
  node : ∀ i (hi : i < F.length), IsNode s.blk (UInt32.ofNat (i + 1)) F[i]
  rest : ∀ t, t.toNat = 0 ∨ F.length < t.toNat → t.toNat < MAXINODES →
    (dinode sb s.blk t).type = 0
  freeblock : s.freeblock.toNat = nmeta.toNat + total F

/-! ### Inodes on the image -/

section Inode

variable {blk blk' : Disk} {t u : UInt32} {d : Dinode}

/-- An inode is written. -/
def putInode (blk : Disk) (t : UInt32) (d : Dinode) : Disk :=
  update blk (IBLOCK sb t) (putDinode (blk (IBLOCK sb t)) (t.toNat % 8) d)

theorem dinode_putInode (blk : Disk) (t : UInt32) (d : Dinode) :
    dinode sb (putInode blk t d) t = d := by
  rw [dinode, putInode, update_self, getDinode_putDinode _ (Nat.mod_lt _ (by decide))]

theorem dinode_putInode_of_ne (h : u ≠ t) : dinode sb (putInode blk t d) u = dinode sb blk u := by
  rw [dinode, putInode, dinode]
  by_cases hb : IBLOCK sb u = IBLOCK sb t
  · rw [hb, update_self, getDinode_putDinode_of_ne]
    have := congrArg UInt32.toNat hb
    rw [toNat_IBLOCK, toNat_IBLOCK] at this
    rw [ne_eq, ← UInt32.toNat_inj] at h
    omega
  · rw [update_of_ne hb]

/-- The inodes depend on the first blocks only. -/
theorem dinode_congr (h : ∀ x, x < nmeta → blk' x = blk x) (ht : t.toNat < MAXINODES) :
    dinode sb blk' t = dinode sb blk t := by
  rw [dinode, dinode, h]
  rw [lt_iff_toNat_lt, toNat_IBLOCK, toNat_nmeta]
  unfold MAXINODES at ht
  omega

/-- The data blocks do not depend on the inodes. -/
theorem putInode_of_le (ht : t.toNat < MAXINODES) (x : UInt32) (hx : nmeta ≤ x) :
    putInode blk t d x = blk x := by
  refine update_of_ne ?_ _ _
  rintro rfl
  rw [le_iff_toNat_le, toNat_IBLOCK, toNat_nmeta] at hx
  unfold MAXINODES at ht
  omega

theorem putInode_one (blk : Disk) (t : UInt32) (d : Dinode) : putInode blk t d 1 = blk 1 := by
  refine update_of_ne ?_ _ _
  intro hc
  have := congrArg UInt32.toNat hc
  rw [toNat_IBLOCK] at this
  have hone : (1 : UInt32).toNat = 1 := rfl
  omega

variable {s : St} {A : UInt32 → Option Addrs}

theorem wp_winode {Q : Unit → St → Prop} (hlen : s.length = FSSIZE) (ht : t.toNat < MAXINODES)
    (hQ : ∀ s', s'.blk = putInode s.blk t d → s'.length = FSSIZE → s'.freeblock = s.freeblock →
      s'.freeinode = s.freeinode → Q () s') : totalLogic.wp (winode t d) Q s := by
  have hle : (IBLOCK sb t).toNat < FSSIZE := by
    rw [toNat_IBLOCK]
    unfold MAXINODES at ht
    unfold FSSIZE
    omega
  have hsec := sector_eq hle.le
  unfold winode
  refine .bind (wp_rsect (fun hc => ?_) fun hlt => wp_wsect (hQ _ ?_ ?_ rfl rfl))
  · rw [hsec, hlen] at hc
    omega
  · rw [hsec]
    change update s.blk (sector _) _ = _
    rw [hsec]
    rfl
  · change max s.length _ = _
    rw [max_eq_left hlt, hlen]

theorem wp_rinode {Q : Dinode → St → Prop} (hlen : s.length = FSSIZE) (ht : t.toNat < MAXINODES)
    (hQ : Q (dinode sb s.blk t) s) : totalLogic.wp (rinode t) Q s := by
  have hle : (IBLOCK sb t).toNat < FSSIZE := by
    rw [toNat_IBLOCK]
    unfold MAXINODES at ht
    unfold FSSIZE
    omega
  have hsec := sector_eq hle.le
  refine .bind (wp_rsect (fun hc => ?_) fun _ => ?_)
  · rw [hsec, hlen] at hc
    omega
  · rwa [hsec]

end Inode

/-! ### The nodes -/

section Built

variable {F : List Node} {s s' : St} {t u : UInt32} {A : UInt32 → Option Addrs} {a : Addrs}
  {c p : Str} {d : Dinode}

theorem Holds.apart {blk blk' : Disk} (h : Holds blk a c) (hapart : Apart blk blk' A t)
    (hu : u ≠ t) (hA : A u = some a) : Holds blk' a c :=
  ⟨(hapart u a hu hA).full h.full, ((hapart u a hu hA).bytesOf h.full).trans h.bytes⟩

/-- Changes before the data blocks leave them alone. -/
theorem Room.keep (h : Room s A) (hkeep : ∀ y, nmeta ≤ y → s'.blk y = s.blk y)
    (hlen : s'.length = FSSIZE) (hfree : s'.freeblock = s.freeblock) : Room s' A := by
  refine ⟨hlen, by rw [hfree]; exact h.lo, by rw [hfree]; exact h.hi, fun y hy hyf => ?_,
    h.alloc.congr (refs_congr fun u a' k hA => ?_) fun x => ?_⟩
  · rw [hfree] at hy
    rw [hkeep y (UInt32.le_trans h.lo hy)]
    exact h.zero y hy hyf
  · exact (same_of_keep h.alloc hA fun y hy => hkeep y hy.1).slot
  · unfold Assigned
    rw [hfree]

theorem Room.holds_keep (h : Room s A) (hkeep : ∀ y, nmeta ≤ y → s'.blk y = s.blk y)
    (hA : A u = some a) (hc : Holds s.blk a c) : Holds s'.blk a c := by
  have hsame : Same s.blk s'.blk a := same_of_keep h.alloc hA fun y hy => hkeep y hy.1
  exact ⟨hsame.full hc.full, (hsame.bytesOf hc.full).trans hc.bytes⟩

theorem toNat_ofNat {i : ℕ} (h : i < MAXINODES) : (UInt32.ofNat i).toNat = i := by
  unfold MAXINODES at h
  rw [toNat_ofNat']
  omega

theorem table_eq (h : F.length < MAXINODES) {i : ℕ} (hi : i < F.length) (blk : Disk) :
    table blk F.length (UInt32.ofNat (i + 1)) =
      some (dinode sb blk (UInt32.ofNat (i + 1))).addrs := by
  rw [table, if_pos]
  rw [toNat_ofNat (by omega)]
  omega

/-- The block numbers of the inodes, after one has been written. -/
theorem table_putInode {blk blk' : Disk} {n : ℕ} (hlow : ∀ x, x < nmeta → blk x = blk' x)
    (hn : n < MAXINODES) (ht : 1 ≤ t.toNat ∧ t.toNat ≤ n) :
    table (putInode blk t d) n = update (table blk' n) t (some d.addrs) := by
  funext u
  by_cases hut : u = t
  · subst hut
    rw [update_self, table, if_pos ht, dinode_putInode]
  · rw [update_of_ne hut, table, table, dinode_putInode_of_ne hut]
    split
    · rename_i hu
      rw [dinode_congr hlow (by omega)]
    · rfl

theorem blocksFor_zero : blocksFor 0 = 0 := by decide

theorem total_singleton (x : Node) : total [x] = cost (blocksFor x.2.length) := Nat.add_zero _

theorem total_append (F G : List Node) : total (F ++ G) = total F + total G := by
  rw [total, map_append, sum_append]
  rfl

theorem total_set {i : ℕ} (hi : i < F.length) (x : Node) :
    total (F.set i x) + cost (blocksFor F[i].2.length) = total F + cost (blocksFor x.2.length) := by
  unfold total
  induction F generalizing i with
  | nil => cases hi
  | cons y F ih =>
    cases i with
    | zero =>
      simp only [set_cons_zero, map_cons, sum_cons, List.getElem_cons_zero]
      omega
    | succ i =>
      have := ih (i := i) (Nat.lt_of_succ_lt_succ hi)
      simp only [set_cons_succ, map_cons, sum_cons, List.getElem_cons_succ]
      omega

/-- **`iappend`** appends to the contents of an inode. -/
theorem wp_iappend {Q : Unit → St → Prop} (h : Built F s) {i : ℕ} (hi : i < F.length)
    (hmax : (F[i].2 ++ p).length ≤ MAXFILE * BSIZE)
    (hfit : nmeta.toNat + total (F.set i (F[i].1, F[i].2 ++ p)) ≤ FSSIZE)
    (hQ : ∀ s', Built (F.set i (F[i].1, F[i].2 ++ p)) s' → Q () s') :
    totalLogic.wp (iappend (UInt32.ofNat (i + 1)) p) Q s := by
  set t := UInt32.ofNat (i + 1) with ht
  have hfew := h.few
  have htn : t.toNat = i + 1 := toNat_ofNat (by omega)
  have htlt : t.toNat < MAXINODES := by omega
  have hnode := h.node i hi
  rw [← ht] at hnode
  have hlen := hnode.length
  have hsize : (dinode sb s.blk t).size.toNat = F[i].2.length := by
    have := congrArg Fields.size hnode.fields
    change (dinode sb s.blk t).size = UInt32.ofNat F[i].2.length at this
    rw [this, toNat_ofNat']
    refine Nat.mod_eq_of_lt (lt_of_le_of_lt hlen ?_)
    decide
  have hA := table_eq h.few hi s.blk
  rw [← ht] at hA
  have htotal := total_set hi (F[i].1, F[i].2 ++ p)
  simp only [length_append] at htotal hmax
  have hfree := h.freeblock
  unfold iappend
  refine .bind (wp_rinode h.room.length htlt ?_)
  rw [hsize]
  refine .bind (wp_iappendLoop h.room hA hnode.holds le_rfl hmax (by omega)
    fun a' s₁ hroom hholds hframe hfree₁ => ?_)
  refine wp_winode hroom.length htlt fun s₂ hblk hlen₂ hfree₂ hinode₂ => hQ s₂ ?_
  have hkeep : ∀ y, nmeta ≤ y → s₂.blk y = s₁.blk y := by
    rw [hblk]
    exact putInode_of_le htlt
  have hlow : ∀ x, x < nmeta → s₁.blk x = s.blk x := hframe.low
  have htable : table s₂.blk F.length = update (table s.blk F.length) t (some a') := by
    rw [hblk, table_putInode hlow h.few (by omega)]
    rfl
  refine ⟨?_, ?_, ?_, ?_, fun j hj => ?_, fun u hu humax => ?_, ?_⟩
  · rw [length_set, htable]
    exact hroom.keep hkeep hlen₂ hfree₂
  · rw [length_set, hinode₂, hframe.freeinode, h.freeinode]
  · rw [length_set]
    exact h.few
  · rw [hblk, putInode_one, hlow 1 (by decide)]
    exact h.super
  · rw [length_set] at hj
    by_cases hji : j = i
    · subst hji
      rw [List.getElem_set_self, ← ht]
      have hd : dinode sb s₂.blk t = (dinode sb s.blk t).resize
          (UInt32.ofNat (F[j].2.length + p.length)) a' := by
        rw [hblk, dinode_putInode]
      refine ⟨?_, ?_, by rw [length_append]; exact hmax⟩
      · rw [hd, Dinode.fields_resize, hnode.fields, length_append]
        rfl
      · rw [hd]
        exact hroom.holds_keep hkeep (update_self ..) hholds
    · rw [List.getElem_set_ne (Ne.symm hji)]
      have hju : UInt32.ofNat (j + 1) ≠ t := by
        rw [ne_eq, ← UInt32.toNat_inj, htn, toNat_ofNat (by omega)]
        omega
      have hjd : dinode sb s₂.blk (UInt32.ofNat (j + 1)) =
          dinode sb s.blk (UInt32.ofNat (j + 1)) := by
        rw [hblk, dinode_putInode_of_ne hju, dinode_congr hlow]
        rw [toNat_ofNat (by omega)]
        omega
      have hjn := h.node j hj
      have hAj := table_eq h.few hj s.blk
      have hholds₁ := hjn.holds.apart hframe.apart hju hAj
      refine ⟨by rw [hjd]; exact hjn.fields, ?_, hjn.length⟩
      rw [hjd]
      exact hroom.holds_keep hkeep ((update_of_ne hju ..).trans hAj) hholds₁
  · rw [length_set] at hu
    have hut : u ≠ t := by
      rintro rfl
      omega
    rw [hblk, dinode_putInode_of_ne hut, dinode_congr hlow humax]
    exact h.rest u hu humax
  · rw [hfree₂]
    omega

/-- **`ialloc`** adds a node without contents. -/
theorem wp_ialloc {Q : UInt32 → St → Prop} {type : Int16} (h : Built F s)
    (hfew : F.length + 1 < MAXINODES)
    (hQ : ∀ s', Built (F ++ [(type, [])]) s' → Q (UInt32.ofNat (F.length + 1)) s') :
    totalLogic.wp (ialloc type) Q s := by
  have hfree : s.freeinode = UInt32.ofNat (F.length + 1) := by
    rw [← UInt32.toNat_inj, h.freeinode, toNat_ofNat hfew]
  unfold ialloc
  refine .bind (wp_newInode (.bind ?_))
  rw [hfree]
  set t := UInt32.ofNat (F.length + 1) with ht
  have htn : t.toNat = F.length + 1 := toNat_ofNat hfew
  have htlt : t.toNat < MAXINODES := by omega
  refine wp_winode (s := s.newInode) h.room.length htlt fun s₂ hblk hlen hfree₂ hinode => hQ s₂ ?_
  have hkeep : ∀ y, nmeta ≤ y → s₂.blk y = s.newInode.blk y := by
    rw [hblk]
    exact putInode_of_le htlt
  have hnone : table s.blk F.length t = none := by
    rw [table, if_neg (by omega)]
  have htable : table s₂.blk (F.length + 1) =
      update (table s.blk F.length) t (some fun _ => 0) := by
    rw [hblk]
    funext u
    by_cases hut : u = t
    · subst hut
      rw [update_self, table, if_pos (by omega), dinode_putInode]
    · have hun : u.toNat ≠ F.length + 1 := by
        rwa [← htn, ne_eq, UInt32.toNat_inj]
      rw [update_of_ne hut, table, table, dinode_putInode_of_ne hut]
      split
      · rw [if_pos (by omega)]
        rfl
      · rw [if_neg (by omega)]
  have hroom : Room s.newInode (update (table s.blk F.length) t (some fun _ => 0)) :=
    ⟨h.room.length, h.room.lo, h.room.hi, h.room.zero,
      h.room.alloc.congr (refs_insert hnone) fun _ => Iff.rfl⟩
  refine ⟨?_, ?_, ?_, ?_, fun j hj => ?_, fun u hu humax => ?_, ?_⟩
  · rw [length_append, length_singleton, htable]
    exact hroom.keep hkeep hlen hfree₂
  · rw [hinode, length_append, length_singleton]
    change (s.freeinode + 1).toNat = _
    rw [hfree, UInt32.toNat_add, htn]
    have hone : (1 : UInt32).toNat = 1 := rfl
    unfold MAXINODES at hfew
    omega
  · rwa [length_append, length_singleton]
  · rw [hblk, putInode_one]
    exact h.super
  · rw [length_append, length_singleton] at hj
    by_cases hjl : j < F.length
    · have hju : UInt32.ofNat (j + 1) ≠ t := by
        rw [ne_eq, ← UInt32.toNat_inj, htn, toNat_ofNat (by omega)]
        omega
      have hjd : dinode sb s₂.blk (UInt32.ofNat (j + 1)) =
          dinode sb s.blk (UInt32.ofNat (j + 1)) := by
        rw [hblk, dinode_putInode_of_ne hju]
        rfl
      have hjn := h.node j hjl
      rw [List.getElem_append_left hjl]
      refine ⟨by rw [hjd]; exact hjn.fields, ?_, hjn.length⟩
      rw [hjd]
      exact h.room.holds_keep hkeep (table_eq h.few hjl s.blk) hjn.holds
    · obtain rfl : j = F.length := by omega
      rw [List.getElem_concat_length rfl, ← ht]
      have hd : dinode sb s₂.blk t = ⟨type, 0, 0, 1, 0, fun _ => 0⟩ := by
        rw [hblk, dinode_putInode]
      refine ⟨by rw [hd]; rfl, ?_, Nat.zero_le _⟩
      rw [hd]
      refine ⟨?_, ?_⟩
      · rw [length_nil, blocksFor_zero]
        exact full_zero _
      · rw [length_nil, blocksFor_zero, bytesOf_zero]
        rfl
  · rw [length_append, length_singleton] at hu
    have hut : u ≠ t := by
      rintro rfl
      omega
    rw [hblk, dinode_putInode_of_ne hut]
    exact h.rest u (by omega) humax
  · rw [hfree₂]
    change s.freeblock.toNat = _
    rw [h.freeblock, total_append, total_singleton, length_nil, blocksFor_zero]
    rfl

end Built

end Xv6.Mkfs
