import Xv6.Blk.Inode
import Xv6.Fs.Bytes
import Xv6.Mkfs.WellFormed

/-!
# A file is an array of bytes

On a sound disk, `readi` and `writei` do with the contents of an inode what reading and
writing a part of an array of bytes should do, and the contents of the other inodes stay
as they are (`Xv6.Blk.readi_writei`). This is so as long as there are blocks, and room in
the log for those that are written (`Xv6.Blk.writeCost`): a write of many blocks stops the
system because the log is too small for it (`Xv6.Blk.writei_too_big`). The pieces that
`filewrite` writes are short enough. They take up at most `MAXOPBLOCKS` blocks of the log,
however large the bitmap is (`Xv6.Blk.writei_logs`).
-/

namespace Xv6.Blk

open Lib Fs List UInt32

/-- The operations on the disk do not wait. -/
theorem DevOp.handle_ne_disabled (o : DevOp) (s : Dev) : o.handle s ≠ .disabled := by
  intro hc
  cases o with
  | panic msg => cases hc
  | bread b =>
    change (if _ then _ else _) = _ at hc
    split at hc <;> cases hc
  | logWrite b v =>
    change (if _ then _ else if _ then _ else _) = _ at hc
    split at hc
    · cases hc
    · split at hc <;> cases hc
  | sb => cases hc

section Exec

variable {α : Type} {own : List String} {P : DevM α} {Q : α → Dev → Prop} {s : Dev}

/-- A run ends as it should, or with one of the messages that may stop it. -/
theorem exec_of_wp (h : (devLogic own).wp P Q s) :
    (∃ x, P.exec DevOp.handle s = .ok x ∧ Q x.1 x.2) ∨
      ∃ msg, P.exec DevOp.handle s = .panic msg ∧ msg ∈ own :=
  (Logic.ok_or_panic (fun _ _ => trivial) DevOp.handle_ne_disabled h).imp_right
    fun ⟨msg, hx, hmsg⟩ => ⟨msg, hx, not_not.mp hmsg⟩

/-- The log never has more blocks than there is room for. -/
theorem length_logged_le {x : α × Dev} (hx : P.exec DevOp.handle s = .ok x)
    (h : s.logged.length ≤ s.logRoom) : x.2.logged.length ≤ s.logRoom := by
  refine (Prog.exec_invariant (I := fun s' => s'.sb = s.sb ∧ s'.logged.length ≤ s.logRoom)
    (fun o s' x ho hs => ?_) hx ⟨rfl, h⟩).2
  cases o with
  | panic msg => cases ho
  | bread b =>
    change (if _ then _ else _) = _ at ho
    split at ho
    · cases ho
    · obtain rfl := Effect.ok.inj ho
      exact hs
  | logWrite b v =>
    change (if _ then _ else if _ then _ else _) = _ at ho
    split at ho
    · cases ho
    · rename_i hfull
      split at ho
      · cases ho
      · obtain rfl := Effect.ok.inj ho
        obtain ⟨h1, h2⟩ := not_or.mp hfull
        rw [hs.1] at h2
        refine ⟨hs.1, (Dev.length_put s' b v).trans ?_⟩
        unfold Dev.logRoom
        omega
  | sb =>
    obtain rfl := Effect.ok.inj ho
    exact hs

end Exec

/-! ### On the image of `mkfs` -/

/-- A disk, after a transaction has begun. -/
def begun (blk : Disk) : Dev := ⟨blk, Superblock.decode (blk 1), [], 1, FSSIZE⟩

section Image

variable {files : List Mkfs.HostFile} {s : Mkfs.St}

theorem begun_sb (h : Mkfs.Made files s) : (begun s.blk).sb = Mkfs.sb := by
  change Superblock.decode (s.blk 1) = _
  rw [h.super, Superblock.decode_encode]

theorem geometry_mkfs : Geometry Mkfs.sb :=
  ⟨by decide, by decide, by decide, by decide, by decide⟩

variable (h : Mkfs.Made files s)
include h

/-- **The image is sound** when the root directory has its blocks. -/
theorem sound_begun (hfew : files.length + 1 < Mkfs.NINODES.toNat)
    (hround : (files.length + 2) % 32 ≠ 0) : Sound (begun s.blk) := by
  have hok : BlocksOk (begun s.blk).sb (begun s.blk).blk := by
    rw [begun_sb h]
    exact (h.blocksOk_iff hfew).mpr hround
  refine hok.sound ?_ rfl
  rw [begun_sb h]
  exact geometry_mkfs

theorem dinode_begun (t : UInt32) :
    (begun s.blk).dinode t = Blk.dinode Mkfs.sb s.blk t :=
  congrArg (fun sb => Blk.dinode sb s.blk t) (begun_sb h)

/-- The blocks after those that `mkfs` has assigned are free. -/
theorem spare_begun : Spare (begun s.blk) (FSSIZE - s.freeblock.toNat) := by
  have hsb := begun_sb h
  refine ⟨(Finset.range (FSSIZE - s.freeblock.toNat)).image fun i =>
    UInt32.ofNat (s.freeblock.toNat + i), ?_, fun x hx => ?_⟩
  · rw [Finset.card_image_of_injOn, Finset.card_range]
    intro i hi j hj heq
    have hi := Finset.mem_range.mp hi
    have hj := Finset.mem_range.mp hj
    have heq := congrArg UInt32.toNat heq
    dsimp only at heq
    unfold FSSIZE at hi hj
    rw [toNat_ofNat_of_lt' (by change _ < 2 ^ 32; omega),
      toNat_ofNat_of_lt' (by change _ < 2 ^ 32; omega)] at heq
    omega
  · obtain ⟨i, hi, rfl⟩ := Finset.mem_image.mp hx
    have hi := Finset.mem_range.mp hi
    unfold FSSIZE at hi
    have hnat : (UInt32.ofNat (s.freeblock.toNat + i)).toNat = s.freeblock.toNat + i :=
      toNat_ofNat_of_lt' (by change _ < 2 ^ 32; omega)
    have hlo := le_iff_toNat_le.mp h.lo
    have hsize : Mkfs.sb.size.toNat = 1000 := rfl
    have hlt : UInt32.ofNat (s.freeblock.toNat + i) < Mkfs.sb.size := by
      rw [lt_iff_toNat_lt, hnat, hsize]
      omega
    rw [hsb]
    refine ⟨le_iff_toNat_le.mpr ?_, hlt, fun hu => ?_⟩
    · rw [hnat]
      exact hlo.trans (Nat.le_add_right ..)
    · have hmarked := hu.marked
      have hbb : BBLOCK Mkfs.sb (UInt32.ofNat (s.freeblock.toNat + i)) = Mkfs.sb.bmapstart := by
        have hmap : Mkfs.sb.bmapstart.toNat = 58 := rfl
        rw [← UInt32.toNat_inj, geometry_mkfs.toNat_BBLOCK hlt, hnat]
        omega
      have hmod : (UInt32.ofNat (s.freeblock.toNat + i)).toNat % BPB.toNat = s.freeblock.toNat + i := by
        rw [hnat]
        change _ % 4096 = _
        omega
      rw [hsb, Marked, hbb, hmod, show (begun s.blk).blk = s.blk from rfl, h.bitmap,
        Mkfs.isSet_bitmap (by omega)] at hmarked
      omega

end Image

/-- **An image with a file of `n` blocks.** -/
theorem exists_image {n : ℕ} (hn : n ≤ MAXFILE) : ∃ blk, Sound (begun blk) ∧
    (begun blk).sb = Mkfs.sb ∧ Allocated (begun blk) 2 ∧
    ((begun blk).dinode 2).fields = ⟨T_FILE, 0, 0, 1, UInt32.ofNat (n * BSIZE)⟩ ∧
    Spare (begun blk) 700 := by
  have hlen := Mkfs.length_hostFile 0 n
  have hblocks : blocksFor (n * BSIZE) ≤ MAXFILE := by
    unfold blocksFor BSIZE
    omega
  have hcost : Mkfs.costs ([Mkfs.hostFile 0 n].map Mkfs.HostFile.content) ≤ Mkfs.cost MAXFILE := by
    rw [map_singleton, Mkfs.costs_singleton, hlen]
    exact Mkfs.cost_mono hblocks
  have hroot : (Mkfs.rootDir [Mkfs.hostFile 0 n]).length = 48 := Mkfs.length_rootDir _
  have hmax : Mkfs.nmeta.toNat + (Mkfs.cost (blocksFor 48) + Mkfs.cost MAXFILE) ≤ 300 := by decide
  have hfit : Mkfs.Fits [Mkfs.hostFile 0 n] := by
    refine ⟨by change 1 + 1 < _; decide, fun f hf => ?_, ?_⟩
    · rw [mem_singleton.mp hf, hlen]
      exact Nat.mul_le_mul_right _ hn
    · rw [hroot]
      exact le_trans (by omega) (by decide : 300 ≤ FSSIZE)
  obtain ⟨s, -, hmade⟩ := Mkfs.main_made hfit fun f hf => by
    rw [mem_singleton.mp hf]
    exact Mkfs.readable_hostFile 0 n
  have hfile := hmade.file 0 Nat.one_pos
  have hfields : ((begun s.blk).dinode 2).fields = ⟨T_FILE, 0, 0, 1, UInt32.ofNat (n * BSIZE)⟩ := by
    rw [dinode_begun hmade, ← hlen]
    exact hfile.fields
  refine ⟨s.blk, sound_begun hmade (by change 1 + 1 < _; decide) (by change (1 + 2) % 32 ≠ 0; decide),
    begun_sb hmade, ⟨?_, ?_⟩, hfields,
    (spare_begun hmade).mono ?_⟩
  · rw [begun_sb hmade]
    decide
  · rw [show ((begun s.blk).dinode 2).type = T_FILE from congrArg Fields.type hfields]
    decide
  · have hfree := hmade.freeblock
    rw [hroot] at hfree
    unfold FSSIZE
    omega

/-! ### Reading and writing -/

section ReadWrite

variable {s s' : Dev} {t u : UInt32} {off n : UInt32} {src : Str}

/-- The contents of the inode after a write. -/
theorem WroteTo.contents_self (h : WroteTo s s' t (s.dinode t) (s'.dinode t) off src)
    (hsrc : src.length < 2 ^ 32)
    (hok : writeiOk (s.dinode t).size off (UInt32.ofNat src.length) = true) :
    contents s' t = splice (contents s t) off.toNat src := by
  obtain ⟨hoff, hmax⟩ := (writeiOk_iff hsrc).mp hok
  have hend := toNat_end hsrc hmax
  have hsize : (s'.dinode t).size.toNat =
      max (s.dinode t).size.toNat (off.toNat + src.length) := by
    have hcopy : (s'.dinode t).size =
        newSize (s.dinode t).size off (UInt32.ofNat src.length) := congrArg Dinode.size h.copy
    rw [hcopy]
    unfold newSize
    split
    · rename_i hgrow
      have hlt := lt_iff_toNat_lt.mp hgrow.2
      rw [hend] at hlt ⊢
      omega
    · rename_i hgrow
      have hle := le_of_not_grows hsrc hmax hoff hgrow
      omega
  unfold contents
  rw [← bytes_overwrite (le_iff_toNat_le.mp hoff), hsize]
  refine bytes_congr fun j _ hj => h.bytes j ?_
  rw [hsize]
  omega

/-- The contents of the other inodes. -/
theorem WroteTo.contents_of_ne {d d' : Dinode} (h : WroteTo s s' t d d' off src) (hut : u ≠ t)
    (hu : Allocated s u) : contents s' u = contents s u := by
  unfold contents
  rw [h.other u hut hu.lt]
  refine bytes_congr fun j _ hj => h.apart u hut hu j ?_
  omega

theorem newBlocks_le (a : Addrs) (m e : ℕ) : newBlocks a m e ≤ e + 1 := by
  have hnew : indirectNew a ≤ 1 := by unfold indirectNew; split <;> omega
  unfold newBlocks
  split <;> omega

/-- A piece of a write takes up at most `MAXOPBLOCKS` blocks of the log. -/
theorem writeCost_le {d : Dinode} (hoff : off ≤ d.size) (hsrc : src.length ≤ filewriteMax) :
    writeCost s d off.toNat src.length ≤ MAXOPBLOCKS := by
  have hle := blocksFor_mono (le_iff_toNat_le.mp hoff)
  have hbit := bitmapCost_le s (newBlocks d.addrs (blocksFor d.size.toNat)
    (blocksFor (off.toNat + src.length)))
  have hnew : indirectNew d.addrs ≤ 1 := by unfold indirectNew; split <;> omega
  have hind : indirectCost s d.addrs ≤ 1 := by unfold indirectCost; split <;> omega
  change src.length ≤ 1536 at hsrc
  change _ ≤ 10
  have hblocks : blocksAt off.toNat src.length +
      (blocksFor (off.toNat + src.length) - blocksFor off.toNat) ≤ 7 := by
    unfold blocksAt blocksFor BSIZE
    split <;> omega
  unfold newBlocks at hbit
  unfold writeCost growCost newBlocks
  split_ifs at * <;> omega

/-- **How `writei` ends** in a transaction: there are not enough blocks, or there is not enough room in
the log, or the bytes are written. -/
theorem exec_writei {d : Dinode} (hs : Sound s) (hdisk : s.sb.size.toNat ≤ s.disksize)
    (hopen : 1 ≤ s.outstanding) (ht : Allocated s t) (hd : Current s t d)
    (hsrc : src.length < 2 ^ 32) (hok : writeiOk d.size off (UInt32.ofNat src.length) = true) :
    ¬Spare s (newBlocks d.addrs (blocksFor d.size.toNat) (blocksFor (off.toNat + src.length))) ∧
      (writei t d off src).exec DevOp.handle s = .panic "balloc: out of blocks" ∨
    s.logRoom < s.logged.length + writeCost s d off.toNat src.length ∧
      (writei t d off src).exec DevOp.handle s = .panic "too big a transaction" ∨
    ∃ d' s', (writei t d off src).exec DevOp.handle s =
      .ok ((some (UInt32.ofNat src.length), d'), s') ∧ WroteTo s s' t d d' off src := by
  set k := newBlocks d.addrs (blocksFor d.size.toNat) (blocksFor (off.toNat + src.length))
  set c := writeCost s d off.toNat src.length
  -- the messages that the state of the disk and of the log allow
  obtain ⟨own, hown, hfree, hroom⟩ : ∃ own : List String, (∀ msg ∈ own,
      msg = "balloc: out of blocks" ∧ ¬Spare s k ∨
        msg = "too big a transaction" ∧ s.logRoom < s.logged.length + c) ∧
      Blocks own s k ∧ Room own s c := by
    by_cases hk : Spare s k
    · by_cases hc : s.logRoom < s.logged.length + c
      · exact ⟨["too big a transaction"], fun msg hmsg => .inr ⟨mem_singleton.mp hmsg, hc⟩, .inr hk,
          .inl mem_cons_self⟩
      · exact ⟨[], fun msg hmsg => absurd hmsg not_mem_nil, .inr hk, .inr (not_lt.mp hc)⟩
    · by_cases hc : s.logRoom < s.logged.length + c
      · refine ⟨["balloc: out of blocks", "too big a transaction"], fun msg hmsg => ?_,
          .inl mem_cons_self, .inl (mem_cons_of_mem _ mem_cons_self)⟩
        exact (mem_pair.mp hmsg).imp (fun e => ⟨e, hk⟩) fun e => ⟨e, hc⟩
      · exact ⟨["balloc: out of blocks"], fun msg hmsg => .inl ⟨mem_singleton.mp hmsg, hk⟩,
          .inl mem_cons_self, .inr (not_lt.mp hc)⟩
  have hwp : (devLogic own).wp (writei t d off src) (fun r s' =>
      r.1 = some (UInt32.ofNat src.length) ∧ WroteTo s s' t d r.2 off src) s :=
    wp_writei hs ⟨.inr hdisk, .inr hopen⟩ hfree hroom ht hd hsrc
      (fun hf => absurd (hok.symm.trans hf) (by decide)) fun _ d' s' h => ⟨rfl, h⟩
  rcases exec_of_wp hwp with ⟨⟨⟨r, d'⟩, s'⟩, hx, rfl, h⟩ | ⟨msg, hx, hmsg⟩
  · exact .inr (.inr ⟨d', s', hx, h⟩)
  · rcases hown msg hmsg with ⟨rfl, hk⟩ | ⟨rfl, hc⟩
    · exact .inl ⟨hk, hx⟩
    · exact .inr (.inl ⟨hc, hx⟩)

/-- **`readi` and `writei` implement an array of bytes for each inode**: `readi` returns a
part of the contents and changes nothing. `writei` fails and changes nothing when the
bytes would not be where they can be; otherwise it replaces or extends a part of the
contents and leaves those of the other inodes alone. In a transaction it stops only if there are
fewer free blocks than it allocates, or if the log has no room for the blocks it writes. -/
theorem readi_writei (hs : Sound s) (hdisk : s.sb.size.toNat ≤ s.disksize) (ht : Allocated s t) :
    (∀ off n, (readi (s.dinode t) off n).exec DevOp.handle s =
      .ok ((if (s.dinode t).size < off ∨ off + n < off then none
        else some (((contents s t).drop off.toNat).take n.toNat), s.dinode t), s)) ∧
    ∀ off (src : Str), src.length < 2 ^ 32 →
      if (s.dinode t).size < off ∨ off + UInt32.ofNat src.length < off ∨
          MAXFILE * BSIZE < (off + UInt32.ofNat src.length).toNat then
        (writei t (s.dinode t) off src).exec DevOp.handle s = .ok ((none, s.dinode t), s)
      else
        1 ≤ s.outstanding →
        ¬Spare s (newBlocks (s.dinode t).addrs (blocksFor (s.dinode t).size.toNat)
            (blocksFor (off.toNat + src.length))) ∧
          (writei t (s.dinode t) off src).exec DevOp.handle s = .panic "balloc: out of blocks" ∨
        s.logRoom < s.logged.length + writeCost s (s.dinode t) off.toNat src.length ∧
          (writei t (s.dinode t) off src).exec DevOp.handle s = .panic "too big a transaction" ∨
        ∃ s', (writei t (s.dinode t) off src).exec DevOp.handle s =
            .ok ((some (UInt32.ofNat src.length), s'.dinode t), s') ∧
          Sound s' ∧ contents s' t = splice (contents s t) off.toNat src ∧
          ∀ u, u ≠ t → Allocated s u → Allocated s' u ∧ contents s' u = contents s u := by
  refine ⟨fun off n => ?_, fun off src hsrc => ?_⟩
  · have hwp : (devLogic []).wp (readi (s.dinode t) off n) (fun r s' =>
        r = (if (s.dinode t).size < off ∨ off + n < off then none
          else some (((contents s t).drop off.toNat).take n.toNat), s.dinode t) ∧ s' = s) s := by
      refine wp_readi hs (.inr hdisk) ht (.self s t) ⟨?_, rfl⟩
      split
      · rename_i hc
        rw [readiLen, if_pos hc]
        rfl
      · rename_i hc
        rw [readiLen_map hc]
        rfl
    rcases exec_of_wp hwp with ⟨x, hx, h1, h2⟩ | ⟨msg, -, hmsg⟩
    · rw [hx, ← h1, ← h2]
    · cases hmsg
  · split
    · rename_i hc
      have hbad : ¬writeiOk (s.dinode t).size off (UInt32.ofNat src.length) := by
        unfold writeiOk
        rw [decide_eq_true_iff, ← not_or, or_assoc]
        exact not_not.mpr hc
      rw [writei, if_neg hbad]
      rfl
    · rename_i hc
      have hok : writeiOk (s.dinode t).size off (UInt32.ofNat src.length) = true := by
        unfold writeiOk
        rwa [decide_eq_true_iff, ← not_or, or_assoc]
      intro hopen
      refine (exec_writei hs hdisk hopen ht (.self s t) hsrc hok).imp_right (Or.imp_right ?_)
      rintro ⟨d', s', hx, h⟩
      -- the copy in memory is the inode on the disk
      obtain rfl : d' = s'.dinode t := by
        rw [h.self]
        split
        · rfl
        · rename_i hg
          exact h.same hg
      refine ⟨s', hx, h.sound, h.contents_self hsrc hok, fun u hut hu => ⟨⟨h.sb.symm ▸ hu.lt, ?_⟩,
        h.contents_of_ne hut hu⟩⟩
      rw [h.other u hut hu.lt]
      exact hu.type

end ReadWrite

/-- On the image with a file of three blocks, 1200 bytes are written from the offset 1000 on. Two
blocks are allocated for them. -/
theorem readi_writei_image : ∃ s s' : Dev, Sound s ∧ Allocated s 2 ∧
    (readi (s.dinode 2) 1000 600).exec DevOp.handle s =
      .ok ((some (((contents s 2).drop 1000).take 600), s.dinode 2), s) ∧
    (writei 2 (s.dinode 2) 1000 (List.replicate 1200 7)).exec DevOp.handle s =
      .ok ((some 1200, s'.dinode 2), s') ∧
    contents s' 2 = splice (contents s 2) 1000 (List.replicate 1200 7) := by
  obtain ⟨blk, hs, hsb, ht, hfields, hspare⟩ := exists_image (n := 3) (by decide)
  have hsize : ((begun blk).dinode 2).size = 1536 := congrArg Fields.size hfields
  have hlen : (List.replicate 1200 (7 : UInt8)).length = 1200 := length_replicate
  have hdisk : (begun blk).sb.size.toNat ≤ FSSIZE := by rw [hsb]; decide
  obtain ⟨hread, hwrite⟩ := readi_writei hs hdisk ht
  have hread := hread 1000 600
  have hwrite := hwrite 1000 (List.replicate 1200 7) (by rw [hlen]; decide)
  rw [hsize, if_neg (by decide)] at hread
  rw [hsize, hlen, if_neg (by decide)] at hwrite
  rcases hwrite le_rfl with hno | hno | ⟨s', hx, -, hc, -⟩
  · exact absurd (hspare.mono ((newBlocks_le ..).trans (by decide))) hno.1
  · have hcost : writeCost (begun blk) ((begun blk).dinode 2) (1000 : UInt32).toNat
        (List.replicate 1200 (7 : UInt8)).length ≤ MAXOPBLOCKS :=
      writeCost_le (by rw [hsize]; decide) (by rw [hlen]; decide)
    rw [hlen] at hcost
    refine absurd hno.1 (not_lt.mpr (le_trans (Nat.add_le_add_left hcost _) ?_))
    rw [Dev.logRoom, hsb]
    change 0 + _ ≤ _
    decide
  · exact ⟨begun blk, s', hs, ht, hread, hx, hc⟩

/-! ### A write that is too long -/

/-- A small disk has one block with the bitmap. -/
theorem card_bitmaps {sb : Superblock} (h : Geometry sb) (hsize : sb.size.toNat ≤ BPB.toNat) :
    (bitmaps sb).card ≤ 1 := by
  have hmap : ∀ y ∈ bitmaps sb, y.toNat = sb.bmapstart.toNat := by
    intro y hy
    obtain ⟨x, hx, rfl⟩ := Finset.mem_image.mp hy
    have hx := Finset.mem_range.mp hx
    have hnat : (UInt32.ofNat x).toNat = x := toNat_ofNat_of_lt' (hx.trans sb.size.toNat_lt)
    rw [h.toNat_BBLOCK (by rw [lt_iff_toNat_lt, hnat]; exact hx), hnat]
    change _ ≤ 4096 at hsize
    omega
  exact Finset.card_le_one.mpr fun x hx y hy => UInt32.toNat_inj.mp ((hmap x hx).trans (hmap y hy).symm)

/-- **A write of more blocks than a transaction can have stops the system**, on a disk with one block
for the bitmap. -/
theorem exec_writei_too_big {s : Dev} {t off : UInt32} {d : Dinode} {src : Str} (hs : Sound s)
    (hdisk : s.sb.size.toNat ≤ s.disksize) (hopen : 1 ≤ s.outstanding) (hlog : s.logged = [])
    (hone : s.sb.size.toNat ≤ BPB.toNat) (ht : Allocated s t) (hd : Current s t d)
    (hsrc : src.length < 2 ^ 32) (hok : writeiOk d.size off (UInt32.ofNat src.length) = true)
    (hcost : s.logRoom < writeCost s d off.toNat src.length) :
    ¬Spare s (newBlocks d.addrs (blocksFor d.size.toNat) (blocksFor (off.toNat + src.length))) ∧
      (writei t d off src).exec DevOp.handle s = .panic "balloc: out of blocks" ∨
    (writei t d off src).exec DevOp.handle s = .panic "too big a transaction" := by
  rcases exec_writei hs hdisk hopen ht hd hsrc hok with h | h | ⟨d', s', hx, h⟩
  · exact .inl h
  · exact .inr h.2
  · have hle := length_logged_le hx (by rw [hlog]; exact Nat.zero_le _)
    exact absurd (h.least (card_bitmaps hs.geo hone)) (not_le.mpr (hle.trans_lt hcost))

/-- On the image with a file of the largest size, writing the whole file again stops the system. -/
theorem writei_too_big : ∃ (s : Dev) (t : UInt32) (src : Str), Sound s ∧
    s.sb.size.toNat ≤ s.disksize ∧ 1 ≤ s.outstanding ∧ s.logged = [] ∧ s.sb.nlog.toNat = LOGSIZE ∧
    Allocated s t ∧ src.length = (s.dinode t).size.toNat ∧
    (writei t (s.dinode t) 0 src).exec DevOp.handle s = .panic "too big a transaction" := by
  obtain ⟨blk, hs, hsb, ht, hfields, hspare⟩ := exists_image le_rfl
  have hsize : ((begun blk).dinode 2).size = 71680 := congrArg Fields.size hfields
  have hlen : (List.replicate 71680 (0 : UInt8)).length = 71680 := length_replicate
  have hdisk : (begun blk).sb.size.toNat ≤ FSSIZE := by rw [hsb]; decide
  have hok : writeiOk ((begun blk).dinode 2).size 0
      (UInt32.ofNat (List.replicate 71680 (0 : UInt8)).length) = true := by
    rw [hsize, hlen]
    decide
  refine ⟨begun blk, 2, List.replicate 71680 0, hs, hdisk, le_rfl, rfl, by rw [hsb]; decide, ht,
    by rw [hlen, hsize]; rfl, (exec_writei_too_big hs hdisk le_rfl rfl (by rw [hsb]; decide) ht
      (.self _ 2) (by rw [hlen]; decide) hok ?_).resolve_left fun hno => hno.1 (hspare.mono ?_)⟩
  · rw [writeCost, hlen, Dev.logRoom, hsb, hsize]
    exact lt_of_lt_of_le (by decide : _ < 140) (Nat.le_add_right_of_le (Nat.le_add_right_of_le
      (by decide)))
  · rw [hsize, hlen, newBlocks, if_neg (by decide)]
    decide

section Pieces

variable {s : Dev} {t : UInt32} {off : UInt32} {src : Str}

/-- **A piece of a write fits the log**: `writei` of at most as many bytes as `filewrite`
writes at once, at an offset within the file, writes at most `MAXOPBLOCKS` blocks. So it
does not stop the system when the log has room for that many blocks. -/
theorem writei_logs (hs : Sound s) (hlog : s.logged = []) (ht : Allocated s t)
    (hoff : off ≤ (s.dinode t).size) (hsrc : src.length ≤ filewriteMax) :
    (∀ x, (writei t (s.dinode t) off src).exec DevOp.handle s = .ok x →
      x.2.logged.Nodup ∧ x.2.logged.length ≤ MAXOPBLOCKS) ∧
    (MAXOPBLOCKS < s.sb.nlog.toNat →
      (writei t (s.dinode t) off src).exec DevOp.handle s ≠ .panic "too big a transaction") := by
  have hcost := writeCost_le (s := s) hoff hsrc
  have hlt : src.length < 2 ^ 32 := lt_of_le_of_lt hsrc (by decide)
  refine ⟨fun x hx => ?_, fun hnlog hc => ?_⟩
  · have hwp : (devLogic ["balloc: out of blocks", "incorrect blockno",
        "log_write outside of trans", "too big a transaction"]).wp
          (writei t (s.dinode t) off src)
          (fun _ s' => s'.logged.Nodup ∧ s'.logged.length ≤ MAXOPBLOCKS) s := by
      refine wp_writei hs ⟨.inl (by decide), .inl (by decide)⟩ (.inl (by decide))
        (.inl (by decide)) ht (.self s t) hlt (fun _ => ?_) fun _ d' s' h =>
          ⟨h.nodup (by rw [hlog]; exact nodup_nil), ?_⟩
      · rw [hlog]
        exact ⟨nodup_nil, Nat.zero_le _⟩
      · have hlength := h.length
        rw [hlog, length_nil] at hlength
        omega
    rcases exec_of_wp hwp with ⟨y, hy, hq⟩ | ⟨msg, hy, -⟩
    · obtain rfl := Effect.ok.inj (hx.symm.trans hy)
      exact hq
    · exact absurd (hx.symm.trans hy) (by rintro ⟨⟩)
  · have hwp : (devLogic ["balloc: out of blocks", "incorrect blockno",
        "log_write outside of trans"]).wp (writei t (s.dinode t) off src) (fun _ _ => True) s := by
      refine wp_writei hs ⟨.inl (by decide), .inl (by decide)⟩ (.inl (by decide))
        (.inr ?_) ht (.self s t) hlt (fun _ => trivial) fun _ _ _ _ => trivial
      rw [hlog, length_nil]
      change _ ≤ min 30 _
      change _ ≤ 10 at hcost
      change 10 < _ at hnlog
      omega
    rcases exec_of_wp hwp with ⟨y, hy, -⟩ | ⟨msg, hy, hmsg⟩
    · exact absurd (hc.symm.trans hy) (by rintro ⟨⟩)
    · obtain rfl := Effect.panic.inj (hc.symm.trans hy)
      exact absurd hmsg (by decide)

end Pieces

/-- On the image with a file of three blocks, a piece that goes beyond its end is written. -/
theorem writei_logs_image : ∃ (s s' : Dev) (d' : Dinode), Sound s ∧ Allocated s 2 ∧
    (writei 2 (s.dinode 2) 1000 (List.replicate 1536 7)).exec DevOp.handle s =
      .ok ((some 1536, d'), s') ∧ s'.logged.Nodup ∧ s'.logged.length ≤ MAXOPBLOCKS := by
  obtain ⟨blk, hs, hsb, ht, hfields, hspare⟩ := exists_image (n := 3) (by decide)
  have hsize : ((begun blk).dinode 2).size = 1536 := congrArg Fields.size hfields
  have hlen : (List.replicate 1536 (7 : UInt8)).length = 1536 := length_replicate
  have hoff : 1000 ≤ ((begun blk).dinode 2).size := by rw [hsize]; decide
  obtain ⟨hlogs, hfits⟩ := writei_logs hs rfl ht hoff hlen.le
  have hdisk : (begun blk).sb.size.toNat ≤ FSSIZE := by rw [hsb]; decide
  have hok : writeiOk ((begun blk).dinode 2).size 1000
      (UInt32.ofNat (List.replicate 1536 (7 : UInt8)).length) = true := by rw [hsize, hlen]; decide
  rcases exec_writei hs hdisk le_rfl ht (.self _ 2) (by rw [hlen]; decide) hok with hno | hno | ⟨d', s', hx, -⟩
  · rw [hlen] at hno
    exact absurd (hspare.mono ((newBlocks_le ..).trans (by decide))) hno.1
  · exact absurd hno.2 (hfits (by rw [hsb]; decide))
  · rw [hlen] at hx
    exact ⟨begun blk, s', d', hs, ht, hx, hlogs _ hx⟩

end Xv6.Blk
