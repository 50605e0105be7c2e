import Xv6.Blk.WellFormed
import Xv6.Mkfs.Image

/-!
# Is the image well-formed?

The image that `mkfs` leaves, compared with what the kernel relies on
(`Xv6.Blk.WellFormed`). Two things can go wrong (`Xv6.Mkfs.wellFormed_iff`). The size of
the root directory is rounded up to more than its entries take, even when these end at
the end of a block: then the last block of the root directory is missing. And the
program does not refuse a file with the name `.` or `..`: it has a link, but an entry
with this name is not counted.
-/

namespace Xv6.Mkfs

open Lib Blk Fs List UInt32

/-! ### The bitmap -/

theorem isSet_bitmap {n l : ℕ} (hl : l < 4096) : isSet (bitmap n) l = true ↔ l < n := by
  unfold bitmap
  induction n with
  | zero =>
    rw [range_zero, foldl_nil, isSet_iff, Bytes.byte_zero]
    exact iff_of_false (by simp) (Nat.not_lt_zero l)
  | succ n ih =>
    rw [range_succ, foldl_append, foldl_cons, foldl_nil, isSet_setBit _ hl, ih]
    omega

/-! ### The entries of the root directory -/

section Entries

variable {f : ℕ → UInt8} {l : Str} {k m : ℕ} {files : List HostFile}

/-- An entry of a directory whose contents are known. -/
theorem entryAt_eq (hk : 16 * k + 16 ≤ l.length)
    (hf : ∀ j, 16 * k ≤ j → j < 16 * k + 16 → f j = l.getD j 0) :
    entryAt f k = (l.drop (16 * k)).take 16 := by
  refine ext_getElem ?_ fun j h1 h2 => ?_
  · rw [entryAt, length_bytes, length_take, length_drop]
    omega
  · rw [entryAt, length_bytes] at h1
    simp only [entryAt, bytes, List.getElem_map, List.getElem_range, List.getElem_take,
      List.getElem_drop]
    rw [hf _ (by omega) (by omega), getD_eq_getElem _ _ (by omega)]

theorem drop_entries : ∀ {files : List HostFile} {m k : ℕ} (hk : k < files.length),
    ((entries m files).drop (16 * k)).take 16 = dirent (UInt32.ofNat (m + k)) files[k].stored := by
  intro files
  induction files with
  | nil => exact fun hk => absurd hk (Nat.not_lt_zero _)
  | cons f fs ih =>
    intro m k hk
    rw [entries]
    cases k with
    | zero =>
      rw [Nat.mul_zero, drop_zero, take_left' (length_dirent ..)]
      rfl
    | succ k =>
      have hdrop : 16 * (k + 1) = (dirent (UInt32.ofNat m) f.stored).length + 16 * k := by
        rw [length_dirent]
        omega
      rw [hdrop, drop_length_add_append, ih (Nat.lt_of_succ_lt_succ hk),
        List.getElem_cons_succ]
      congr 2
      omega

/-- The entry of a file. -/
theorem drop_rootDir (hk : k < files.length) : ((rootDir files).drop (16 * (k + 2))).take 16 =
    dirent (UInt32.ofNat (k + 2)) files[k].stored := by
  have hdrop : 16 * (k + 2) = (dirent ROOTINO dot ++ dirent ROOTINO dotdot).length + 16 * k := by
    rw [length_append, length_dirent, length_dirent]
    omega
  rw [rootDir, hdrop, drop_length_add_append, drop_entries hk, Nat.add_comm]

theorem take_rootDir (files : List HostFile) : ((rootDir files).drop (16 * 0)).take 16 =
    dirent ROOTINO dot := by
  rw [rootDir, Nat.mul_zero, drop_zero, append_assoc, take_left' (length_dirent ..)]

theorem drop_rootDir_one (files : List HostFile) : ((rootDir files).drop (16 * 1)).take 16 =
    dirent ROOTINO dotdot := by
  rw [rootDir, append_assoc, drop_left' (length_dirent ..),
    take_left' (length_dirent ..)]

end Entries

/-! ### The inodes -/

section Made

variable {files : List HostFile} {s : St} {t d : UInt32} {k i : ℕ}

theorem tree_disk (ht : t < NINODES) : (tree sb s.blk).disk t = (dinode sb s.blk t).fields :=
  if_pos ht

theorem toNat_rootSize (hfew : files.length + 1 < NINODES.toNat) :
    (UInt32.ofNat (rootSize files)).toNat = rootSize files := by
  have hnin : NINODES.toNat = 200 := rfl
  rw [toNat_ofNat', rootSize, length_rootDir]
  unfold BSIZE
  omega

/-- The last block of the root directory is there, unless the entries end with a
block. -/
theorem blocksFor_rootSize (files : List HostFile) :
    blocksFor (rootSize files) = blocksFor (rootDir files).length ↔
      (files.length + 2) % 32 ≠ 0 := by
  rw [rootSize, length_rootDir]
  unfold blocksFor BSIZE
  omega

namespace Made

theorem root_fields (h : Made files s) : (tree sb s.blk).disk ROOTINO =
    ⟨T_DIR, 0, 0, 1, UInt32.ofNat (rootSize files)⟩ := (tree_disk (by decide)).trans h.root

theorem file_lt (hfew : files.length + 1 < NINODES.toNat) (hi : i < files.length) :
    (UInt32.ofNat (i + 2)).toNat = i + 2 ∧ UInt32.ofNat (i + 2) < NINODES := by
  have hnin : NINODES.toNat = 200 := rfl
  have hn : (UInt32.ofNat (i + 2)).toNat = i + 2 := by
    rw [toNat_ofNat']
    omega
  refine ⟨hn, ?_⟩
  rw [lt_iff_toNat_lt, hn]
  omega

variable (h : Made files s)
include h

theorem file_fields (hfew : files.length + 1 < NINODES.toNat)
    (hi : i < files.length) : (tree sb s.blk).disk (UInt32.ofNat (i + 2)) =
      ⟨T_FILE, 0, 0, 1, UInt32.ofNat files[i].content.length⟩ :=
  (tree_disk (file_lt hfew hi).2).trans (h.file i hi).fields

theorem root_type : ((tree sb s.blk).disk ROOTINO).type = T_DIR :=
  congrArg Fields.type h.root_fields

variable (hfew : files.length + 1 < NINODES.toNat)
include hfew

theorem file_type
    (hi : i < files.length) : ((tree sb s.blk).disk (UInt32.ofNat (i + 2))).type = T_FILE :=
  congrArg Fields.type (h.file_fields hfew hi)

/-- The inodes that are allocated. -/
theorem cases
    (ht : ((tree sb s.blk).disk t).type ≠ 0) :
    t = ROOTINO ∨ ∃ i, i < files.length ∧ t = UInt32.ofNat (i + 2) := by
  have hnin : NINODES.toNat = 200 := rfl
  have hmax : MAXINODES = 208 := rfl
  by_cases hlt : t < NINODES
  · rw [tree_disk hlt] at ht
    rw [lt_iff_toNat_lt] at hlt
    have hin : ¬(t.toNat = 0 ∨ files.length + 1 < t.toNat) :=
      fun hc => ht (h.rest t hc (by omega))
    by_cases hone : t.toNat = 1
    · exact .inl (UInt32.toNat_inj.mp hone)
    · refine .inr ⟨t.toNat - 2, by omega, ?_⟩
      rw [← UInt32.toNat_inj, (file_lt hfew (by omega)).1]
      omega
  · exact absurd (congrArg Fields.type (if_neg hlt)) ht

theorem eq_root
    (ht : ((tree sb s.blk).disk t).type = T_DIR) : t = ROOTINO := by
  rcases h.cases hfew (by rw [ht]; decide) with rfl | ⟨i, hi, rfl⟩
  · rfl
  · rw [h.file_type hfew hi] at ht
    exact absurd ht (by decide)

theorem inodes_eq :
    inodes sb s.blk = table s.blk (files.length + 1) := by
  funext t
  unfold inodes table
  refine if_congr ⟨fun ht => ?_, fun ht => ?_⟩ rfl rfl
  · have hty : ((tree sb s.blk).disk t).type ≠ 0 := by
      rw [tree_disk ht.1]
      exact ht.2
    rcases h.cases hfew hty with rfl | ⟨i, hi, rfl⟩
    · exact ⟨le_rfl, Nat.le_add_left ..⟩
    · rw [(file_lt hfew hi).1]
      omega
  · have hlt : t < NINODES := by
      rw [lt_iff_toNat_lt]
      omega
    refine ⟨hlt, ?_⟩
    have hty : ((tree sb s.blk).disk t).type ≠ 0 := by
      by_cases hone : t.toNat = 1
      · obtain rfl : t = ROOTINO := UInt32.toNat_inj.mp hone
        rw [h.root_type]
        decide
      · have hi : t.toNat - 2 < files.length := by omega
        have heq : t = UInt32.ofNat (t.toNat - 2 + 2) := by
          rw [← UInt32.toNat_inj, (file_lt hfew hi).1]
          omega
        rw [heq, h.file_type hfew hi]
        decide
    rwa [tree_disk hlt] at hty

/-! ### The blocks -/

/-- **The blocks are in order** unless the root directory is short of one. -/
theorem blocksOk_iff :
    BlocksOk sb s.blk ↔ (files.length + 2) % 32 ≠ 0 := by
  have hroot : (dinode sb s.blk ROOTINO).size.toNat = rootSize files := by
    have heq : (dinode sb s.blk ROOTINO).size = UInt32.ofNat (rootSize files) :=
      congrArg Fields.size h.root
    rw [heq, toNat_rootSize hfew]
  rw [← blocksFor_rootSize]
  constructor
  · intro hok
    have hfull := hok.full ROOTINO (by decide) (by
      rw [show (dinode sb s.blk ROOTINO).type = T_DIR from congrArg Fields.type h.root]
      decide)
    rw [hroot] at hfull
    exact hfull.unique h.entries.full
  · intro hblocks
    have hfirst : firstData sb = nmeta := by decide
    refine ⟨fun t ht hty => ?_, fun i j x hi hj => ?_, fun i x hi => ?_, fun x hx => ?_⟩
    · rw [← show ((tree sb s.blk).disk t).type = (dinode sb s.blk t).type from
        congrArg Fields.type (tree_disk ht)] at hty
      rcases h.cases hfew hty with rfl | ⟨i, hi, rfl⟩
      · rw [hroot, hblocks]
        exact h.entries.full
      · have hnode := h.file i hi
        have heq : (dinode sb s.blk (UInt32.ofNat (i + 2))).size =
            UInt32.ofNat files[i].content.length := congrArg Fields.size hnode.fields
        have hlen : files[i].content.length ≤ 71680 := hnode.length
        have hsize : (dinode sb s.blk (UInt32.ofNat (i + 2))).size.toNat =
            files[i].content.length := by
          rw [heq, toNat_ofNat']
          omega
        rw [hsize]
        exact hnode.holds.full
    · rw [h.inodes_eq hfew] at hi hj
      exact h.alloc.inj hi hj
    · rw [h.inodes_eq hfew] at hi
      have hx := h.alloc.of_slot hi
      rw [hfirst]
      refine ⟨hx.1, ?_⟩
      have hlt := lt_iff_toNat_lt.mp hx.2
      exact lt_iff_toNat_lt.mpr (lt_of_lt_of_le hlt h.hi)
    · have hx' : x.toNat < 1000 := lt_iff_toNat_lt.mp hx
      have hbb : BBLOCK sb x = sb.bmapstart := by
        have h1 : BPB.toNat = 4096 := rfl
        have h2 : sb.bmapstart.toNat = 58 := rfl
        rw [← UInt32.toNat_inj, BBLOCK, UInt32.toNat_add, UInt32.toNat_div, h1, h2]
        omega
      have hmod : x.toNat % BPB.toNat = x.toNat := Nat.mod_eq_of_lt (by
        have h1 : BPB.toNat = 4096 := rfl
        omega)
      rw [h.inodes_eq hfew, ← h.alloc.used_iff, Marked, hbb, h.bitmap, hmod,
        isSet_bitmap (by omega), hfirst, ← lt_iff_toNat_lt]
      refine ⟨fun hlt => ?_, ?_⟩
      · rcases lt_or_ge x.toNat nmeta.toNat with hlo | hlo
        · exact .inl (lt_iff_toNat_lt.mpr hlo)
        · exact .inr ⟨le_iff_toNat_le.mpr hlo, hlt⟩
      · rintro (hlo | hx)
        · exact UInt32.lt_of_lt_of_le hlo h.lo
        · exact hx.2

omit hfew

/-! ### The root directory -/

theorem content {j : ℕ} (hj : j / BSIZE < blocksFor (rootDir files).length) :
    (tree sb s.blk).data ROOTINO j = (rootDir files).getD j 0 :=
  (if_pos hj).symm.trans (congrFun h.entries.bytes j)

theorem entryAt_root (hk : k < files.length + 2) :
    entryAt ((tree sb s.blk).data ROOTINO) k = ((rootDir files).drop (16 * k)).take 16 := by
  have hlen := length_rootDir files
  refine entryAt_eq (by omega) fun j _ hj => h.content ?_
  unfold blocksFor BSIZE
  omega

theorem entryAt_file (hi : i < files.length) :
    entryAt ((tree sb s.blk).data ROOTINO) (i + 2) =
      dirent (UInt32.ofNat (i + 2)) files[i].stored := by
  rw [h.entryAt_root (by omega), drop_rootDir hi]

/-- After the entries for the files, the root directory is empty. -/
theorem entInum_rest (hround : (files.length + 2) % 32 ≠ 0)
    (hk : files.length + 2 ≤ k) (hlt : 16 * k < rootSize files) :
    entInum ((tree sb s.blk).data ROOTINO) k = 0 := by
  have hblocks := (blocksFor_rootSize files).mpr hround
  have hlen := length_rootDir files
  have hzero : ∀ j < 16, (tree sb s.blk).data ROOTINO (16 * k + j) = 0 := by
    intro j hj
    rw [h.content, getD_eq_default _ _ (by omega)]
    rw [← hblocks]
    unfold rootSize at hlt ⊢
    unfold blocksFor BSIZE at *
    omega
  rw [entInum, deInum, entryAt, getD_bytes (by omega), getD_bytes (by omega), hzero 0 (by omega),
    hzero 1 (by omega)]
  rfl

include hfew

/-- **The names on the image** are those of the files. -/
theorem names_iff
    (hround : (files.length + 2) % 32 ≠ 0) : (tree sb s.blk).Names d k t ↔
      d = ROOTINO ∧ ∃ i, ∃ hi : i < files.length, k = i + 2 ∧ t = UInt32.ofNat (i + 2) ∧
        ¬IsDots files[i].stored := by
  have hinum : ∀ i, i < files.length → (UInt32.ofNat (i + 2)).toNat < 65536 := fun i hi => by
    have hnin : NINODES.toNat = 200 := rfl
    rw [(file_lt hfew hi).1]
    omega
  constructor
  · rintro ⟨hdir, hlt, rfl, hne, hname⟩
    obtain rfl := h.eq_root hfew hdir
    rw [h.root_fields] at hlt
    rw [toNat_rootSize hfew] at hlt
    refine ⟨rfl, ?_⟩
    by_cases hk : k < files.length + 2
    · have h2 : 2 ≤ k := by
        by_contra hk2
        refine hname ?_
        unfold entName
        rw [h.entryAt_root hk]
        have : k = 0 ∨ k = 1 := by omega
        rcases this with rfl | rfl
        · rw [take_rootDir]
          exact .inl (sameName_dirent ..)
        · rw [drop_rootDir_one]
          exact .inr (sameName_dirent ..)
      have hi : k - 2 < files.length := by omega
      have heq := h.entryAt_file hi
      rw [Nat.sub_add_cancel h2] at heq
      refine ⟨k - 2, hi, by omega, ?_, fun hd => hname ?_⟩
      · rw [entInum, heq, Nat.sub_add_cancel h2, deInum_dirent]
        have := hinum (k - 2) hi
        rwa [Nat.sub_add_cancel h2] at this
      · rw [entName, heq]
        exact (sameName_dirent ..).isDots hd
    · exact absurd (h.entInum_rest hround (by omega) hlt) hne
  · rintro ⟨rfl, i, hi, rfl, rfl, hname⟩
    have heq := h.entryAt_file hi
    refine ⟨by rw [h.root_fields], ?_, ?_, ?_, ?_⟩
    · rw [h.root_fields]
      rw [toNat_rootSize hfew, rootSize, length_rootDir]
      unfold BSIZE
      omega
    · rw [entInum, heq, deInum_dirent _ (hinum i hi)]
    · rw [ne_eq, ← UInt32.toNat_inj, (file_lt hfew hi).1]
      exact Nat.succ_ne_zero _
    · rw [entName, heq]
      exact fun hd => hname ((sameName_dirent ..).symm.isDots hd)

theorem dots :
    (tree sb s.blk).Dots ROOTINO := by
  have h0 := h.entryAt_root (k := 0) (by omega)
  have h1 := h.entryAt_root (k := 1) (by omega)
  rw [take_rootDir] at h0
  rw [drop_rootDir_one] at h1
  have hsize : ((tree sb s.blk).disk ROOTINO).size.toNat = rootSize files := by
    rw [h.root_fields]
    exact toNat_rootSize hfew
  refine ⟨?_, ?_, ?_, ?_, ?_, ?_⟩
  · rw [hsize, rootSize]
    unfold BSIZE
    omega
  · rw [hsize, rootSize]
    unfold BSIZE
    omega
  · rw [entInum, h0]
    rfl
  · rw [entName, h0]
    exact sameName_dirent ..
  · rw [entInum, h1]
    decide
  · rw [entName, h1]
    exact sameName_dirent ..

/-! ### The links -/

theorem exact_root
    (hround : (files.length + 2) % 32 ≠ 0) : (tree sb s.blk).Exact ROOTINO := by
  refine ⟨0, 0, counts_zero fun x hx => ?_, counts_zero fun u hu => ?_, ?_⟩
  · obtain ⟨-, i, hi, -, heq, -⟩ := (h.names_iff hfew hround).mp hx
    have := congrArg UInt32.toNat heq
    rw [(file_lt hfew hi).1] at this
    exact absurd this (by have : ROOTINO.toNat = 1 := rfl; omega)
  · obtain ⟨hdir, k, hk⟩ := hu
    obtain ⟨-, i, hi, -, rfl, -⟩ := (h.names_iff hfew hround).mp hk
    rw [h.file_type hfew hi] at hdir
    exact absurd hdir (by decide)
  · rw [h.root_fields]
    rfl

/-- The one link of a file is counted unless its name is not. -/
theorem exact_file_iff
    (hround : (files.length + 2) % 32 ≠ 0) (hi : i < files.length) :
    (tree sb s.blk).Exact (UInt32.ofNat (i + 2)) ↔ ¬IsDots files[i].stored := by
  have hroot : UInt32.ofNat (i + 2) ≠ ROOTINO := by
    intro hc
    have := congrArg UInt32.toNat hc
    rw [(file_lt hfew hi).1] at this
    have hone : ROOTINO.toNat = 1 := rfl
    omega
  have hbelow : ∀ u, ¬(tree sb s.blk).Below (UInt32.ofNat (i + 2)) u := by
    rintro u ⟨-, k, hk⟩
    exact hroot ((h.names_iff hfew hround).mp hk).1
  have hnames : ∀ x : UInt32 × ℕ, (tree sb s.blk).Names x.1 x.2 (UInt32.ofNat (i + 2)) ↔
      x = (ROOTINO, i + 2) ∧ ¬IsDots files[i].stored := by
    intro x
    rw [h.names_iff hfew hround]
    constructor
    · rintro ⟨hd, j, hj, hk, heq, hname⟩
      have := congrArg UInt32.toNat heq
      rw [(file_lt hfew hi).1, (file_lt hfew hj).1] at this
      obtain rfl : i = j := by omega
      exact ⟨Prod.ext hd hk, hname⟩
    · rintro ⟨rfl, hname⟩
      exact ⟨rfl, i, hi, rfl, rfl, hname⟩
  have hlink : ((tree sb s.blk).disk (UInt32.ofNat (i + 2))).nlink.toInt = 1 := by
    rw [h.file_fields hfew hi]
    rfl
  constructor
  · rintro ⟨m, n, hm, hn, heq⟩ hdots
    rw [hlink, if_neg hroot] at heq
    obtain rfl := hm.unique (counts_zero fun x hx => ((hnames x).mp hx).2 hdots)
    obtain rfl := hn.unique (counts_zero hbelow)
    omega
  · intro hname
    refine ⟨1, 0, ⟨{(ROOTINO, i + 2)}, fun x => ?_, rfl⟩, counts_zero hbelow, ?_⟩
    · exact Finset.mem_singleton.trans ((and_iff_left hname).symm.trans (hnames x).symm)
    · rw [hlink, if_neg hroot]
      rfl

/-- **When the image is well-formed.** -/
theorem wellFormed_iff :
    Blk.WellFormed sb s.blk ↔ (files.length + 2) % 32 ≠ 0 ∧ ∀ f ∈ files, ¬IsDots f.stored := by
  constructor
  · intro hwf
    have hround := (h.blocksOk_iff hfew).mp hwf.toBlocksOk
    refine ⟨hround, fun f hf => ?_⟩
    obtain ⟨i, hi, rfl⟩ := List.getElem_of_mem hf
    refine (h.exact_file_iff hfew hround hi).mp (hwf.links _ ?_)
    rw [h.file_type hfew hi]
    decide
  · rintro ⟨hround, hname⟩
    refine ⟨(h.blocksOk_iff hfew).mpr hround, fun t ht => ?_, fun t ht => ?_⟩
    · rw [h.eq_root hfew ht]
      exact h.dots hfew
    · rcases h.cases hfew ht with rfl | ⟨i, hi, rfl⟩
      · exact h.exact_root hfew hround
      · exact (h.exact_file_iff hfew hround hi).mpr (hname _ (List.getElem_mem hi))

end Made

end Made

/-! ### The run -/

theorem addFile_readable {rootino : UInt32} {f : HostFile} {s : St} {x : Unit × St}
    (h : (addFile rootino f).exec handle s = .ok x) : f.Readable := by
  obtain ⟨_, s', hassert, h⟩ := Prog.exec_bind_eq_ok h
  refine ⟨fun hc => ?_, fun hnone => ?_⟩
  · have hpanic : assert (slash ∉ f.name) = panic "assert" := if_neg (not_not.mpr hc)
    rw [hpanic] at hassert
    cases hassert
  · rw [hnone] at h
    cases h

theorem addFiles_readable {rootino : UInt32} : ∀ {files : List HostFile} {s : St} {x : Unit × St},
    (addFiles rootino files).exec handle s = .ok x → ∀ f ∈ files, f.Readable := by
  intro files
  induction files with
  | nil => exact fun _ f hf => absurd hf not_mem_nil
  | cons f fs ih =>
    intro s x h
    obtain ⟨a, t, h1, h2⟩ := Prog.exec_bind_eq_ok h
    intro g hg
    rcases mem_cons.mp hg with rfl | hg
    · exact addFile_readable h1
    · exact ih h2 g hg

/-- A run that succeeds has read all files. -/
theorem main_readable {files : List HostFile} {s : St}
    (h : (main files).exec handle St.init = .ok ((), s)) : ∀ f ∈ files, f.Readable := by
  unfold main at h
  obtain ⟨-, s₁, -, h⟩ := Prog.exec_bind_eq_ok h
  obtain ⟨-, s₂, -, h⟩ := Prog.exec_bind_eq_ok h
  obtain ⟨r, s₃, -, h⟩ := Prog.exec_bind_eq_ok h
  obtain ⟨-, s₄, -, h⟩ := Prog.exec_bind_eq_ok h
  obtain ⟨-, s₅, -, h⟩ := Prog.exec_bind_eq_ok h
  obtain ⟨-, s₆, -, h⟩ := Prog.exec_bind_eq_ok h
  obtain ⟨a, s₇, h, -⟩ := Prog.exec_bind_eq_ok h
  exact addFiles_readable h

/-- **The image that `mkfs` writes** for files that fit on it is well-formed if and only if
the entries of the root directory do not end with a block and no file is called `.` or
`..`. There is such an image when all files can be read. -/
theorem image_wellFormed_iff {files : List HostFile} (hfit : Fits files)
    (hfew : files.length + 1 < NINODES.toNat) :
    ((∃ s, (main files).exec handle St.init = .ok ((), s)) ↔ ∀ f ∈ files, f.Readable) ∧
      ∀ s, (main files).exec handle St.init = .ok ((), s) →
        (WellFormed (Superblock.decode (s.blk 1)) s.blk ↔
          (files.length + 2) % 32 ≠ 0 ∧ ∀ f ∈ files, ¬IsDots f.stored) := by
  refine ⟨⟨fun ⟨s, hs⟩ => main_readable hs, fun hread => ?_⟩, fun s hs => ?_⟩
  · obtain ⟨s, hs, -⟩ := main_made hfit hread
    exact ⟨s, hs⟩
  · obtain ⟨s', hs', hmade⟩ := main_made hfit (main_readable hs)
    obtain rfl : s = s' := by
      rw [hs] at hs'
      exact (Prod.mk.inj (Effect.ok.inj hs')).2
    rw [hmade.super, Superblock.decode_encode]
    exact hmade.wellFormed_iff hfew

theorem image_wellFormed_twoFiles : ∃ s, (main twoFiles).exec handle St.init = .ok ((), s) ∧
    WellFormed (Superblock.decode (s.blk 1)) s.blk := by
  have h := image_wellFormed_iff fits_twoFiles (by decide)
  obtain ⟨s, hs⟩ := h.1.mpr readable_twoFiles
  exact ⟨s, hs, (h.2 s hs).mpr ⟨by decide, by decide⟩⟩

/-- With thirty files, the root directory is short of a block. -/
theorem not_wellFormed_thirty : ((emptyFiles 30).map HostFile.stored).Nodup ∧
    Fits (emptyFiles 30) ∧ ∃ s, (main (emptyFiles 30)).exec handle St.init = .ok ((), s) ∧
      ¬WellFormed (Superblock.decode (s.blk 1)) s.blk := by
  have hfit : Fits (emptyFiles 30) := fits_emptyFiles (by decide)
  obtain ⟨s, hs, hmade⟩ := main_made hfit (readable_emptyFiles 30)
  refine ⟨by decide, hfit, s, hs, fun hwf => ?_⟩
  rw [hmade.super, Superblock.decode_encode] at hwf
  exact absurd rfl ((hmade.wellFormed_iff (by decide)).mp hwf).1

end Xv6.Mkfs
