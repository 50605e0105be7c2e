import Xv6.Mkfs.Build

/-!
# The run of mkfs

When the files fit on the image (`Xv6.Mkfs.Fits`) and can be read, `mkfs` succeeds, and
the image is the root directory, with an entry for each file, and the files after it
(`Xv6.Mkfs.main_made`). The size of the root directory is not that of its entries: it
is made a multiple of the size of a block, and is always larger than before.
-/

namespace Xv6.Mkfs

open Lib Function Blk Fs List

/-- The contents of a file. -/
def HostFile.content (f : HostFile) : Str := (f.chunks.getD []).flatten

/-- `mkfs` accepts the name of the file and can read the file. -/
def HostFile.Readable (f : HostFile) : Prop := slash ∉ f.name ∧ f.chunks ≠ none

/-- The entries for some files, the first of which has inode number `k`. -/
def entries : ℕ → List HostFile → Str
  | _, [] => []
  | k, f :: fs => dirent (UInt32.ofNat k) f.stored ++ entries (k + 1) fs

/-- The entries of the root directory. -/
def rootDir (files : List HostFile) : Str :=
  (dirent ROOTINO dot ++ dirent ROOTINO dotdot) ++ entries 2 files

/-- A root directory, and files. -/
def nodes (r : Str) (cs : List Str) : List Node := (T_DIR, r) :: cs.map fun c => (T_FILE, c)

/-- The number of blocks for the contents of files. -/
def costs (cs : List Str) : ℕ := (cs.map fun c => cost (blocksFor c.length)).sum

/-- **The files fit on the image.** -/
structure Fits (files : List HostFile) : Prop where
  few : files.length + 1 < MAXINODES
  size : ∀ f ∈ files, f.content.length ≤ MAXFILE * BSIZE
  space : nmeta.toNat + (cost (blocksFor (rootDir files).length) +
    costs (files.map HostFile.content)) ≤ FSSIZE

section Nodes

variable {r r' : Str} {c c' : Str} {cs ds : List Str} {files : List HostFile}

theorem length_nodes : (nodes r cs).length = cs.length + 1 := by
  rw [nodes, length_cons, length_map]

theorem nodes_concat : nodes r (cs ++ [c]) = nodes r cs ++ [(T_FILE, c)] := by
  rw [nodes, map_append]
  rfl

theorem costs_append : costs (cs ++ ds) = costs cs + costs ds := by
  rw [costs, map_append, sum_append]
  rfl

theorem costs_singleton : costs [c] = cost (blocksFor c.length) := Nat.add_zero _

theorem total_nodes : total (nodes r cs) = cost (blocksFor r.length) + costs cs := by
  rw [total, nodes, map_cons, sum_cons, map_map]
  rfl

theorem cost_append (c d : Str) : cost (blocksFor c.length) ≤ cost (blocksFor (c ++ d).length) := by
  rw [length_append]
  exact cost_mono (blocksFor_mono (Nat.le_add_right ..))

theorem length_entries : ∀ {files : List HostFile} {k : ℕ},
    (entries k files).length = 16 * files.length := by
  intro files
  induction files with
  | nil => exact fun {_} => rfl
  | cons f fs ih =>
    intro k
    rw [entries, length_append, length_dirent, ih, length_cons]
    omega

theorem length_rootDir (files : List HostFile) :
    (rootDir files).length = 16 * (files.length + 2) := by
  rw [rootDir, length_append, length_append, length_dirent, length_dirent,
    length_entries]
  omega

end Nodes

/-! ### The files -/

section Files

variable {s : St} {L R : List Node} {x : Node} {p r : Str} {cs : List Str} {c : Str}
  {Q : Unit → St → Prop}

/-- **`iappend`** for a node in the middle. -/
theorem wp_iappend_mid (h : Built (L ++ x :: R) s) (hmax : (x.2 ++ p).length ≤ MAXFILE * BSIZE)
    (hfit : nmeta.toNat + total (L ++ (x.1, x.2 ++ p) :: R) ≤ FSSIZE)
    (hQ : ∀ s', Built (L ++ (x.1, x.2 ++ p) :: R) s' → Q () s') :
    totalLogic.wp (iappend (UInt32.ofNat (L.length + 1)) p) Q s := by
  have hlt : L.length < (L ++ x :: R).length := by
    rw [length_append, length_cons]
    omega
  have hget : (L ++ x :: R)[L.length] = x := by simp
  have hset : (L ++ x :: R).set L.length (x.1, x.2 ++ p) = L ++ (x.1, x.2 ++ p) :: R := by
    rw [set_append_right _ _ le_rfl, Nat.sub_self]
    rfl
  refine wp_iappend h hlt ?_ ?_ ?_
  · rwa [hget]
  · rwa [hget, hset]
  · rwa [hget, hset]

/-- The entries of the root directory are appended to it. -/
theorem wp_iappend_root (h : Built (nodes r cs) s) (hmax : (r ++ p).length ≤ MAXFILE * BSIZE)
    (hfit : nmeta.toNat + (cost (blocksFor (r ++ p).length) + costs cs) ≤ FSSIZE)
    (hQ : ∀ s', Built (nodes (r ++ p) cs) s' → Q () s') :
    totalLogic.wp (iappend ROOTINO p) Q s := by
  rw [← total_nodes] at hfit
  exact wp_iappend_mid (L := []) h hmax hfit hQ

/-- The contents of a file are appended to the last one. -/
theorem wp_iappend_last (h : Built (nodes r (cs ++ [c])) s)
    (hmax : (c ++ p).length ≤ MAXFILE * BSIZE)
    (hfit : nmeta.toNat + (cost (blocksFor r.length) + costs (cs ++ [c ++ p])) ≤ FSSIZE)
    (hQ : ∀ s', Built (nodes r (cs ++ [c ++ p])) s' → Q () s') :
    totalLogic.wp (iappend (UInt32.ofNat (cs.length + 2)) p) Q s := by
  rw [← total_nodes, nodes_concat] at hfit
  rw [nodes_concat] at h hQ
  have := wp_iappend_mid h hmax hfit hQ
  rwa [length_nodes] at this

theorem wp_appendAll : ∀ {ps : List Str} {c : Str} {s : St},
    Built (nodes r (cs ++ [c])) s → (c ++ ps.flatten).length ≤ MAXFILE * BSIZE →
    nmeta.toNat + (cost (blocksFor r.length) + costs (cs ++ [c ++ ps.flatten])) ≤ FSSIZE →
    (∀ s', Built (nodes r (cs ++ [c ++ ps.flatten])) s' → Q () s') →
    totalLogic.wp (appendAll (UInt32.ofNat (cs.length + 2)) ps) Q s := by
  intro ps
  induction ps with
  | nil =>
    intro c s h _ _ hQ
    rw [flatten_nil, append_nil] at hQ
    exact hQ s h
  | cons p ps ih =>
    intro c s h hmax hfit hQ
    rw [flatten_cons, ← append_assoc] at hmax hfit hQ
    refine .bind (wp_iappend_last h ?_ ?_ fun s' h' => ih h' hmax hfit hQ)
    · rw [length_append] at hmax
      omega
    · have hcost := cost_append (c ++ p) ps.flatten
      rw [costs_append, costs_singleton] at hfit ⊢
      omega

/-- **A file is added.** -/
theorem wp_addFile {f : HostFile} (h : Built (nodes r cs) s) (hf : f.Readable)
    (hfew : cs.length + 2 < MAXINODES) (hsize : f.content.length ≤ MAXFILE * BSIZE)
    (hroot : (r ++ dirent (UInt32.ofNat (cs.length + 2)) f.stored).length ≤ MAXFILE * BSIZE)
    (hfit : nmeta.toNat + (cost (blocksFor (r ++ dirent (UInt32.ofNat (cs.length + 2))
      f.stored).length) + costs (cs ++ [f.content])) ≤ FSSIZE)
    (hQ : ∀ s', Built (nodes (r ++ dirent (UInt32.ofNat (cs.length + 2)) f.stored)
      (cs ++ [f.content])) s' → Q () s') :
    totalLogic.wp (addFile ROOTINO f) Q s := by
  unfold addFile
  refine .bind (wp_assert (fun hc => absurd hf.1 hc) fun _ => ?_)
  have hcontent : f.content = (f.chunks.getD []).flatten := rfl
  cases hch : f.chunks with
  | none => exact absurd hch hf.2
  | some ps =>
    rw [hch] at hcontent
    change f.content = ps.flatten at hcontent
    rw [hcontent] at hsize hfit hQ
    refine .bind (wp_ialloc h (by rw [length_nodes]; exact hfew) fun s₁ h₁ => ?_)
    have hinum : (nodes r cs).length + 1 = cs.length + 2 := congrArg (· + 1) length_nodes
    rw [← nodes_concat] at h₁
    rw [hinum]
    rw [costs_append, costs_singleton] at hfit
    have hcost := cost_append [] ps.flatten
    rw [nil_append] at hcost
    refine .bind (wp_iappend_root h₁ hroot ?_ fun s₂ h₂ => ?_)
    · rw [costs_append, costs_singleton]
      omega
    · refine wp_appendAll h₂ hsize ?_ hQ
      rwa [costs_append, costs_singleton]

theorem wp_addFiles : ∀ {files : List HostFile} {r : Str} {cs : List Str}
    {s : St}, Built (nodes r cs) s → (∀ f ∈ files, f.Readable) →
    cs.length + files.length + 1 < MAXINODES →
    (∀ f ∈ files, f.content.length ≤ MAXFILE * BSIZE) →
    (r ++ entries (cs.length + 2) files).length ≤ MAXFILE * BSIZE →
    nmeta.toNat + (cost (blocksFor (r ++ entries (cs.length + 2) files).length) +
      costs (cs ++ files.map HostFile.content)) ≤ FSSIZE →
    (∀ s', Built (nodes (r ++ entries (cs.length + 2) files)
      (cs ++ files.map HostFile.content)) s' → Q () s') →
    totalLogic.wp (addFiles ROOTINO files) Q s := by
  intro files
  induction files with
  | nil =>
    intro r cs s h _ _ _ _ _ hQ
    rw [entries, map_nil, append_nil, append_nil] at hQ
    exact hQ s h
  | cons f fs ih =>
    intro r cs s h hread hfew hsize hroot hfit hQ
    rw [length_cons] at hfew
    rw [entries, ← append_assoc] at hroot hfit hQ
    rw [map_cons, append_cons] at hfit hQ
    have hlen : (cs ++ [f.content]).length + 2 = cs.length + 2 + 1 := by
      rw [length_append, length_singleton]
    have hcost := cost_append (r ++ dirent (UInt32.ofNat (cs.length + 2)) f.stored)
      (entries (cs.length + 2 + 1) fs)
    refine .bind (wp_addFile h (hread f mem_cons_self) (by omega)
      (hsize f mem_cons_self) ?_ ?_ fun s' h' => ?_)
    · rw [length_append] at hroot
      omega
    · rw [costs_append] at hfit
      omega
    · refine ih h' (fun g hg => hread g (mem_cons_of_mem f hg)) (by omega)
        (fun g hg => hsize g (mem_cons_of_mem f hg)) ?_ ?_ ?_
      · rwa [hlen]
      · rwa [hlen]
      · rwa [hlen]

end Files

/-! ### The image -/

/-- The size that the root directory gets. -/
def rootSize (files : List HostFile) : ℕ := ((rootDir files).length / BSIZE + 1) * BSIZE

/-- **The image for some files.** -/
structure Made (files : List HostFile) (s : St) : Prop where
  super : s.blk 1 = sb.encode
  root : (dinode sb s.blk ROOTINO).fields = ⟨T_DIR, 0, 0, 1, UInt32.ofNat (rootSize files)⟩
  entries : Holds s.blk (dinode sb s.blk ROOTINO).addrs (rootDir files)
  file : ∀ i (hi : i < files.length),
    IsNode s.blk (UInt32.ofNat (i + 2)) (T_FILE, files[i].content)
  rest : ∀ t, t.toNat = 0 ∨ files.length + 1 < t.toNat → t.toNat < MAXINODES →
    (dinode sb s.blk t).type = 0
  lo : nmeta ≤ s.freeblock
  hi : s.freeblock.toNat ≤ FSSIZE
  freeblock : s.freeblock.toNat = nmeta.toNat +
    (cost (blocksFor (rootDir files).length) + costs (files.map HostFile.content))
  alloc : Alloc (refs s.blk (table s.blk (files.length + 1))) (Assigned s)
  bitmap : s.blk sb.bmapstart = bitmap s.freeblock.toNat

section Main

variable {s : St} {files : List HostFile}

/-- There is nothing on the image yet. -/
theorem Fresh.built (h : Fresh FSSIZE s) : Built [] (s.wsect .main 1 sb.encode) := by
  have hone : sector 1 = 1 := sector_eq (by decide)
  have hupd : (s.wsect .main 1 sb.encode).blk = update s.blk 1 sb.encode :=
    congrArg (update s.blk · sb.encode) hone
  have hblk : ∀ x, x ≠ 1 → (s.wsect .main 1 sb.encode).blk x = fun _ => 0 := by
    intro x hx
    rw [hupd, update_of_ne hx, h.blk]
  have hlen : (s.wsect .main 1 sb.encode).length = FSSIZE := by
    change max s.length _ = _
    rw [h.length, hone]
    decide
  refine ⟨⟨hlen, ?_, ?_, fun x hx _ => hblk x ?_, ⟨fun {i j x} hi => ?_, fun {x} => ?_⟩⟩, ?_,
    by decide, ?_, fun i hi => absurd hi (Nat.not_lt_zero i), fun t _ ht => ?_, ?_⟩
  · exact (congrArg (nmeta ≤ ·) h.freeblock).mpr (UInt32.le_refl _)
  · change s.freeblock.toNat ≤ FSSIZE
    rw [h.freeblock]
    decide
  · rintro rfl
    change s.freeblock ≤ 1 at hx
    rw [h.freeblock] at hx
    exact absurd hx (by decide)
  · obtain ⟨a, ha, -⟩ := refs_eq_some.mp hi
    rw [table, length_nil, if_neg (by omega)] at ha
    cases ha
  · refine iff_of_false (fun hx => ?_) ?_
    · have hlt : x < s.freeblock := hx.2
      rw [h.freeblock] at hlt
      exact absurd hx.1 (UInt32.not_le.mpr hlt)
    · rintro ⟨i, hi⟩
      obtain ⟨a, ha, -⟩ := refs_eq_some.mp hi
      rw [table, length_nil, if_neg (by omega)] at ha
      cases ha
  · change s.freeinode.toNat = _
    rw [h.freeinode]
    rfl
  · rw [hupd, update_self]
  · rw [dinode, hblk]
    · simp only [getDinode, Dinode.decode, Bytes.byte_zero]
      rfl
    · intro hc
      have := congrArg UInt32.toNat hc
      rw [toNat_IBLOCK] at this
      have hone : (1 : UInt32).toNat = 1 := rfl
      omega
  · change s.freeblock.toNat = _
    rw [h.freeblock]
    rfl

/-- The bitmap is not in the way of an inode. -/
theorem dinode_update_bmap {blk : Disk} {b : Block} {t : UInt32} (ht : t.toNat < MAXINODES) :
    dinode sb (update blk sb.bmapstart b) t = dinode sb blk t := by
  rw [dinode, dinode, update_of_ne]
  intro hc
  have := congrArg UInt32.toNat hc
  rw [toNat_IBLOCK] at this
  have hmap : sb.bmapstart.toNat = 58 := rfl
  unfold MAXINODES at ht
  omega

/-- **The size of the root directory is changed.** -/
theorem wp_fixRoot {Q : Unit → St → Prop}
    (h : Built (nodes (rootDir files) (files.map HostFile.content)) s)
    (hQ : ∀ s', s'.blk = putInode s.blk ROOTINO ((dinode sb s.blk ROOTINO).resize
      (UInt32.ofNat (rootSize files)) (dinode sb s.blk ROOTINO).addrs) → s'.length = FSSIZE →
      s'.freeblock = s.freeblock → Q () s') : totalLogic.wp (fixRoot ROOTINO) Q s := by
  have hfew := h.few
  rw [length_nodes, length_map] at hfew
  have hsize : (dinode sb s.blk ROOTINO).size.toNat = (rootDir files).length := by
    have hnode := h.node 0 (by rw [length_nodes]; omega)
    have heq : (dinode sb s.blk ROOTINO).size = UInt32.ofNat (rootDir files).length :=
      congrArg Fields.size hnode.fields
    rw [heq, UInt32.toNat_ofNat', length_rootDir]
    unfold MAXINODES at hfew
    omega
  unfold fixRoot
  refine .bind (wp_rinode h.room.length (by decide) ?_)
  rw [hsize]
  exact wp_winode h.room.length (by decide) fun s' hblk hlen hfree _ => hQ s' hblk hlen hfree

/-- **The bitmap is written**, and the image is complete. -/
theorem made_of_built {s' : St}
    (h : Built (nodes (rootDir files) (files.map HostFile.content)) s)
    (hblk : s'.blk = update (putInode s.blk ROOTINO ((dinode sb s.blk ROOTINO).resize
      (UInt32.ofNat (rootSize files)) (dinode sb s.blk ROOTINO).addrs)) sb.bmapstart
        (bitmap s.freeblock.toNat)) (hlen : s'.length = FSSIZE)
    (hfree : s'.freeblock = s.freeblock) : Made files s' := by
  have hn : (nodes (rootDir files) (files.map HostFile.content)).length = files.length + 1 := by
    rw [length_nodes, length_map]
  have hfew := h.few
  have hkeep : ∀ y, nmeta ≤ y → s'.blk y = s.blk y := fun y hy => by
    rw [hblk, update_of_ne, putInode_of_le (by decide) y hy]
    rintro rfl
    exact absurd hy (by decide)
  have hroot : dinode sb s'.blk ROOTINO = (dinode sb s.blk ROOTINO).resize
      (UInt32.ofNat (rootSize files)) (dinode sb s.blk ROOTINO).addrs := by
    rw [hblk, dinode_update_bmap (by decide), dinode_putInode]
  have hother : ∀ t, t ≠ ROOTINO → t.toNat < MAXINODES → dinode sb s'.blk t = dinode sb s.blk t :=
    fun t ht htn => by rw [hblk, dinode_update_bmap htn, dinode_putInode_of_ne ht]
  have htable : table s'.blk (files.length + 1) = table s.blk (files.length + 1) := by
    funext t
    unfold table
    split
    · by_cases ht : t = ROOTINO
      · rw [ht, hroot]
        rfl
      · rw [hother t ht (by omega)]
    · rfl
  have hroom := h.room.keep hkeep hlen hfree
  refine ⟨?_, ?_, ?_, fun i hi => ?_, fun t ht htn => ?_, hroom.lo, hroom.hi, ?_, ?_, ?_⟩
  · rw [hblk, update_of_ne (by decide), putInode_one]
    exact h.super
  · have hnode := h.node 0 (by omega)
    rw [hroot, Dinode.fields_resize]
    rw [show (dinode sb s.blk ROOTINO).fields = _ from hnode.fields]
    rfl
  · have hnode := h.node 0 (by omega)
    rw [hroot]
    exact h.room.holds_keep hkeep (table_eq h.few (by omega) s.blk) hnode.holds
  · have hi' : i + 1 < (nodes (rootDir files) (files.map HostFile.content)).length := by omega
    have hnode := h.node (i + 1) hi'
    have hget : (nodes (rootDir files) (files.map HostFile.content))[i + 1] =
        (T_FILE, files[i].content) := by
      simp [nodes]
    rw [hget] at hnode
    have hne : UInt32.ofNat (i + 1 + 1) ≠ ROOTINO := by
      rw [ne_eq, ← UInt32.toNat_inj, toNat_ofNat (by omega)]
      have hone : ROOTINO.toNat = 1 := rfl
      omega
    have hd := hother _ hne (by rw [toNat_ofNat (by omega)]; omega)
    refine ⟨by rw [hd]; exact hnode.fields, ?_, hnode.length⟩
    rw [hd]
    exact h.room.holds_keep hkeep (table_eq h.few hi' s.blk) hnode.holds
  · have hne : t ≠ ROOTINO := by
      rintro rfl
      have hone : ROOTINO.toNat = 1 := rfl
      omega
    rw [hother t hne htn]
    exact h.rest t (by omega) htn
  · rw [hfree, h.freeblock, total_nodes]
  · rw [htable]
    have := hroom.alloc
    rwa [hn] at this
  · rw [hblk, update_self, hfree]

/-- **`mkfs` succeeds** when the files fit on the image. -/
theorem wp_main {Q : Unit → St → Prop} (hfit : Fits files) (hread : ∀ f ∈ files, f.Readable)
    (hQ : ∀ s', Made files s' → Q () s') : totalLogic.wp (main files) Q St.init := by
  have hlen := length_rootDir files
  have hfew := hfit.few
  have hspace := hfit.space
  have hroot : (rootDir files).length ≤ MAXFILE * BSIZE := by
    rw [hlen]
    unfold MAXINODES at hfew
    unfold MAXFILE NDIRECT NINDIRECT BSIZE
    omega
  have hcost := cost_append (dirent ROOTINO dot) (dirent ROOTINO dotdot)
  have hcost' := cost_append (dirent ROOTINO dot ++ dirent ROOTINO dotdot) (entries 2 files)
  have hnil : costs [] = 0 := rfl
  have hdots : (dirent ROOTINO dot ++ dirent ROOTINO dotdot).length ≤ MAXFILE * BSIZE := by decide
  rw [rootDir] at hspace hroot
  unfold main
  refine .bind (wp_zeroBlocks fresh_init (by decide) fun s₀ h₀ => ?_)
  refine .bind (wp_wsect ?_)
  refine .bind (wp_ialloc h₀.built (by decide) fun s₁ h₁ => ?_)
  rw [show UInt32.ofNat (([] : List Node).length + 1) = ROOTINO from rfl]
  refine .bind (wp_assert (fun hc => absurd rfl hc) fun _ => ?_)
  have h₁ : Built (nodes [] []) s₁ := h₁
  refine .bind (wp_iappend_root h₁ (by decide) ?_ fun s₂ h₂ => ?_)
  · rw [hnil, nil_append]
    omega
  refine .bind (wp_iappend_root h₂ hdots ?_ fun s₃ h₃ => ?_)
  · rw [hnil, nil_append]
    omega
  refine .bind (wp_addFiles h₃ hread (by rw [length_nil]; omega) hfit.size hroot
    hspace fun s₄ h₄ => ?_)
  refine .bind (wp_fixRoot h₄ fun s₅ hblk hlen₅ hfree => ?_)
  refine .bind (wp_freeblock ?_)
  have hhi : s₅.freeblock.toNat < BSIZE * 8 := by
    rw [hfree]
    exact lt_of_le_of_lt h₄.room.hi (by decide)
  unfold balloc
  refine .bind (wp_assert (fun hc => absurd hhi hc) fun _ => wp_wsect (hQ _ ?_))
  have hsec : sector sb.bmapstart = sb.bmapstart := sector_eq (by decide)
  refine made_of_built h₄ ?_ ?_ hfree
  · rw [← hblk, ← hfree]
    exact congrArg (update s₅.blk · (bitmap s₅.freeblock.toNat)) hsec
  · change max s₅.length _ = _
    rw [hlen₅, hsec]
    decide

/-- **A run of `mkfs`** for files that fit on the image. -/
theorem main_made (hfit : Fits files) (hread : ∀ f ∈ files, f.Readable) :
    ∃ s, (main files).exec handle St.init = .ok ((), s) ∧ Made files s := by
  obtain ⟨x, hx, hmade⟩ := exists_of_wp (wp_main (Q := fun _ => Made files) hfit hread fun _ => id)
  exact ⟨x.2, hx, hmade⟩

end Main

/-! ### Too many files -/

/-- **A run of `mkfs` that succeeds** has assigned block numbers on the image; the inode
numbers are below `NINODES`, and `winode` has written inode blocks only, if and only if
there are not too many files. -/
theorem exit_ok_iff {files : List HostFile} {s : St}
    (h : (main files).exec handle St.init = .ok ((), s)) :
    (∀ x ∈ s.blocks, x < fssize) ∧ (Kept s ↔ files.length ≤ NINODES.toNat - 2) :=
  ⟨fun x hx => UInt32.lt_iff_toNat_lt.mpr ((main_bounded h).blocks x hx), (main_bounded h).kept_iff⟩

/-- A file of `n` blocks, with a name of two letters. -/
def hostFile (k n : ℕ) : HostFile where
  name := [97 + UInt8.ofNat (k / 16 % 16), 97 + UInt8.ofNat (k % 16)]
  name_ne := by
    have h : ∀ i < 16, 97 + UInt8.ofNat i ≠ 0 := by decide
    intro c hc
    rcases mem_pair.mp hc with rfl | rfl
    · exact h _ (Nat.mod_lt _ (by decide))
    · exact h _ (Nat.mod_lt _ (by decide))
  chunks := some (List.replicate n (List.replicate BSIZE 0))
  chunks_ne := by
    intro cs h c hc
    obtain rfl := Option.some.inj h
    rw [eq_of_mem_replicate hc, length_replicate]
    exact ⟨by decide, le_rfl⟩

theorem length_hostFile (k n : ℕ) : (hostFile k n).content.length = n * BSIZE := by
  change (List.replicate n (List.replicate BSIZE (0 : UInt8))).flatten.length = _
  rw [length_flatten, map_replicate, length_replicate, sum_replicate_nat]

theorem readable_hostFile (k n : ℕ) : (hostFile k n).Readable := by
  refine ⟨fun hc => ?_, by rintro ⟨⟩⟩
  have h : ∀ i < 16, slash ≠ 97 + UInt8.ofNat i := by decide
  rcases mem_pair.mp hc with hc | hc
  · exact h _ (Nat.mod_lt _ (by decide)) hc
  · exact h _ (Nat.mod_lt _ (by decide)) hc

/-- Two files, of three blocks and of one. -/
def twoFiles : List HostFile := [hostFile 0 3, hostFile 1 1]

theorem fits_twoFiles : Fits twoFiles := by
  refine ⟨by decide, fun f hf => ?_, ?_⟩
  · rcases mem_pair.mp hf with rfl | rfl
    · rw [length_hostFile]
      decide
    · rw [length_hostFile]
      decide
  · rw [twoFiles, length_rootDir, costs, map_map, map_cons, map_cons, map_nil, Function.comp,
      Function.comp, length_hostFile, length_hostFile]
    decide

theorem readable_twoFiles : ∀ f ∈ twoFiles, f.Readable := by
  intro f hf
  rcases mem_pair.mp hf with rfl | rfl
  · exact readable_hostFile 0 3
  · exact readable_hostFile 1 1

theorem exit_ok_iff_twoFiles : ∃ s, (main twoFiles).exec handle St.init = .ok ((), s) ∧
    (∀ x ∈ s.blocks, x < fssize) ∧ Kept s := by
  obtain ⟨s, hs, -⟩ := main_made fits_twoFiles readable_twoFiles
  exact ⟨s, hs, (exit_ok_iff hs).1, (exit_ok_iff hs).2.mpr (by decide)⟩

/-- A number of empty files. -/
def emptyFiles (n : ℕ) : List HostFile := (List.range n).map (hostFile · 0)

theorem costs_emptyFiles (n : ℕ) : costs ((emptyFiles n).map HostFile.content) = 0 := by
  refine List.sum_eq_zero_iff_forall_eq_nat.mpr fun x hx => ?_
  obtain ⟨c, hc, rfl⟩ := mem_map.mp hx
  obtain ⟨f, hf, rfl⟩ := mem_map.mp hc
  obtain ⟨k, -, rfl⟩ := mem_map.mp hf
  exact (by decide : cost (blocksFor 0) = 0)

theorem fits_emptyFiles {n : ℕ} (h : n + 1 < MAXINODES) : Fits (emptyFiles n) := by
  have hlen : (emptyFiles n).length = n := by
    rw [emptyFiles, length_map, length_range]
  refine ⟨by rw [hlen]; exact h, fun f hf => ?_, ?_⟩
  · obtain ⟨k, -, rfl⟩ := mem_map.mp hf
    exact Nat.zero_le _
  · have hcost : cost (blocksFor (16 * (n + 2))) ≤ cost (blocksFor (16 * (MAXINODES + 2))) :=
      cost_mono (blocksFor_mono (by omega))
    rw [costs_emptyFiles, length_rootDir, hlen]
    exact (Nat.add_le_add_left hcost _).trans (by decide)

theorem readable_emptyFiles (n : ℕ) : ∀ f ∈ emptyFiles n, f.Readable := by
  intro f hf
  obtain ⟨k, -, rfl⟩ := mem_map.mp hf
  exact readable_hostFile k 0

/-- With one file too many, there is an inode number that is too large. -/
theorem not_kept_emptyFiles : ∃ s, (main (emptyFiles 199)).exec handle St.init = .ok ((), s) ∧
    ¬Kept s := by
  obtain ⟨s, hs, -⟩ := main_made (fits_emptyFiles (by decide)) (readable_emptyFiles 199)
  refine ⟨s, hs, fun hk => ?_⟩
  have hle := (main_bounded hs).kept_iff.mp hk
  rw [emptyFiles, length_map, length_range] at hle
  exact absurd hle (by decide)

end Xv6.Mkfs
