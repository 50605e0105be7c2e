import Xv6.Fs.Create

/-!
# What the changes of the tree keep

The functions that change the tree of the file system do it in a few ways: an inode
gets another number of links, a directory another entry, a free inode is taken, an
inode is freed. Each of them leaves the inode cache and the directories as they
should be (`Xv6.Fs.Neat`), and an inode that may be forgotten by the change of its
number of links is the one that is given back afterwards
(`Xv6.Fs.NoOrphanBut.released`).
-/

namespace Xv6.Fs

open Function View

variable {Pid : Type} {c : Cond} {a b : View Pid} {d t u : UInt32} {n k : ℕ} {de : Str}

/-! ### Directories -/

theorem DirOk.congr (h : DirOk a t n) (hdata : b.data t = a.data t)
    (htype : (b.disk t).type = (a.disk t).type) (hsize : (b.disk t).size = (a.disk t).size)
    (hn : b.ninodes = a.ninodes) : DirOk b t n := by
  refine ⟨⟨htype.trans h.type, by rw [hsize]; exact h.size, h.le⟩, h.two_le, ?_, ?_, ?_, ?_, ?_⟩
  all_goals rw [hdata]
  · exact h.self
  · exact h.dot
  · exact h.dotdot
  · exact h.parent
  · rw [hn]
    exact h.range

theorem entInum_putEntry (f : ℕ → UInt8) (k : ℕ) (h : de.length = 16) :
    entInum (putEntry f k de) k = deInum de := by
  rw [entInum, entryAt_putEntry f k h]

theorem entInum_putEntry_of_ne (f : ℕ → UInt8) {j : ℕ} (h : de.length = 16) (hj : j ≠ k) :
    entInum (putEntry f k de) j = entInum f j := by
  rw [entInum, entryAt_putEntry_of_ne f h hj, entInum]

theorem entName_putEntry_of_ne (f : ℕ → UInt8) {j : ℕ} (h : de.length = 16) (hj : j ≠ k) :
    entName (putEntry f k de) j = entName f j := by
  rw [entName, entryAt_putEntry_of_ne f h hj, entName]

/-- A directory with an entry changed that is not one of the first two. -/
theorem DirOk.putEntry (h : DirOk a d n) (h2 : 2 ≤ k) (hk : k ≤ n) (hmax : k < MAXENT)
    (hde : de.length = 16) (hrange : deInum de < a.ninodes) :
    DirOk (a.putEntry d k de) d (max n (k + 1)) := by
  have h0 : entInum ((a.putEntry d k de).data d) 0 = entInum (a.data d) 0 := by
    rw [putEntry_data, entInum_putEntry_of_ne _ hde (by omega)]
  have h1 : entInum ((a.putEntry d k de).data d) 1 = entInum (a.data d) 1 := by
    rw [putEntry_data, entInum_putEntry_of_ne _ hde (by omega)]
  refine ⟨h.toIsDir.putEntry hk hmax, le_max_of_le_left h.two_le, h0.trans h.self, ?_, ?_,
    by rw [h1]; exact h.parent, fun j hj => ?_⟩
  · rw [putEntry_data, entName_putEntry_of_ne _ hde (by omega)]
    exact h.dot
  · rw [putEntry_data, entName_putEntry_of_ne _ hde (by omega)]
    exact h.dotdot
  · rw [putEntry_data]
    by_cases hjk : j = k
    · rwa [hjk, entInum_putEntry _ _ hde]
    · rw [entInum_putEntry_of_ne _ hde hjk]
      exact h.range j (by omega)

/-- The first two entries of a directory are not free. -/
theorem Vacant.two_le {name : Str} (h : Vacant a d n k name) (hd : d ≠ 0) : 2 ≤ k := by
  by_contra hk
  rcases Nat.lt_succ_iff_lt_or_eq.mp (not_le.mp hk) with hk | rfl
  · obtain rfl := Nat.lt_one_iff.mp hk
    have h0 := h.free (lt_of_lt_of_le Nat.zero_lt_two h.dir.two_le)
    rw [h.dir.self] at h0
    exact hd h0
  · exact h.dir.parent (h.free h.dir.two_le)

theorem deInum_emptyDirent : deInum emptyDirent = 0 := by decide

theorem length_emptyDirent : emptyDirent.length = 16 := rfl

/-! ### The inode cache -/

/-- What only changes the inodes and their contents. -/
theorem Neat.update (h : Neat a) (hinode : b.inode = a.inode) (hdirty : b.dirty = a.dirty)
    (hn : b.ninodes = a.ninodes) (hproc : b.proc = a.proc)
    (htype : ∀ i e, a.inode i = some e → (b.disk e.inum).type ≠ 0)
    (hrange : ∀ t, (b.disk t).type ≠ 0 → t ≠ 0 ∧ t < a.ninodes) (hdirs : DirsOk b) : Neat b := by
  refine ⟨⟨fun i e hi => ?_, ?_, ?_⟩, hdirs, ?_, ?_, ?_, ?_⟩
  · rw [hinode] at hi
    exact { h.entries i e hi with type := htype i e hi }
  · rw [hinode]
    exact h.uniq
  · rw [hdirty]
    exact h.dirty
  · rw [hn]
    exact h.root
  · rw [hn]
    exact h.ninodes
  · rwa [hn]
  · rw [hproc, hinode]
    exact h.cwd

theorem View.relink_disk (a : View Pid) (t : UInt32) (x : Int16) :
    (a.relink t x).disk t = (a.disk t).setNlink x := update_self ..

theorem View.relink_disk_of_ne {x : Int16} (h : u ≠ t) : (a.relink t x).disk u = a.disk u :=
  update_of_ne h ..

theorem View.relink_type (a : View Pid) (t : UInt32) (x : Int16) (u : UInt32) :
    ((a.relink t x).disk u).type = (a.disk u).type := by
  by_cases h : u = t
  · subst h
    rw [relink_disk]
    rfl
  · rw [relink_disk_of_ne h]

theorem View.relink_size (a : View Pid) (t : UInt32) (x : Int16) (u : UInt32) :
    ((a.relink t x).disk u).size = (a.disk u).size := by
  by_cases h : u = t
  · subst h
    rw [relink_disk]
    rfl
  · rw [relink_disk_of_ne h]

theorem DirsOk.relink (h : DirsOk a) (t : UInt32) (x : Int16) : DirsOk (a.relink t x) := by
  intro u hu
  rw [relink_type] at hu
  obtain ⟨n, hn⟩ := h u hu
  exact ⟨n, hn.congr rfl (a.relink_type t x u) (a.relink_size t x u) rfl⟩

theorem Neat.relink (h : Neat a) (t : UInt32) (x : Int16) : Neat (a.relink t x) := by
  refine h.update rfl rfl rfl rfl (fun i e he => ?_) (fun u hu => ?_) (h.dirs.relink t x)
  · rw [relink_type]
    exact h.type i e he
  · rw [relink_type] at hu
    exact h.range u hu

theorem Neat.putEntry (h : Neat a) (hdir : DirOk a d n) (h2 : 2 ≤ k) (hk : k ≤ n)
    (hmax : k < MAXENT) (hde : de.length = 16) (hrange : deInum de < a.ninodes) :
    Neat (a.putEntry d k de) := by
  refine h.update rfl rfl rfl rfl (fun i e he => ?_) (fun u hu => ?_) fun u hu => ?_
  · rw [putEntry_type]
    exact h.type i e he
  · rw [putEntry_type] at hu
    exact h.range u hu
  · rw [putEntry_type] at hu
    by_cases hud : u = d
    · subst hud
      exact ⟨_, hdir.putEntry h2 hk hmax hde hrange⟩
    · obtain ⟨m, hm⟩ := h.dirs u hu
      exact ⟨m, hm.congr (putEntry_data_of_ne hud) (by rw [putEntry_disk_of_ne hud])
        (by rw [putEntry_disk_of_ne hud]) rfl⟩

/-! ### A new inode -/

/-- The fields of a new inode. -/
theorem View.newNode_disk (h : d ≠ t) (type major minor : Int16) :
    (a.newNode d t type major minor).disk t =
      ⟨type, major, minor, 1, if type = T_DIR then 32 else 0⟩ := by
  have h1 : (a.newInode t type major minor).disk t = ⟨type, major, minor, 1, 0⟩ :=
    update_self ..
  unfold View.newNode
  split
  · rw [View.newDots, putEntry_disk, putEntry_disk, relink_disk_of_ne h.symm, h1]
    rfl
  · exact h1

/-- The contents of a new directory. -/
theorem View.newNode_data (a : View Pid) (d t : UInt32) (major minor : Int16) :
    (a.newNode d t T_DIR major minor).data t =
      Fs.putEntry (Fs.putEntry (a.data t) 0 (dirent t dot)) 1 (dirent d dotdot) := by
  unfold View.newNode
  rw [if_pos rfl, View.newDots, putEntry_data, putEntry_data]
  rfl

/-- A new directory. -/
theorem DirOk.new (h : d ≠ t) (hd : d ≠ 0) (hdn : d < a.ninodes) (htn : t < a.ninodes)
    (hn : a.ninodes.toNat ≤ 65536) (major minor : Int16) :
    DirOk (a.newNode d t T_DIR major minor) t 2 := by
  have hd' : d.toNat < 65536 := lt_of_lt_of_le (UInt32.lt_iff_toNat_lt.mp hdn) hn
  have ht' : t.toNat < 65536 := lt_of_lt_of_le (UInt32.lt_iff_toNat_lt.mp htn) hn
  have hdisk := newNode_disk (a := a) h T_DIR major minor
  rw [if_pos rfl] at hdisk
  have h0 : entInum ((a.newNode d t T_DIR major minor).data t) 0 = t := by
    rw [newNode_data, entInum_putEntry_of_ne _ (length_dirent d Fs.dotdot) Nat.zero_ne_one,
      entInum_putEntry _ _ (length_dirent t Fs.dot), deInum_dirent _ ht']
  have h1 : entInum ((a.newNode d t T_DIR major minor).data t) 1 = d := by
    rw [newNode_data, entInum_putEntry _ _ (length_dirent d Fs.dotdot), deInum_dirent _ hd']
  refine ⟨⟨?_, ?_, by decide⟩, le_rfl, h0, ?_, ?_, by rw [h1]; exact hd, fun j hj => ?_⟩
  · rw [hdisk]
  · rw [hdisk]
    rfl
  · rw [newNode_data, entName_putEntry_of_ne _ (length_dirent d Fs.dotdot) Nat.zero_ne_one,
      entName, entryAt_putEntry _ _ (length_dirent t Fs.dot)]
    exact sameName_dirent t Fs.dot
  · rw [newNode_data, entName, entryAt_putEntry _ _ (length_dirent d Fs.dotdot)]
    exact sameName_dirent d Fs.dotdot
  · rw [newNode_ninodes]
    rcases Nat.lt_succ_iff_lt_or_eq.mp hj with hj | rfl
    · obtain rfl := Nat.lt_one_iff.mp hj
      rwa [h0]
    · rwa [h1]

theorem View.newNode_proc (a : View Pid) (d t : UInt32) (type major minor : Int16) :
    (a.newNode d t type major minor).proc = a.proc := by
  unfold View.newNode
  split <;> rfl

theorem View.newNode_type_of_ne (hdt : d ≠ t) (hu : u ≠ t) (type major minor : Int16) :
    ((a.newNode d t type major minor).disk u).type = (a.disk u).type := by
  by_cases hud : u = d
  · rw [hud, newNode_disk_dir hdt]
    rfl
  · rw [newNode_disk_of_ne hu hud]

theorem Neat.newNode (h : Neat a) (hdir : DirOk a d n) (hfree : (a.disk t).type = 0) (ht : t ≠ 0)
    (htn : t < a.ninodes) {type : Int16} (hty : type ≠ 0) (major minor : Int16) :
    Neat (a.newNode d t type major minor) := by
  have hdtype : (a.disk d).type ≠ 0 := by
    rw [hdir.type]
    decide
  have hdt : d ≠ t := fun hdt => hdtype (hdt ▸ hfree)
  have htypes : ∀ u, u ≠ t →
      ((a.newNode d t type major minor).disk u).type = (a.disk u).type :=
    fun u hu => newNode_type_of_ne hdt hu type major minor
  refine h.update (newNode_inode ..) (newNode_dirty ..) (newNode_ninodes ..)
    (newNode_proc ..) (fun i e he => ?_) (fun u hu => ?_) fun u hu => ?_
  · have hut : e.inum ≠ t := fun hc => h.type i e he (hc ▸ hfree)
    rw [htypes e.inum hut]
    exact h.type i e he
  · by_cases hut : u = t
    · rw [hut]
      exact ⟨ht, htn⟩
    · rw [htypes u hut] at hu
      exact h.range u hu
  · by_cases hut : u = t
    · subst hut
      rw [newNode_disk hdt] at hu
      obtain rfl : type = T_DIR := hu
      obtain ⟨hd, hdn⟩ := h.range d hdtype
      exact ⟨2, DirOk.new hdt hd hdn htn h.ninodes major minor⟩
    · rw [htypes u hut] at hu
      obtain ⟨m, hm⟩ := h.dirs u hu
      by_cases hud : u = d
      · subst hud
        exact ⟨m, hm.newNode hdt type major minor⟩
      · refine ⟨m, hm.congr (newNode_data_of_ne hut ..) (htypes u hut) ?_
          (newNode_ninodes ..)⟩
        rw [newNode_disk_of_ne hut hud]

/-! ### Freeing an inode -/

theorem View.free_disk_of_ne (h : u ≠ t) : (a.free t).disk u = a.disk u :=
  update_of_ne h ..

theorem View.free_type (a : View Pid) (t : UInt32) : ((a.free t).disk t).type = 0 := by
  unfold View.free View.putDisk
  simp only [update_self]
  rfl

theorem Neat.free (h : Neat a) (hunused : a.Unused t) : Neat (a.free t) := by
  refine h.update rfl rfl rfl rfl (fun i e he => ?_) (fun u hu => ?_) fun u hu => ?_
  · rw [free_disk_of_ne (hunused i e he)]
    exact h.type i e he
  · have hut : u ≠ t := fun hc => hu (hc ▸ free_type a t)
    rw [free_disk_of_ne hut] at hu
    exact h.range u hu
  · have hut : u ≠ t := by
      rintro rfl
      rw [free_type] at hu
      exact absurd hu (by decide)
    rw [free_disk_of_ne hut] at hu
    obtain ⟨m, hm⟩ := h.dirs u hu
    exact ⟨m, hm.congr rfl (by rw [free_disk_of_ne hut]) (by rw [free_disk_of_ne hut])
      rfl⟩

theorem Neat.released (h : Neat a) (hr : Released c a t b) : Neat b := by
  rcases hr with ⟨ho, -, rfl⟩ | ⟨-, rfl⟩
  · exact h.free ho.2
  · exact h

/-! ### Inodes that nobody refers to -/

/-- Only inode `x` may have been forgotten. -/
def NoOrphanBut (a : View Pid) (x : UInt32) : Prop :=
  ∀ t, t ≠ x → (a.disk t).type ≠ 0 → (a.disk t).nlink = 0 → ∃ i e, a.inode i = some e ∧ e.inum = t

theorem NoOrphan.but (h : NoOrphan a) (x : UInt32) : NoOrphanBut a x := fun t _ => h t

variable (h : NoOrphanBut a t)
include h

/-- The inode that is given back has not been forgotten any more. -/
theorem NoOrphanBut.released (hr : Released c a t b) : NoOrphan b := by
  intro u hu hn
  rcases hr with ⟨ho, -, rfl⟩ | ⟨ho, rfl⟩
  · have hut : u ≠ t := fun hc => hu (hc ▸ free_type a t)
    rw [free_disk_of_ne hut] at hu hn
    exact h u hut hu hn
  · by_cases hut : u = t
    · subst hut
      by_contra hno
      refine ho ⟨hn, fun i e he hinum => hno ⟨i, e, he, hinum⟩⟩
    · exact h u hut hu hn

/-- The number of links of other inodes is what it was. -/
theorem NoOrphanBut.congr (hinode : b.inode = a.inode)
    (hdisk : ∀ u, u ≠ t → (b.disk u).type ≠ 0 → (b.disk u).nlink = 0 →
      (a.disk u).type ≠ 0 ∧ (a.disk u).nlink = 0) : NoOrphanBut b t := by
  intro u hut hu hn
  obtain ⟨hu', hn'⟩ := hdisk u hut hu hn
  rw [hinode]
  exact h u hut hu' hn'

theorem NoOrphanBut.relink (x : Int16) : NoOrphanBut (a.relink t x) t :=
  h.congr rfl fun u hut hu hn => by
    rw [relink_disk_of_ne hut] at hu hn
    exact ⟨hu, hn⟩

theorem NoOrphanBut.putEntry (d : UInt32) (k : ℕ) (de : Str) :
    NoOrphanBut (a.putEntry d k de) t := by
  refine h.congr rfl fun u _ hu hn => ?_
  rw [putEntry_type] at hu
  refine ⟨hu, ?_⟩
  by_cases hud : u = d
  · subst hud
    rwa [putEntry_disk] at hn
  · rwa [putEntry_disk_of_ne hud] at hn

omit h

theorem NoOrphanBut.newNode (h : NoOrphanBut a d) (hdt : d ≠ t) (type major minor : Int16) :
    NoOrphanBut (a.newNode d t type major minor) d := by
  refine h.congr (newNode_inode ..) fun u hud hu hn => ?_
  by_cases hut : u = t
  · subst hut
    rw [newNode_disk hdt] at hn
    exact absurd (show (1 : Int16) = 0 from hn) (by decide)
  · rw [newNode_disk_of_ne hut hud] at hu hn
    exact ⟨hu, hn⟩

/-! ### One more reference -/

theorem Tidy.refTo {i : Slot} (h : Tidy a) (hi : a.Taken i t true) :
    Tidy (a.refTo i t none true) := by
  have hother : ∀ j e, j ≠ i → a.inode j = some e → e.inum ≠ t := by
    intro j e hji hj hinum
    rcases hi.can with ⟨e', he', hinum'⟩ | ⟨-, hno⟩
    · exact hji (h.uniq j i e e' hj he' (hinum.trans hinum'.symm))
    · exact hno j e hj hinum
  have hsome : ∀ j e, a.inode j = some e →
      ∃ e', (a.refTo i t none true).inode j = some e' ∧ e'.inum = e.inum := by
    intro j e hj
    by_cases hji : j = i
    · subst hji
      refine ⟨_, refTo_inode .., ?_⟩
      rcases hi.can with ⟨e', he', hinum'⟩ | ⟨hnone, -⟩
      · rw [hj] at he'
        rw [Option.some.inj he', hinum']
      · rw [hj] at hnone
        cases hnone
    · exact ⟨e, by rw [refTo_inode_of_ne hji]; exact hj, rfl⟩
  refine ⟨⟨⟨?_, ?_, h.dirty⟩, fun u hu => ?_, h.root, h.ninodes, h.range, ?_⟩, ?_⟩
  · intro j e hj
    rcases refTo_cases hj with ⟨-, rfl⟩ | ⟨-, hj⟩
    · exact ⟨h.one_le_refs, rfl, rfl, hi.type rfl⟩
    · exact h.entries j e hj
  · intro j j' e e' hj hj' hinum
    rcases refTo_cases hj with ⟨rfl, rfl⟩ | ⟨hji, hja⟩ <;>
      rcases refTo_cases hj' with ⟨rfl, rfl⟩ | ⟨hji', hja'⟩
    · rfl
    · exact absurd hinum.symm (hother j' e' hji' hja')
    · exact absurd hinum (hother j e hji hja)
    · exact h.uniq j j' e e' hja hja' hinum
  · obtain ⟨n, hn⟩ := h.dirs u hu
    exact ⟨n, hn.refTo⟩
  · intro q j hq
    obtain ⟨e, he⟩ := h.cwd q j hq
    obtain ⟨e', he', -⟩ := hsome j e he
    exact ⟨e', he'⟩
  · intro u hu hn
    obtain ⟨j, e, hj, hinum⟩ := h.orphan u hu hn
    obtain ⟨e', he', hinum'⟩ := hsome j e hj
    exact ⟨j, e', he', hinum'.trans hinum⟩

end Xv6.Fs
