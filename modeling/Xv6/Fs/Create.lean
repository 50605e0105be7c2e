import Xv6.Fs.Release

/-!
# Creating inodes

The rules for `ialloc` and `create`. A call of `create` that makes a new inode does
so in one way (`Xv6.Fs.Created`): it takes an inode that is free, gives it one link,
and for a directory the entries `.` and `..`, and enters it into the directory.
-/

namespace Xv6.Fs

open Lib Function View UInt32

variable {Pid : Type}

/-- **Where `dirlink` adds an entry** for a name to directory `d`. -/
structure Vacant (a : View Pid) (d : UInt32) (n k : ℕ) (name : Str) : Prop where
  dir : DirOk a d n
  fresh : ∀ j, j < n → ¬Matches (a.data d) name j
  le : k ≤ n
  max : k < MAXENT
  used : ∀ j, j < k → entInum (a.data d) j ≠ 0
  free : k < n → entInum (a.data d) k = 0

namespace View

/-- A new inode with one link. -/
def newInode (a : View Pid) (t : UInt32) (type major minor : Int16) : View Pid :=
  a.putDisk t ⟨type, major, minor, 1, 0⟩

/-- The new inode `t` becomes a directory in `d`. -/
def newDots (a : View Pid) (d t : UInt32) : View Pid :=
  ((a.relink d ((a.disk d).nlink + 1)).putEntry t 0 (dirent t dot)).putEntry t 1 (dirent d dotdot)

/-- The new inode `t`, which is to be entered into `d`. -/
def newNode (a : View Pid) (d t : UInt32) (type major minor : Int16) : View Pid :=
  if type = T_DIR then (a.newInode t type major minor).newDots d t
  else a.newInode t type major minor

end View

/-- **What `create` does** when it makes a new inode `t` in directory `d`. -/
structure Created (c : Cond) (a : View Pid) (d t : UInt32) (k : ℕ) (name : Str)
    (type major minor : Int16) (b : View Pid) : Prop where
  free : (a.disk t).type = 0
  pos : t ≠ 0
  range : t < a.ninodes
  vacant : ∃ n, Vacant a d n k name
  nlink : type = T_DIR → c.nlink (a.disk d) ((a.disk d).nlink + 1)
  write : c.write (((a.newNode d t type major minor)).disk d) (dirent t name)
  released : Released c ((a.newNode d t type major minor).putEntry d k (dirent t name)) d b

section Rules

variable [DecidableEq Pid] {c : Cond} {bad : String → Prop} {a : View Pid} {i dp : Slot} {p : Pid}
  {d t : UInt32} {type major minor : Int16} {Q : Slot → View Pid → Prop}

/-- The loop of `ialloc` takes the first free inode. -/
theorem wp_iallocLoop (hty : type ≠ 0) (hdirty : ∀ t, a.dirty t = false)
    (href : ∀ i e, a.inode i = some e → 1 ≤ e.ref)
    (halloc : ∀ i e, a.inode i = some e → (a.disk e.inum).type ≠ 0)
    (higet : ¬bad "iget: no inodes") (hialloc : ¬bad "ialloc: no inodes")
    (hQ : ∀ t i, (a.disk t).type = 0 → t ≠ 0 → t < a.ninodes →
      (a.putDisk t ⟨type, 0, 0, 0, 0⟩).CanGrab i t →
      Q i ((a.putDisk t ⟨type, 0, 0, 0, 0⟩).grab i t)) :
    ∀ n inum, 1 ≤ inum.toNat → inum.toNat + n = a.ninodes.toNat →
      (logic c.K bad).wp (iallocLoop ROOTDEV type n inum) Q a := by
  intro n
  induction n with
  | zero => exact fun _ _ _ => wp_panic hialloc
  | succ n ih =>
    intro inum hpos hn
    have hlt : inum < a.ninodes := lt_iff_toNat_lt.mpr (by omega)
    rw [iallocLoop]
    by_cases hfree : (a.disk inum).type = 0
    · have hop : View.handle (.ialloc inum type) a =
          .ok (true, a.putDisk inum ⟨type, 0, 0, 0, 0⟩) := if_pos hfree
      refine .bind (wp_op (o := .ialloc inum type) ⟨hlt, hdirty inum, hty, halloc⟩ hop
        fun _ => ?_)
      refine wp_iget hlt href (fun hc => absurd hc higet) fun i hi => ?_
      refine hQ inum i hfree (fun h0 => ?_) hlt hi
      rw [h0] at hpos
      exact absurd hpos (by decide)
    · have hop : View.handle (.ialloc inum type) a = .ok (false, a) := if_neg hfree
      refine .bind (wp_op (o := .ialloc inum type) ⟨hlt, hdirty inum, hty, halloc⟩ hop
        fun _ => ?_)
      have hsucc : (inum + 1).toNat = inum.toNat + 1 := by
        have := a.ninodes.toNat_lt
        rw [UInt32.toNat_add, toNat_one]
        omega
      exact ih (inum + 1) (by omega) (by omega)

/-- **`ialloc`** takes a free inode. -/
theorem wp_ialloc (hty : type ≠ 0) (hdirty : ∀ t, a.dirty t = false)
    (href : ∀ i e, a.inode i = some e → 1 ≤ e.ref)
    (halloc : ∀ i e, a.inode i = some e → (a.disk e.inum).type ≠ 0) (hroot : ROOTINO < a.ninodes)
    (higet : ¬bad "iget: no inodes") (hialloc : ¬bad "ialloc: no inodes")
    (hQ : ∀ t i, (a.disk t).type = 0 → t ≠ 0 → t < a.ninodes →
      (a.putDisk t ⟨type, 0, 0, 0, 0⟩).CanGrab i t →
      Q i ((a.putDisk t ⟨type, 0, 0, 0, 0⟩).grab i t)) :
    (logic c.K bad).wp (ialloc ROOTDEV type) Q a := by
  unfold ialloc
  refine .bind (wp_op (o := .ninodes) trivial rfl fun _ => ?_)
  have hpos : 1 < a.ninodes.toNat := lt_iff_toNat_lt.mp hroot
  refine wp_iallocLoop hty hdirty href halloc higet hialloc hQ _ 1 le_rfl ?_
  rw [toNat_one]
  omega

/-! ### A new inode -/

omit [DecidableEq Pid] in
/-- The inode that `ialloc` takes is not in the cache. -/
theorem Tidy.grab_new (h : Tidy a) (hd : a.Taken dp d true) (hfree : (a.disk t).type = 0)
    {f : Fields} (hi : ((a.refTo dp d (some p) true).putDisk t f).CanGrab i t) :
    d ≠ t ∧ dp ≠ i ∧ (a.inode i = none ∧ a.Unused t) ∧
      ((a.refTo dp d (some p) true).putDisk t f).grab i t =
        ((a.putDisk t f).refTo dp d (some p) true).refTo i t none false := by
  have hdt : d ≠ t := fun hdt => hd.type rfl (hdt ▸ hfree)
  have hunused : a.Unused t := fun j e hj hinum => h.type j e hj (hinum ▸ hfree)
  obtain ⟨hnone, -⟩ : ((a.refTo dp d (some p) true).putDisk t f).inode i = none ∧ _ := by
    refine hi.resolve_left fun ⟨e, he, hinum⟩ => ?_
    have hclean := h.toSettled.clean hd.can
    exact (unused_refTo hclean hdt).mpr hunused i e he hinum
  have hne : dp ≠ i := by
    rintro rfl
    exact absurd ((refTo_inode ..).symm.trans hnone) (by simp)
  have hinone : a.inode i = none := by
    rw [← hnone]
    exact (refTo_inode_of_ne hne.symm).symm
  refine ⟨hdt, hne, ⟨hinone, hunused⟩, ?_⟩
  unfold View.grab
  rw [hnone, View.refTo.eq_1 ((a.putDisk t f).refTo dp d (some p) true)]
  have hrefs : ((a.putDisk t f).refTo dp d (some p) true).refs i = 0 := refs_none hnone
  rw [hrefs]
  rfl

/-- `create` fills in the new inode. -/
theorem wp_createFill {Q : Unit → View Pid → Prop} {e : Entry Pid} (h : a.inode i = some e)
    (hv : e.valid = true) (hd : a.dirty e.inum = false)
    (hdisk : a.disk e.inum = ⟨type, 0, 0, 0, 0⟩) (hQ : Q () (a.newInode e.inum type major minor)) :
    (logic c.K bad).wp (createFill i major minor) Q a := by
  unfold createFill
  refine .bind (wp_setDev h hv ?_)
  refine .bind (wp_setNlink (by exact h) hv fun _ => ?_)
  refine wp_iupdate (by exact h) hv ?_
  rw [mark_mark]
  have heq : (((a.putDisk e.inum ((a.disk e.inum).setDev major minor)).mark e.inum true).putDisk
      e.inum ((((a.putDisk e.inum ((a.disk e.inum).setDev major minor)).mark e.inum true).disk
        e.inum).setNlink 1)).mark e.inum false = a.newInode e.inum type major minor := by
    have hdirty : update a.dirty e.inum false = a.dirty := by
      rw [← hd, update_eq_self]
    simp only [View.putDisk, View.mark, View.newInode, update_self, update_idem,
      hdisk, hdirty]
    rfl
  rwa [heq]

theorem not_matches_dotdot {f : ℕ → UInt8} {k : ℕ} (h : SameName (entName f k) dot) :
    ¬Matches f dotdot k := fun hm => absurd (hm.2.trans h) (by decide)

/-- `create` makes the new inode a directory. -/
theorem wp_createDots {Q : Unit → View Pid → Prop} {ip : Slot} (hne : dp ≠ ip) (hdt : d ≠ t)
    (href : ∀ i e, a.inode i = some e → 1 ≤ e.ref) (hdp : a.Clean dp d) (hip : a.Clean ip t)
    (hdirty : ∀ t, a.dirty t = false) (hdisk : a.disk t = ⟨T_DIR, major, minor, 1, 0⟩)
    (ht0 : t ≠ 0) (ht : t.toNat < 65536) (hrange : t < a.ninodes)
    (hb : ∀ msg ∈ expected, ¬bad msg)
    (hQ : c.nlink (a.disk d) ((a.disk d).nlink + 1) → Q () ((a.newDots d t).pair p dp d ip t)) :
    (logic c.K bad).wp (createDots p dp ip d t) Q (a.pair p dp d ip t) := by
  unfold createDots
  refine .bind (wp_addNlink (pair_fst hne) rfl (hdirty d) fun hK => ?_)
  have hK : c.nlink (a.disk d) ((a.disk d).nlink + 1) := hK _ (pair_fst hne)
  set a1 := a.relink d ((a.disk d).nlink + 1) with ha1
  have hdisk1 : a1.disk t = ⟨T_DIR, major, minor, 1, 0⟩ := by
    rw [← hdisk]
    exact update_of_ne hdt.symm ..
  have hdir1 : IsDir (a1.pair p dp d ip t) t 0 :=
    ⟨congrArg Fields.type hdisk1, congrArg (fun f => f.size.toNat) hdisk1, Nat.zero_le _⟩
  have href1 := one_le_ref_pair (p := p) (a := a1) hne href hdp hip
  refine .bind (wp_dirlink (pair_snd hne) rfl hdir1 href1 (hdirty t)
    (hb _ (by decide)) (hb _ (by decide)) (fun k hk => absurd hk (Nat.not_lt_zero k))
    (fun k _ hk => absurd hk (Nat.not_lt_zero k)) fun k _ hk _ _ _ _ => ?_)
  obtain rfl := Nat.le_zero.mp hk
  refine .bind (wp_panicIf (fun hc => absurd hc (by decide)) fun _ => ?_)
  set a2 := a1.putEntry t 0 (dirent t dot) with ha2
  have hdir2 : IsDir (a2.pair p dp d ip t) t 1 := hdir1.putEntry le_rfl (by decide)
  have hentry : entryAt (a2.data t) 0 = dirent t dot := by
    rw [ha2, putEntry_data, entryAt_putEntry _ _ (length_dirent t dot)]
  have hinum : entInum (a2.data t) 0 = t := by
    rw [entInum, hentry, deInum_dirent _ ht]
  have hname : SameName (entName (a2.data t) 0) dot := by
    rw [entName, hentry]
    exact sameName_dirent t dot
  refine .bind (wp_dirlink (pair_snd hne) rfl hdir2 href1 (hdirty t)
    (hb _ (by decide)) (hb _ (by decide)) (fun k hk => ?_) (fun k _ hk hm => ?_)
    fun k _ hk _ _ hfree _ => ?_)
  · obtain rfl := Nat.lt_one_iff.mp hk
    exact lt_of_eq_of_lt hinum hrange
  · obtain rfl := Nat.lt_one_iff.mp hk
    exact absurd hm (not_matches_dotdot hname)
  · obtain rfl : k = 1 := by
      rcases Nat.le_one_iff_eq_zero_or_eq_one.mp hk with rfl | rfl
      · exact absurd (hinum.symm.trans (hfree Nat.zero_lt_one)) ht0
      · rfl
    exact wp_panicIf (fun hc => absurd hc (by decide)) fun _ => hQ hK

section

omit [DecidableEq Pid]

theorem View.newNode_inode (a : View Pid) (d t : UInt32) (type major minor : Int16) :
    (a.newNode d t type major minor).inode = a.inode := by
  unfold View.newNode
  split <;> rfl

theorem View.newNode_ninodes (a : View Pid) (d t : UInt32) (type major minor : Int16) :
    (a.newNode d t type major minor).ninodes = a.ninodes := by
  unfold View.newNode
  split <;> rfl

theorem View.newNode_dirty (a : View Pid) (d t : UInt32) (type major minor : Int16) :
    (a.newNode d t type major minor).dirty = a.dirty := by
  unfold View.newNode
  split <;> rfl

theorem View.newNode_data_of_ne {u : UInt32} (h : u ≠ t) (type major minor : Int16) :
    (a.newNode d t type major minor).data u = a.data u := by
  unfold View.newNode
  split
  · rw [View.newDots, putEntry_data_of_ne h, putEntry_data_of_ne h]
    rfl
  · rfl

theorem View.newNode_disk_of_ne {u : UInt32} (h : u ≠ t) (hd : u ≠ d) (type major minor : Int16) :
    (a.newNode d t type major minor).disk u = a.disk u := by
  have h1 : (a.newInode t type major minor).disk u = a.disk u := update_of_ne h ..
  unfold View.newNode
  split
  · rw [View.newDots, putEntry_disk_of_ne h, putEntry_disk_of_ne h, ← h1]
    exact update_of_ne hd ..
  · exact h1

/-- The directory of a new inode. -/
theorem View.newNode_disk_dir (h : d ≠ t) (type major minor : Int16) :
    (a.newNode d t type major minor).disk d = (a.disk d).setNlink
      (if type = T_DIR then (a.disk d).nlink + 1 else (a.disk d).nlink) := by
  have h1 : (a.newInode t type major minor).disk d = a.disk d := update_of_ne h ..
  unfold View.newNode
  split
  · rw [View.newDots, putEntry_disk_of_ne h, putEntry_disk_of_ne h, h1, ← h1]
    exact update_self ..
  · exact h1

/-- The directory has the entries it had. -/
theorem DirOk.newNode {n : ℕ} (hdir : DirOk a d n) (h : d ≠ t) (type major minor : Int16) :
    DirOk (a.newNode d t type major minor) d n := by
  have hdata := newNode_data_of_ne (a := a) (d := d) h type major minor
  have hdisk := newNode_disk_dir (a := a) h type major minor
  refine ⟨⟨?_, ?_, hdir.le⟩, hdir.two_le, ?_, ?_, ?_, ?_, ?_⟩
  · rw [hdisk]
    exact hdir.type
  · rw [hdisk]
    exact hdir.size
  all_goals rw [hdata]
  · exact hdir.self
  · exact hdir.dot
  · exact hdir.dotdot
  · exact hdir.parent
  · rw [newNode_ninodes]
    exact hdir.range

end

/-- **A new inode.** -/
theorem wp_createNew {n : ℕ} {name : Str} (h : Tidy a) (hb : Allows bad a)
    (hdp : a.Taken dp d true) (hdir : DirOk a d n)
    (hfresh : ∀ j, j < n → ¬Matches (a.data d) name j) (hty : type ≠ 0)
    (hQ : ∀ t k b ip, Created c a d t k name type major minor b → a.inode ip = none → a.Unused t →
      Q ip (b.refTo ip t (some p) true)) :
    (logic c.K bad).wp (createNew p dp name type major minor) Q (a.refTo dp d (some p) true) := by
  unfold createNew
  refine .bind (wp_ids (refTo_inode ..) ?_)
  refine .bind (wp_ialloc hty h.dirty h.toSettled.one_le_ref_refTo
    (h.toSettled.type_refTo (hdp.type rfl)) h.root hb.iget (hb.expected _ (by decide)) fun t ip hfree hpos hrange hcan => ?_)
  obtain ⟨hdt, hne, ⟨hinone, hunused⟩, heq⟩ := h.grab_new hdp hfree hcan
  rw [heq]
  set a0 := a.putDisk t ⟨type, 0, 0, 0, 0⟩ with ha0
  have hdisk0 : a0.disk t = ⟨type, 0, 0, 0, 0⟩ := update_self ..
  have hdpc : a.Clean dp d := h.toSettled.clean hdp.can
  have hipc : a.Clean ip t := .inl ⟨hinone, hunused⟩
  have hrefs : (a0.refTo dp d (some p) true).refs ip + 1 = 1 := by
    rw [refs_none (by rw [refTo_inode_of_ne hne.symm]; exact hinone)]
    rfl
  refine .bind (wp_ilock (refTo_inode ..) (le_of_eq hrefs.symm) (.inr rfl)
    (fun _ h0 => absurd ((congrArg Fields.type hdisk0).symm.trans h0) hty) fun _ _ => ?_)
  rw [View.refTo.eq_1 (a0.refTo dp d (some p) true), set_set]
  refine .bind (wp_createFill (pair_snd hne) rfl (by exact h.dirty t)
    hdisk0 ?_)
  have hnew : (a0.pair p dp d ip t).newInode t type major minor =
      (a.newInode t type major minor).pair p dp d ip t := by
    change (a0.newInode t type major minor).pair p dp d ip t = _
    rw [ha0, View.newInode, View.newInode, View.putDisk, View.putDisk, View.putDisk]
    simp only [update_idem]
  change (logic c.K bad).wp _ Q ((a0.pair p dp d ip t).newInode t type major minor)
  rw [hnew]
  refine .bind (wp_ids (pair_snd hne) ?_)
  -- a directory gets its first two entries
  have hdots : ∀ {Q' : Unit → View Pid → Prop},
      ((type = T_DIR → c.nlink (a.disk d) ((a.disk d).nlink + 1)) →
        Q' () ((a.newNode d t type major minor).pair p dp d ip t)) →
      (logic c.K bad).wp (onlyIf (type = T_DIR) (createDots p dp ip d t)) Q'
        ((a.newInode t type major minor).pair p dp d ip t) := by
    intro Q' hQ'
    unfold View.newNode at hQ'
    unfold onlyIf
    split
    · rename_i htype
      subst htype
      rw [if_pos rfl] at hQ'
      have hdisk : (a.newInode t T_DIR major minor).disk d = a.disk d :=
        update_of_ne hdt ..
      refine wp_createDots hne hdt h.ref hdpc hipc h.dirty (update_self ..) hpos
        (lt_of_lt_of_le (lt_iff_toNat_lt.mp hrange) h.ninodes) hrange hb.expected fun hK => ?_
      rw [hdisk] at hK
      exact hQ' fun _ => hK
    · rename_i htype
      rw [if_neg htype] at hQ'
      exact hQ' fun hc => absurd hc htype
  refine .bind (hdots fun hnlink => ?_)
  have hdir' := hdir.newNode hdt type major minor
  have hdata := newNode_data_of_ne (a := a) (d := d) hdt type major minor
  set a3 := a.newNode d t type major minor with ha3
  have hinode : a3.inode = a.inode := a.newNode_inode d t type major minor
  have href3 : ∀ i e, a3.inode i = some e → 1 ≤ e.ref := by rw [hinode]; exact h.ref
  have hdpc3 : a3.Clean dp d := by unfold View.Clean View.Unused; rw [hinode]; exact hdpc
  have hipc3 : a3.Clean ip t := by unfold View.Clean View.Unused; rw [hinode]; exact hipc
  have hdirty3 : ∀ t, a3.dirty t = false := by
    rw [ha3, newNode_dirty]
    exact h.dirty
  have hdirpair : IsDir (a3.pair p dp d ip t) d n := ⟨hdir'.type, hdir'.size, hdir'.le⟩
  refine .bind (wp_dirlink (pair_fst hne) rfl hdirpair
    (one_le_ref_pair hne href3 hdpc3 hipc3) (by exact hdirty3 d) hb.iget
    (hb.expected _ (by decide)) hdir'.range (fun k _ hk hm => ?_)
    fun k _ hk hmax hused hfree' hK => ?_)
  · change Matches (a3.data d) name k at hm
    rw [hdata] at hm
    exact absurd hm (hfresh k hk)
  · change ∀ j, j < k → entInum (a3.data d) j ≠ 0 at hused
    change k < n → entInum (a3.data d) k = 0 at hfree'
    rw [hdata] at hused hfree'
    refine .bind (wp_panicIf (fun hc => absurd hc (by decide)) fun _ => ?_)
    change (logic c.K bad).wp _ Q ((a3.putEntry d k (dirent t name)).pair p dp d ip t)
    have hty3 : ((a3.putEntry d k (dirent t name)).disk d).type ≠ 0 := by
      rw [putEntry_type, hdir'.type]
      decide
    refine .bind (wp_iunlockput_fst hne hdt.symm hdpc3 hipc3 (hdirty3 d) hty3
      fun b hreleased => ?_)
    exact hQ t k b ip ⟨hfree, hpos, hrange, ⟨n, hdir, hfresh, hk, hmax, hused, hfree'⟩, hnlink,
      hK _ (pair_fst hne), hreleased⟩ hinone hunused

/-- A path names a file that could be there and is not. -/
def View.NewName (a : View Pid) (p : Pid) (path : Str) : Prop :=
  ∃ d name, a.Leads p path d name ∧ lookup (a.data d) (nentries (a.disk d).size) name = none

/-- **`create`** returns a file that is there, or makes a new inode. -/
theorem wp_create {Q : Option Slot → View Pid → Prop} {path : Str} (h : Tidy a)
    (hb : Allows bad a) (hty : type ≠ 0) (hnone : ¬a.NewName p path → Q none a)
    (hfound : ∀ ip t, ¬a.NewName p path → a.Taken ip t true → type = T_FILE →
      (a.disk t).type = T_FILE → Q (some ip) (a.refTo ip t (some p) true))
    (hnew : ∀ d t k name b ip, a.NewName p path → Created c a d t k name type major minor b →
      a.inode ip = none → a.Unused t → Q (some ip) (b.refTo ip t (some p) true)) :
    (logic c.K bad).wp (create p path type major minor) Q a := by
  unfold create
  refine .bind (wp_nameiparent h hb (fun hlead => hnone fun ⟨d, name, hd, _⟩ =>
    hlead d name hd) fun dp d name hlead hdp hdir => ?_)
  refine .bind (wp_ilock_taken h.toSettled hdp (fun _ => hdp.type rfl) fun hdp => ?_)
  obtain ⟨n, hok⟩ := h.dirs d hdir
  refine .bind (wp_dirlookup_taken h.toSettled h.orphan hdp hok hb.iget
    (fun hfresh => ?_) fun k ip w hk hm hfirst hip hspare _ _ => ?_)
  · have habsent : a.NewName p path := by
      refine ⟨d, name, hlead, ?_⟩
      rw [nentries_eq hok.size, lookup_eq_none hfresh]
    exact .bind (wp_createNew h hb hdp hok hfresh hty
      fun t k b ip hcreated hnone hunused => hnew d t k name b ip habsent hcreated hnone hunused)
  · have hthere : ¬a.NewName p path := by
      rintro ⟨d', name', hlead', hnone'⟩
      obtain ⟨rfl, rfl⟩ := hlead.unique hlead'
      rw [nentries_eq hok.size, lookup_eq_some hk hm hfirst] at hnone'
      cases hnone'
    refine .bind (wp_iunlockput_spare hspare (h.dirty d) ?_)
    refine .bind (wp_ilock_taken h.toSettled hip
      (fun hbad => (hb.sound hbad).1 d n k hok hk hm.1) fun hip => ?_)
    refine .bind (wp_fields (refTo_inode ..) rfl ?_)
    split
    · rename_i hfile
      exact hfound ip _ hthere hip hfile.1 hfile.2
    · exact .bind (wp_iunlockput_spare (h.toSettled.spare h.orphan hip.can hip.type)
        (h.dirty _) (hnone hthere))

end Rules

end Xv6.Fs
