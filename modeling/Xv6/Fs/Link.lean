import Xv6.Fs.Neat

/-!
# Adding a name

The rule for `link`, which says what the system call does to the tree when nobody
else is active: it gives a file another name (`Xv6.Fs.Linked`), or it fails and the
tree is what it was. The number of links is changed before the new name is looked
for, and changed back when there is something wrong with it.
-/

namespace Xv6.Fs

open Lib View

variable {Pid : Type}

/-- **What `link` does** to give the name `name` in directory `d` to inode `t`. -/
structure Linked (c : Cond) (a : View Pid) (d t : UInt32) (k : ℕ) (name : Str)
    (b : View Pid) : Prop where
  type : (a.disk t).type ≠ 0
  file : (a.disk t).type ≠ T_DIR
  vacant : ∃ n, Vacant a d n k name
  nlink : c.nlink (a.disk t) ((a.disk t).nlink + 1)
  write : c.write (a.disk d) (dirent t name)
  released : Released c
    ((a.relink t ((a.disk t).nlink + 1)).putEntry d k (dirent t name)) t b

/-- The state in a transaction. -/
def View.beginOp (a : View Pid) : View Pid := { a with outstanding := a.outstanding + 1 }

def View.endOp (a : View Pid) : View Pid := { a with outstanding := a.outstanding - 1 }

theorem View.endOp_beginOp (a : View Pid) : a.beginOp.endOp = a := by
  simp [View.beginOp, View.endOp]

section Rules

variable [DecidableEq Pid] {c : Cond} {bad : String → Prop} {a : View Pid} {i : Slot} {p : Pid}
  {d t : UInt32} {Q : Unit → View Pid → Prop}

theorem wp_beginOp (hQ : Q () a.beginOp) :
    (logic c.K bad).wp Op.beginOp.perform Q a :=
  wp_op (o := .beginOp) trivial rfl fun _ => hQ

theorem wp_endOp (hQ : Q () a.endOp) :
    (logic c.K bad).wp Op.endOp.perform Q a :=
  wp_op (o := .endOp) trivial rfl fun _ => hQ

section

omit [DecidableEq Pid]

theorem Tidy.beginOp (h : Tidy a) : Tidy a.beginOp := by
  refine ⟨h.toNeat.update rfl rfl rfl rfl h.type h.range fun u hu => ?_, h.orphan⟩
  obtain ⟨n, hn⟩ := h.dirs u hu
  exact ⟨n, hn.congr rfl rfl rfl rfl⟩

theorem Sound.beginOp (h : Sound a) : Sound a.beginOp := fun t n k hdir =>
  h t n k (hdir.congr rfl rfl rfl rfl)

theorem Allows.beginOp (h : Allows bad a) : Allows bad a.beginOp :=
  ⟨h.expected, fun hbad => ⟨(h.sound hbad).1.beginOp, (h.sound hbad).2⟩⟩

end

/-! ### `link` -/

section

omit [DecidableEq Pid]

theorem Sound.relink (h : Sound a) (x : Int16) : Sound (a.relink t x) := by
  intro u n k hdir hk hne
  rw [relink_type]
  exact h u n k (hdir.congr rfl (a.relink_type t x u).symm (a.relink_size t x u).symm rfl) hk hne

theorem Allows.relink (h : Allows bad a) (x : Int16) : Allows bad (a.relink t x) := by
  refine ⟨h.expected, fun hbad => ⟨(h.sound hbad).1.relink x, ?_⟩⟩
  rw [relink_type]
  exact (h.sound hbad).2

theorem Allows.refTo (h : Allows bad a) {l : Option Pid} {v : Bool} :
    Allows bad (a.refTo i t l v) :=
  ⟨h.expected, fun hbad => ⟨fun u n k hdir => (h.sound hbad).1 u n k
    (hdir.congr rfl rfl rfl rfl), (h.sound hbad).2⟩⟩

/-- While `link` looks for the new name it has a reference to the file, so that the
number of links does not matter. -/
theorem Tidy.relink_refTo (h : Tidy a) (hi : a.Taken i t true) (x : Int16) :
    Tidy ((a.relink t x).refTo i t none true) := by
  have h1 := h.refTo hi
  refine ⟨h1.toNeat.relink t x, fun u hu hn => ?_⟩
  by_cases hut : u = t
  · subst hut
    exact ⟨i, _, refTo_inode .., rfl⟩
  · have hdisk : (a.relink t x).disk u = a.disk u := relink_disk_of_ne hut
    change ((a.relink t x).disk u).type ≠ 0 at hu
    change ((a.relink t x).disk u).nlink = 0 at hn
    rw [hdisk] at hu hn
    exact h1.orphan u hu hn

theorem View.relink_relink (a : View Pid) (t : UInt32) :
    (a.relink t ((a.disk t).nlink + 1)).relink t
      (((a.relink t ((a.disk t).nlink + 1)).disk t).nlink + -1) = a := by
  rw [relink_disk]
  have hnlink : ((a.disk t).setNlink ((a.disk t).nlink + 1)).nlink + -1 = (a.disk t).nlink := by
    change (a.disk t).nlink + 1 + -1 = (a.disk t).nlink
    rw [Int16.add_assoc]
    exact Int16.add_zero _
  rw [hnlink, View.relink, relink_disk, View.relink]
  have hself : ((a.disk t).setNlink ((a.disk t).nlink + 1)).setNlink (a.disk t).nlink =
      a.disk t := rfl
  rw [hself]
  simp only [View.putDisk, Function.update_idem, Function.update_eq_self]

end

/-- `link` fails after it has changed the number of links. -/
theorem wp_linkBad {Q : Option Unit → View Pid → Prop} (h : Tidy a) (hi : a.Taken i t true)
    (hQ : Q none a.endOp) : (logic c.K bad).wp (linkBad p i) Q
      ((a.relink t ((a.disk t).nlink + 1)).refTo i t none true) := by
  have hty : ((a.relink t ((a.disk t).nlink + 1)).disk t).type ≠ 0 := by
    rw [relink_type]
    exact hi.type rfl
  unfold linkBad
  refine .bind (wp_ilock_taken (h.toNeat.relink t _).toSettled
    ⟨hi.can, fun _ => rfl, fun _ => hty⟩ (fun _ => hty) fun _ => ?_)
  refine .bind (wp_addNlink (refTo_inode ..) rfl (by exact h.dirty t)
    fun _ => ?_)
  change (logic c.K bad).wp _ Q (((a.relink t ((a.disk t).nlink + 1)).relink t
    (((a.relink t ((a.disk t).nlink + 1)).disk t).nlink + -1)).refTo i t (some p) true)
  rw [relink_relink]
  refine .bind (wp_iunlockput_spare (h.toSettled.spare h.orphan hi.can hi.type)
    (h.dirty t) ?_)
  exact .bind (wp_endOp hQ)

omit [DecidableEq Pid] in
theorem View.Spare.refTo {j : Slot} {u : UInt32} {l : Option Pid} {v w : Bool}
    (h : a.Spare j u w) (hij : j ≠ i) : (a.refTo i t l v).Spare j u w := by
  unfold View.Spare
  rwa [refTo_inode_of_ne hij]

/-- `dirlink` gives back the inode it has found under the name. -/
theorem wp_iput_found (h : Tidy a) (hi : a.Taken i t true) {j : Slot} {u : UInt32}
    (hj : (a.refTo i t (some p) true).CanGrab j u) (hQ : Q () (a.refTo i t (some p) true)) :
    (logic c.K bad).wp (iput p j) Q ((a.refTo i t (some p) true).grab j u) := by
  by_cases hji : j = i
  · -- the process waits for itself
    subst hji
    have hentry : ((a.refTo j t (some p) true).grab j u).inode j =
        some ⟨t, a.refs j + 1 + 1, some p, true⟩ := by
      unfold View.grab
      rw [set_inode, refTo_inode]
    exact wp_iput hentry (.inl trivial) (h.dirty t) (fun _ => hi.type rfl) (fun hl => absurd hl (by simp))
      fun hl => absurd hl (by simp)
  · obtain ⟨w, hw, heq, -⟩ := h.toSettled.grab_refTo h.orphan hi hj
    rw [heq, refTo_comm hji]
    have hspare := h.toSettled.spare h.orphan hw.can hw.type
    refine wp_iput_spare (hspare.refTo hji) ?_ (h.dirty u) hQ
    rw [refTo_inode_of_ne hji]
    exact hw.valid

/-- The part of `link` for a file of which the number of links has been changed. -/
theorem wp_linkInto {Q : Option Unit → View Pid → Prop} {dp : Slot} {name : Str} {x : Int16}
    (hx : x = (a.disk t).nlink + 1) (h : Tidy a) (hb : Allows bad a) (hi : a.Taken i t true)
    (hfile : (a.disk t).type ≠ T_DIR) (hnlink : c.nlink (a.disk t) ((a.disk t).nlink + 1))
    (hdp : ((a.relink t x).refTo i t none true).Taken dp d true)
    (hdir : ((a.relink t x).disk d).type = T_DIR) (hnone : Q none a.endOp)
    (hlink : ∀ k b, Linked c a d t k name b → Q (some ()) b.endOp) :
    (logic c.K bad).wp (linkInto p i dp name) Q
      (((a.relink t x).refTo i t none true).refTo dp d none true) := by
  have hA := h.relink_refTo hi x
  have hdt : d ≠ t := by
    rintro rfl
    rw [relink_type] at hdir
    exact hfile hdir
  have hne : i ≠ dp := by
    rintro rfl
    rcases hdp.can with ⟨e, he, hinum⟩ | ⟨hnone, -⟩
    · rw [refTo_inode] at he
      rw [← Option.some.inj he] at hinum
      exact hdt hinum.symm
    · simp at hnone
  set A := (a.relink t x).refTo i t none true with hAdef
  obtain ⟨n, hok⟩ := hA.dirs d hdir
  have hok' : DirOk a d n := hok.congr rfl (a.relink_type t x d).symm (a.relink_size t x d).symm rfl
  have hspare := hA.toSettled.spare hA.orphan hdp.can hdp.type
  unfold linkInto
  refine .bind (wp_ilock_taken hA.toSettled hdp (fun _ => hdp.type rfl) fun hdp => ?_)
  refine .bind (wp_ids (refTo_inode ..) ?_)
  have hentry : (A.refTo dp d (some p) true).inode i = some ⟨t, a.refs i + 1, none, true⟩ := by
    rw [refTo_inode_of_ne hne, hAdef, refTo_inode]
    rfl
  refine .bind (wp_ids hentry ?_)
  have hlinkEntry : linkEntry p dp name (ROOTDEV, d) (ROOTDEV, t) = dirlink p dp name t :=
    if_neg (not_not.mpr rfl)
  rw [hlinkEntry]
  refine .bind (wp_dirlink (refTo_inode ..) rfl hok.refTo.toIsDir
    hA.toSettled.one_le_ref_refTo (hA.dirty d) hb.iget (hb.expected _ (by decide)) hok.range
    (fun k j hk _ hj => ?_) fun k hfresh hk hmax hused hfree hK => ?_)
  · refine wp_iput_found hA hdp hj ?_
    rw [if_pos rfl]
    refine .bind (wp_iunlockput_spare hspare (hA.dirty d) ?_)
    rw [hAdef, hx]
    exact wp_linkBad h hi hnone
  · rw [if_neg (by decide)]
    have hspare' : (A.putEntry d k (dirent t name)).Spare dp d true := by
      rcases hspare with ⟨hi, hn⟩ | hsome
      · refine .inl ⟨hi, fun hv => ?_⟩
        rw [putEntry_disk]
        exact hn hv
      · exact .inr hsome
    refine .bind (wp_iunlockput_spare hspare' (hA.dirty d) ?_)
    have hty : (((a.relink t x).putEntry d k (dirent t name)).disk t).type ≠ 0 := by
      rw [putEntry_type, relink_type]
      exact hi.type rfl
    refine .bind (wp_iput_release (by exact h.toSettled.clean hi.can)
      (by exact h.dirty t) hty fun b hreleased => ?_)
    refine .bind (wp_endOp (hlink k b ⟨hi.type rfl, hfile,
      ⟨n, hok', hfresh, hk, hmax, hused, hfree⟩, hnlink, ?_, hx ▸ hreleased⟩))
    have hwrite := hK _ (refTo_inode ..)
    change c.write ((a.relink t x).disk d) (dirent t name) at hwrite
    rwa [relink_disk_of_ne hdt] at hwrite

/-- **`link`** gives a file another name, or changes nothing. -/
theorem wp_sysLink {Q : Option Unit → View Pid → Prop} {old new : Str} (h : Tidy a)
    (hb : Allows bad a) (hnone : Q none a)
    (hlink : ∀ d t k name b, Linked c a.beginOp d t k name b → Q (some ()) b.endOp) :
    (logic c.K bad).wp (sysLink p old new) Q a := by
  have h0 := h.beginOp
  have hb0 := hb.beginOp
  have hsame : Q none a.beginOp.endOp := by rwa [endOp_beginOp]
  unfold sysLink
  refine .bind (wp_beginOp ?_)
  refine .bind (wp_namei h0 hb0 (.bind (wp_endOp hsame))
    fun ip t w hip hty => ?_)
  refine .bind (wp_ilock_taken h0.toSettled hip hty fun hip => ?_)
  refine .bind (wp_fields (refTo_inode ..) rfl ?_)
  split
  · refine .bind (wp_iunlockput_spare
      (h0.toSettled.spare h0.orphan hip.can hip.type) (h0.dirty t) ?_)
    exact .bind (wp_endOp hsame)
  · rename_i hfile
    refine .bind (wp_addNlink (refTo_inode ..) rfl (by exact h0.dirty t)
      fun hK => ?_)
    have hnlink := hK _ (refTo_inode ..)
    refine .bind (wp_iunlock_taken (h0.toNeat.relink t _).toSettled ?_)
    refine .bind (wp_nameiparent (h0.relink_refTo hip _) (hb0.relink _).refTo
      (fun _ => wp_linkBad h0 hip hsame) fun dp d name _ hdp hdir => ?_)
    exact wp_linkInto rfl h0 hb0 hip hfile hnlink hdp hdir hsame fun k b => hlink d t k name b

end Rules

end Xv6.Fs
