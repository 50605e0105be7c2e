import Xv6.Fs.Link

/-!
# Removing a name

The rule for `unlink`: it takes away a name of a file, or the name of a directory
that is empty (`Xv6.Fs.Unlinked`), or it fails and the tree is what it was. The
inode is freed if this was its last name and nobody has it open; and so is the
directory of which the entry is removed, should it be one without links.
-/

namespace Xv6.Fs

open Lib View

variable {Pid : Type}

/-- There are no entries but the first two among `n` ones. -/
def NoEntries (f : ℕ → UInt8) (n : ℕ) : Prop := ∀ j, 2 ≤ j → j < n → entInum f j = 0

/-- Directory `d` without the entry `k`, which was one for inode `t`. -/
def View.unlinked (a : View Pid) (d t : UInt32) (k : ℕ) : View Pid :=
  if (a.disk t).type = T_DIR then
    (a.putEntry d k emptyDirent).relink d ((a.disk d).nlink - 1)
  else
    a.putEntry d k emptyDirent

/-- **What `unlink` does** to take away the entry `k` of directory `d`, which is one
for inode `t`. -/
structure Unlinked (c : Cond) (a : View Pid) (d t : UInt32) (k : ℕ) (b : View Pid) : Prop where
  ne : d ≠ t
  type : (a.disk t).type ≠ 0
  links : 1 ≤ (a.disk t).nlink
  dir : ∃ n, DirOk a d n ∧ k < n
  entry : entInum (a.data d) k = t
  name : ¬IsDots (entName (a.data d) k)
  empty : (a.disk t).type = T_DIR → ∃ n, DirOk a t n ∧ NoEntries (a.data t) n
  released : ∃ a', Released c (a.unlinked d t k) d a' ∧
    Released c (a'.relink t ((a.disk t).nlink - 1)) t b

section Rules

variable [DecidableEq Pid] {c : Cond} {bad : String → Prop} {a b : View Pid} {dp ip : Slot}
  {e : Entry Pid} {p : Pid} {d t : UInt32} {n k : ℕ} {Q : Option Unit → View Pid → Prop}

/-! ### Empty directories -/

theorem wp_isdiremptyLoop {Q : Bool → View Pid → Prop} (h : a.inode dp = some e)
    (hv : e.valid = true) (hdir : IsDir a e.inum n)
    (hempty : NoEntries (a.data e.inum) n → Q true a) (hused : Q false a) :
    ∀ m k, k + m = n → (∀ j, 2 ≤ j → j < k → entInum (a.data e.inum) j = 0) →
      (logic c.K bad).wp (isdiremptyLoop p dp m (offOf k)) Q a := by
  intro m
  induction m with
  | zero =>
    intro k hk hzero
    exact hempty fun j h2 hj => hzero j h2 (by omega)
  | succ m ih =>
    intro k hk hzero
    rw [isdiremptyLoop]
    refine .bind (wp_readEntry h hv hdir (by omega) ?_)
    by_cases h0 : entInum (a.data e.inum) k = 0
    · rw [if_neg (not_not.mpr (by exact h0)), offOf_succ]
      refine ih (k + 1) (by omega) fun j h2 hj => ?_
      rcases Nat.lt_succ_iff_lt_or_eq.mp hj with hj | rfl
      · exact hzero j h2 hj
      · exact h0
    · rwa [if_pos (by exact h0)]

/-- **`isdirempty`** finds out whether there are entries other than the first two. -/
theorem wp_isdirempty {Q : Bool → View Pid → Prop} (h : a.inode dp = some e) (hv : e.valid = true)
    (hdir : IsDir a e.inum n) (h2 : 2 ≤ n) (hempty : NoEntries (a.data e.inum) n → Q true a)
    (hused : Q false a) : (logic c.K bad).wp (isdirempty p dp) Q a := by
  unfold isdirempty
  refine .bind (wp_fields h hv ?_)
  rw [nentries_eq hdir.size]
  exact wp_isdiremptyLoop h hv hdir hempty hused (n - 2) 2 (by omega) fun j _ hj => by omega

/-! ### `unlink` -/

section

omit [DecidableEq Pid]

theorem Released.inode (h : Released c a t b) : b.inode = a.inode := by
  rcases h with ⟨-, -, rfl⟩ | ⟨-, rfl⟩ <;> rfl

theorem Released.dirty (h : Released c a t b) : b.dirty = a.dirty := by
  rcases h with ⟨-, -, rfl⟩ | ⟨-, rfl⟩ <;> rfl

theorem Released.disk_of_ne {u : UInt32} (h : Released c a t b) (hu : u ≠ t) :
    b.disk u = a.disk u := by
  rcases h with ⟨-, -, rfl⟩ | ⟨-, rfl⟩
  · exact free_disk_of_ne hu
  · rfl

theorem View.unlinked_inode (a : View Pid) (d t : UInt32) (k : ℕ) :
    (a.unlinked d t k).inode = a.inode := by
  unfold View.unlinked
  split <;> rfl

theorem View.unlinked_dirty (a : View Pid) (d t : UInt32) (k : ℕ) :
    (a.unlinked d t k).dirty = a.dirty := by
  unfold View.unlinked
  split <;> rfl

theorem View.unlinked_disk_of_ne {u : UInt32} (h : u ≠ d) :
    (a.unlinked d t k).disk u = a.disk u := by
  unfold View.unlinked
  split
  · rw [relink_disk_of_ne h, putEntry_disk_of_ne h]
  · rw [putEntry_disk_of_ne h]

theorem View.unlinked_type (a : View Pid) (d t : UInt32) (k : ℕ) (u : UInt32) :
    ((a.unlinked d t k).disk u).type = (a.disk u).type := by
  unfold View.unlinked
  split
  · rw [relink_type, putEntry_type]
  · rw [putEntry_type]

end

/-- `unlink` removes the entry. -/
theorem wp_unlinkEntry (hne : dp ≠ ip) (hdt : d ≠ t) (hdirty : ∀ t, a.dirty t = false)
    (hdp : a.Clean dp d) (hip : a.Clean ip t) (hdir : DirOk a d n) (hk : k < n)
    (hty : (a.disk t).type ≠ 0)
    (hQ : ∀ a' b, Released c (a.unlinked d t k) d a' →
      Released c (a'.relink t ((a.disk t).nlink - 1)) t b → Q (some ()) b.endOp) :
    (logic c.K bad).wp (unlinkEntry p dp ip (offOf k)) Q (a.pair p dp d ip t) := by
  have hdirp : IsDir (a.pair p dp d ip t) d n := ⟨hdir.type, hdir.size, hdir.le⟩
  have htype : ((a.pair p dp d ip t).disk d).type ≠ 0 ∧
      ((a.pair p dp d ip t).disk d).type ≠ T_DEV := by
    rw [hdirp.type]
    decide
  unfold unlinkEntry
  refine .bind (wp_writei (pair_fst hne) rfl htype.1 htype.2 fun _ => ?_)
  rw [writei_entry hdirp (hdirty d) hk.le (lt_of_lt_of_le hk hdir.le) length_emptyDirent]
  refine .bind (wp_panicIf (fun hc => absurd rfl hc) fun _ => ?_)
  refine .bind (wp_fields (pair_snd hne) rfl ?_)
  have hdiskt : (a.putEntry d k emptyDirent).disk t = a.disk t :=
    putEntry_disk_of_ne hdt.symm
  change (logic c.K bad).wp (onlyIf (((a.putEntry d k emptyDirent).disk t).type = T_DIR) _ >>= _)
    Q _
  rw [hdiskt]
  -- a directory had a link from its entry `..`
  have hparent : ∀ {Q' : Unit → View Pid → Prop}, Q' () ((a.unlinked d t k).pair p dp d ip t) →
      (logic c.K bad).wp (onlyIf ((a.disk t).type = T_DIR) (addNlink dp (-1))) Q'
        ((a.putEntry d k emptyDirent).pair p dp d ip t) := by
    intro Q' hQ'
    unfold View.unlinked at hQ'
    unfold onlyIf
    split
    · rename_i ht
      rw [if_pos ht] at hQ'
      refine wp_addNlink (pair_fst hne) rfl (by exact hdirty d) fun _ => ?_
      change Q' () (((a.putEntry d k emptyDirent).relink d
        (((a.putEntry d k emptyDirent).disk d).nlink + -1)).pair p dp d ip t)
      rw [putEntry_disk]
      rwa [Int16.sub_eq_add_neg] at hQ'
    · rename_i ht
      rwa [if_neg ht] at hQ'
  refine .bind (hparent ?_)
  have hinode := a.unlinked_inode d t k
  have hdp' : (a.unlinked d t k).Clean dp d := by
    unfold View.Clean View.Unused
    rwa [hinode]
  have hip' : (a.unlinked d t k).Clean ip t := by
    unfold View.Clean View.Unused
    rwa [hinode]
  refine .bind (wp_iunlockput_fst hne hdt.symm hdp' hip'
    (by rw [unlinked_dirty]; exact hdirty d)
    (by rw [unlinked_type]; exact htype.1) fun a' ha' => ?_)
  have hdirty' : a'.dirty t = false := by
    rw [ha'.dirty, unlinked_dirty]
    exact hdirty t
  have hnlink : a'.disk t = a.disk t := by
    rw [ha'.disk_of_ne hdt.symm, unlinked_disk_of_ne hdt.symm]
  refine .bind (wp_addNlink (refTo_inode ..) rfl hdirty' fun _ => ?_)
  change (logic c.K bad).wp _ Q
    ((a'.relink t ((a'.disk t).nlink + -1)).refTo ip t (some p) true)
  rw [hnlink, ← Int16.sub_eq_add_neg]
  have hclean : (a'.relink t ((a.disk t).nlink - 1)).Clean ip t := by
    change a'.Clean ip t
    unfold View.Clean View.Unused
    rwa [ha'.inode]
  have hty' : ((a'.relink t ((a.disk t).nlink - 1)).disk t).type ≠ 0 := by
    rwa [relink_type, hnlink]
  refine .bind (wp_iunlockput_release hclean hdirty' hty' fun b hb => ?_)
  exact .bind (wp_endOp (hQ a' b ha' hb))

/-- `unlink` fails. -/
theorem wp_unlinkBad (h : Tidy a) (hdp : a.Taken dp d true) (hQ : Q none a.endOp) :
    (logic c.K bad).wp (unlinkBad p dp) Q (a.refTo dp d (some p) true) := by
  unfold unlinkBad
  refine .bind (wp_iunlockput_spare (h.toSettled.spare h.orphan hdp.can hdp.type)
    (h.dirty d) ?_)
  exact .bind (wp_endOp hQ)

/-- Locking the inode that `dirlookup` has found in a directory. If it is the directory
itself, the process waits for itself. -/
theorem wp_ilock_pair {Q : Unit → View Pid → Prop} {w : Bool} (h : Settled a)
    (hip : a.Taken ip t w) (hbad : bad "ilock: no type" → (a.disk t).type ≠ 0)
    (hQ : dp ≠ ip → a.Taken ip t true → Q () (a.pair p dp d ip t)) :
    (logic c.K bad).wp (ilock p ip) Q ((a.refTo ip t none w).refTo dp d (some p) true) := by
  by_cases hne : ip = dp
  · subst hne
    have href : 1 ≤ (a.refTo ip t none w).refs ip + 1 := by
      have := h.one_le_refs (i := ip)
      rw [refs_some (refTo_inode ..)]
      simp only
      omega
    exact wp_ilock (refTo_inode ..) href (.inl trivial) (fun hv => absurd hv (by simp))
      fun hl => absurd hl (by simp)
  · rw [refTo_comm hne]
    have hrefs : (a.refTo dp d (some p) true).refs ip = a.refs ip := by
      unfold View.refs
      rw [refTo_inode_of_ne hne]
    refine wp_ilock (refTo_inode ..) (by rw [hrefs]; exact h.one_le_refs) (.inr rfl)
      (fun _ h0 hb => hbad hb h0) fun _ hv => ?_
    have hty : (a.disk t).type ≠ 0 := by
      cases hw : w with
      | true => exact hip.type hw
      | false => exact hv hw
    rw [View.refTo.eq_1 (a.refTo dp d (some p) true), set_set]
    exact hQ (Ne.symm hne) ⟨hip.can, fun _ => rfl, fun _ => hty⟩

/-- **`unlink`** removes a name, or changes nothing. -/
theorem wp_sysUnlink {path : Str} (h : Tidy a) (hb : Allows bad a) (hnone : Q none a)
    (hunlink : ∀ d t k b, Unlinked c a.beginOp d t k b → Q (some ()) b.endOp) :
    (logic c.K bad).wp (sysUnlink p path) Q a := by
  have h0 := h.beginOp
  have hb0 := hb.beginOp
  have hsame : Q none a.beginOp.endOp := by rwa [endOp_beginOp]
  unfold sysUnlink
  refine .bind (wp_beginOp ?_)
  refine .bind (wp_nameiparent h0 hb0 (fun _ => .bind (wp_endOp hsame))
    fun dp d name _ hdp hdir => ?_)
  refine .bind (wp_ilock_taken h0.toSettled hdp (fun _ => hdp.type rfl)
    fun hdp => ?_)
  obtain ⟨n, hok⟩ := h0.dirs d hdir
  by_cases hdots : IsDots name
  · rw [if_pos (by exact hdots)]
    exact wp_unlinkBad h0 hdp hsame
  rw [if_neg (by exact hdots)]
  refine .bind (wp_dirlookup_taken h0.toSettled h0.orphan hdp hok hb0.iget
    (fun _ => wp_unlinkBad h0 hdp hsame) fun k ip w hk hm _ hip _ hud _ => ?_)
  refine .bind (wp_ilock_pair h0.toSettled hip
    (fun hbad => (hb0.sound hbad).1 d n k hok hk hm.1) fun hne hip => ?_)
  set t := entInum (a.beginOp.data d) k with ht
  have hdt : d ≠ t := fun hc => hud (Ne.symm hne) hc.symm
  refine .bind (wp_fields (pair_snd hne) rfl ?_)
  refine .bind (wp_panicIf (fun _ => hb0.expected _ (by decide)) fun hlinks => ?_)
  -- the inode is not a directory, or an empty one
  have hgood : ((a.beginOp.disk t).type = T_DIR → ∃ m, DirOk a.beginOp t m ∧
      NoEntries (a.beginOp.data t) m) → (logic c.K bad).wp (unlinkEntry p dp ip (offOf k)) Q
        (a.beginOp.pair p dp d ip t) := fun hempty =>
    wp_unlinkEntry hne hdt h0.dirty (h0.toSettled.clean hdp.can) (h0.toSettled.clean hip.can) hok
      hk (hip.type rfl) fun a' b ha' hb' => hunlink d t k b ⟨hdt, hip.type rfl, Int16.not_lt.mp hlinks,
        ⟨n, hok, hk⟩, rfl, fun hc => hdots (hm.2.isDots hc), hempty, a', ha', hb'⟩
  have hused : (logic c.K bad).wp (do
      iunlockput p ip
      unlinkBad p dp) Q (a.beginOp.pair p dp d ip t) := by
    have hspare := h0.toSettled.spare h0.orphan hip.can hip.type
    exact .bind (wp_iunlockput_spare (hspare.refTo (Ne.symm hne)) (h0.dirty t)
      (wp_unlinkBad h0 hdp hsame))
  refine .bind ?_
  unfold unlinkable
  split
  · rename_i htype
    obtain ⟨m, hmdir⟩ := h0.dirs t htype
    have hmp : IsDir (a.beginOp.pair p dp d ip t) t m := ⟨hmdir.type, hmdir.size, hmdir.le⟩
    refine wp_isdirempty (pair_snd hne) rfl hmp hmdir.two_le (fun hno => ?_) ?_
    · rw [if_neg (by decide)]
      exact hgood fun _ => ⟨m, hmdir, hno⟩
    · rwa [if_pos rfl]
  · rename_i htype
    exact hgood fun hc => absurd hc htype

end Rules

end Xv6.Fs
