import Xv6.Fs.Dir

/-!
# Rules for path names

What `namex` does when nobody else is active: it walks along the path
(`Xv6.Fs.View.walk`), returns the inode at the end with one more reference to it,
and leaves everything else as it was (`Xv6.Fs.wp_namex`).

Between two system calls the inode cache is *settled* (`Xv6.Fs.Settled`): its
entries have been read and are not locked. A reference to an inode that a function
takes and gives back again changes nothing then, provided that giving it back does
not free the inode (`Xv6.Fs.View.Spare`); and it does not, because an inode without
links that nobody refers to has been freed before (`Xv6.Fs.NoOrphan`).
-/

namespace Xv6.Fs

open Lib View

variable {Pid : Type}

/-- An entry of the inode cache for an inode with the given type, between two system calls. -/
structure Entry.Rests (e : Entry Pid) (type : Int16) : Prop where
  ref : 1 ≤ e.ref
  lock : e.lock = none
  valid : e.valid = true
  type : type ≠ 0

/-- **The inode cache between two system calls.** -/
structure Settled (a : View Pid) : Prop where
  entries : ∀ i e, a.inode i = some e → e.Rests (a.disk e.inum).type
  uniq : ∀ i j e e', a.inode i = some e → a.inode j = some e' → e.inum = e'.inum → i = j
  dirty : ∀ t, a.dirty t = false

/-- An inode that has no links and is not free is referred to. -/
def NoOrphan (a : View Pid) : Prop :=
  ∀ t, (a.disk t).type ≠ 0 → (a.disk t).nlink = 0 → ∃ i e, a.inode i = some e ∧ e.inum = t

/-- **The directories**: their entries name inodes that there are, and the first two
are those for the directory itself and for its parent. -/
structure DirOk (a : View Pid) (t : UInt32) (n : ℕ) : Prop extends IsDir a t n where
  two_le : 2 ≤ n
  self : entInum (a.data t) 0 = t
  dot : SameName (entName (a.data t) 0) dot
  dotdot : SameName (entName (a.data t) 1) dotdot
  parent : entInum (a.data t) 1 ≠ 0
  range : ∀ k, k < n → entInum (a.data t) k < a.ninodes

/-- Every directory is as it should be. -/
def DirsOk (a : View Pid) : Prop := ∀ t, (a.disk t).type = T_DIR → ∃ n, DirOk a t n

namespace View

variable {a : View Pid} {i : Slot}

/-- One more reference to inode `t` at entry `i`. -/
def refTo (a : View Pid) (i : Slot) (t : UInt32) (l : Option Pid) (v : Bool) : View Pid :=
  a.set i (some ⟨t, a.refs i + 1, l, v⟩)

/-- A reference to inode `t` at entry `i` can be given back without freeing the
inode. -/
def Spare (a : View Pid) (i : Slot) (t : UInt32) (v : Bool) : Prop :=
  a.inode i = none ∧ (v = true → (a.disk t).nlink ≠ 0) ∨
    ∃ r, a.inode i = some ⟨t, r, none, true⟩ ∧ 1 ≤ r

@[simp] theorem refTo_inode (a : View Pid) (i : Slot) (t : UInt32) (l : Option Pid) (v : Bool) :
    (a.refTo i t l v).inode i = some ⟨t, a.refs i + 1, l, v⟩ := set_inode ..

theorem refTo_inode_of_ne {j : Slot} {t : UInt32} {l : Option Pid} {v : Bool} (h : j ≠ i) :
    (a.refTo i t l v).inode j = a.inode j := set_inode_of_ne h

theorem refTo_cases {j : Slot} {e : Entry Pid} {t : UInt32} {l : Option Pid} {v : Bool}
    (h : (a.refTo i t l v).inode j = some e) :
    j = i ∧ e = ⟨t, a.refs i + 1, l, v⟩ ∨ j ≠ i ∧ a.inode j = some e := by
  by_cases hji : j = i
  · subst hji
    rw [refTo_inode] at h
    exact .inl ⟨rfl, (Option.some.inj h).symm⟩
  · rw [refTo_inode_of_ne hji] at h
    exact .inr ⟨hji, h⟩

theorem refs_some {e : Entry Pid} (h : a.inode i = some e) :
    a.refs i = e.ref := by rw [refs, h]

theorem refs_none (h : a.inode i = none) : a.refs i = 0 := by
  rw [refs, h]

/-- **There is no entry of the inode cache for `u`**, with one in use for `t`: it is another inode,
which is not in the cache, and no entry is free but for the one that `t` takes up. -/
def Crowded (a : View Pid) (t u : UInt32) : Prop :=
  u ≠ t ∧ (∀ j e, a.inode j = some e → e.inum ≠ u) ∧
    ∀ i, a.CanGrab i t → ∀ j, j ≠ i → a.inode j ≠ none

theorem crowded_iff {t u : UInt32} {l : Option Pid} {v : Bool} (hi : a.CanGrab i t) :
    a.Crowded t u ↔ ∀ j, ¬(a.refTo i t l v).CanGrab j u := by
  refine ⟨fun ⟨hne, hno, hfull⟩ j hj => ?_, fun h => ?_⟩
  · rcases hj with ⟨e, he, rfl⟩ | ⟨hnone, -⟩
    · rcases refTo_cases he with ⟨-, rfl⟩ | ⟨-, he⟩
      · exact hne rfl
      · exact hno j e he rfl
    · by_cases hji : j = i
      · subst hji
        simp at hnone
      · exact hfull i hi j hji ((refTo_inode_of_ne hji).symm.trans hnone)
  · have hne : u ≠ t := fun hut => h i (.inl ⟨_, refTo_inode .., hut.symm⟩)
    have hno : ∀ j e, a.inode j = some e → e.inum ≠ u := by
      intro j e he hinum
      by_cases hji : j = i
      · subst hji
        rcases hi with ⟨e', he', rfl⟩ | ⟨hnone, -⟩
        · exact hne (hinum.symm.trans (congrArg Entry.inum (Option.some.inj (he.symm.trans he'))))
        · rw [he] at hnone
          cases hnone
      · exact h j (.inl ⟨e, (refTo_inode_of_ne hji).trans he, hinum⟩)
    -- a free entry other than the one that is taken
    have hfree : ∀ j, j ≠ i → a.inode j ≠ none := by
      refine fun j hji hnone => h j (.inr ⟨(refTo_inode_of_ne hji).trans hnone, fun k e he => ?_⟩)
      rcases refTo_cases he with ⟨-, rfl⟩ | ⟨-, he⟩
      · exact hne.symm
      · exact hno k e he
    refine ⟨hne, hno, fun i' hi' j hji hnone => ?_⟩
    by_cases hj : j = i
    · subst hj
      rcases hi' with ⟨e, he, rfl⟩ | ⟨hnone', -⟩
      · rcases hi with ⟨e', he', -⟩ | ⟨-, hno'⟩
        · rw [hnone] at he'
          cases he'
        · exact hno' i' e he rfl
      · exact hfree i' hji.symm hnone'
    · exact hfree j hj hnone

theorem set_self {x : Option (Entry Pid)} (h : a.inode i = x) :
    a.set i x = a := by
  rw [set, ← h, Function.update_eq_self]

end View

section Rules

variable [DecidableEq Pid] {K : View Pid → Op Pid → Prop} {bad : String → Prop} {W : Prop}
  {a : View Pid} {i : Slot} {e : Entry Pid} {p : Pid} {t u : UInt32} {v : Bool} {path name : Str}
  {Q : Unit → View Pid → Prop} {n : ℕ} {l : Option Pid}

section

omit [DecidableEq Pid]

section

variable (h : Settled a)
include h

theorem Settled.ref (i : Slot) (e : Entry Pid) (hi : a.inode i = some e) : 1 ≤ e.ref :=
  (h.entries i e hi).ref

theorem Settled.lock (i : Slot) (e : Entry Pid) (hi : a.inode i = some e) : e.lock = none :=
  (h.entries i e hi).lock

theorem Settled.valid (i : Slot) (e : Entry Pid) (hi : a.inode i = some e) : e.valid = true :=
  (h.entries i e hi).valid

theorem Settled.type (i : Slot) (e : Entry Pid) (hi : a.inode i = some e) :
    (a.disk e.inum).type ≠ 0 := (h.entries i e hi).type

theorem Settled.entry (hi : a.inode i = some e) : e = ⟨e.inum, e.ref, none, true⟩ := by
  rw [← h.lock i e hi, ← h.valid i e hi]

theorem Settled.grab (hg : a.CanGrab i t) :
    a.grab i t = a.refTo i t none (a.inode i).isSome := by
  unfold View.grab View.refTo
  rcases hg with ⟨e, he, rfl⟩ | ⟨hnone, -⟩
  · rw [he, refs_some he, h.entry he]
    rfl
  · rw [hnone, refs_none hnone]
    rfl

end

theorem Settled.spare (h : Settled a) (hN : NoOrphan a) (hg : a.CanGrab i t)
    (ht : v = true → (a.disk t).type ≠ 0) : a.Spare i t v := by
  rcases hg with ⟨e, he, rfl⟩ | ⟨hnone, hno⟩
  · refine .inr ⟨e.ref, ?_, h.ref i e he⟩
    rw [he]
    exact congrArg some (h.entry he)
  · refine .inl ⟨hnone, fun hv hn => ?_⟩
    obtain ⟨j, e, hj, hinum⟩ := hN t (ht hv) hn
    exact hno j e hj hinum

theorem View.Spare.not_last (h : a.Spare i t v) (l : Option Pid) :
    ¬(a.refTo i t l v).Last ⟨t, a.refs i + 1, l, v⟩ := by
  rintro ⟨hv, hn, hr⟩
  rcases h with ⟨-, hne⟩ | ⟨r, hi, hpos⟩
  · exact hne hv hn
  · rw [refs_some hi] at hr
    simp only at hr
    omega

theorem View.Spare.drop (h : a.Spare i t v) (hv : a.inode i ≠ none → v = true) (l : Option Pid) :
    (a.refTo i t l v).drop i ⟨t, a.refs i + 1, none, v⟩ = a := by
  unfold View.drop View.refTo
  rw [set_set]
  rcases h with ⟨hnone, -⟩ | ⟨r, hi, hpos⟩
  · rw [refs_none hnone, if_pos (by exact zero_add 1)]
    exact set_self hnone
  · rw [refs_some hi, if_neg (by simp only; omega)]
    refine set_self (hi.trans ?_)
    rw [hv (by simp [hi])]
    simp

end

/-- Giving back a reference that can be spared. -/
theorem wp_iput_spare (h : a.Spare i t v) (hv : a.inode i ≠ none → v = true)
    (hd : a.dirty t = false) (hQ : Q () a) :
    (logicOf K bad W).wp (iput p i) Q (a.refTo i t none v) := by
  refine wp_iput (a.refTo_inode i t none v) (.inr rfl) hd (fun hlast => absurd hlast (h.not_last none))
    (fun _ hlast => absurd hlast (h.not_last none)) fun _ _ => ?_
  rwa [h.drop hv]

/-- Unlocking and giving back a reference that can be spared. -/
theorem wp_iunlockput_spare (h : a.Spare i t true) (hd : a.dirty t = false) (hQ : Q () a) :
    (logicOf K bad W).wp (iunlockput p i) Q (a.refTo i t (some p) true) := by
  have hpos : 1 ≤ a.refs i + 1 := by
    rcases h with ⟨hnone, -⟩ | ⟨r, hi, hr⟩
    · rw [refs_none hnone]
      omega
    · rw [refs_some hi]
      simp only
      omega
  refine wp_iunlockput (a.refTo_inode i t (some p) true) hpos rfl hd
    (fun hlast => absurd hlast (h.not_last _)) (fun hlast => absurd hlast (h.not_last _)) fun _ => ?_
  rwa [h.drop (fun _ => rfl)]

/-! ### The walk along a path -/

/-- The first entry for a name among the first `n` ones. -/
def lookup (f : ℕ → UInt8) (n : ℕ) (name : Str) : Option ℕ :=
  (List.range n).find? fun k => Matches f name k

theorem lookup_eq_none {f : ℕ → UInt8} (h : ∀ k, k < n → ¬Matches f name k) :
    lookup f n name = none := by
  refine List.find?_eq_none.mpr fun k hk => ?_
  simpa using h k (List.mem_range.mp hk)

theorem lookup_eq_some {f : ℕ → UInt8} {k : ℕ} (hk : k < n) (hm : Matches f name k)
    (hfirst : ∀ j, j < k → ¬Matches f name j) : lookup f n name = some k := by
  refine List.find?_range_eq_some.mpr ⟨by simpa using hm, List.mem_range.mpr hk, fun j hj => ?_⟩
  simpa using hfirst j hj

/-- The walk of `namex` along the elements of a path: the inode it ends at, with the
last element it has looked at. -/
def View.walk (a : View Pid) (nameiparent : Bool) :
    List (Str × Str) → UInt32 → Str → Option (UInt32 × Str)
  | [], t, name => if nameiparent then none else some (t, name)
  | (name, path) :: rest, t, _ =>
    if (a.disk t).type ≠ T_DIR then none
    else if nameiparent ∧ path = [] then some (t, name)
    else match lookup (a.data t) (nentries (a.disk t).size) name with
      | none => none
      | some k => a.walk nameiparent rest (entInum (a.data t) k) name

section

omit [DecidableEq Pid]

/-- **The walk stops the system** with a message: it comes to an inode that is free, or there is no
entry of the inode cache for the next one. -/
def View.Stops (a : View Pid) (nameiparent : Bool) : List (Str × Str) → UInt32 → String → Prop
  | [], _, _ => False
  | (name, path) :: rest, t, msg =>
    (a.disk t).type = 0 ∧ msg = "ilock: no type" ∨
    (a.disk t).type = T_DIR ∧ ¬(nameiparent ∧ path = []) ∧
      ∃ k, lookup (a.data t) (nentries (a.disk t).size) name = some k ∧
        (a.Crowded t (entInum (a.data t) k) ∧ msg = "iget: no inodes" ∨
          ¬a.Crowded t (entInum (a.data t) k) ∧ a.Stops nameiparent rest (entInum (a.data t) k) msg)

theorem View.Stops.message {parent : Bool} {msg : String} : ∀ {es : List (Str × Str)} {t : UInt32},
    a.Stops parent es t msg → msg = "ilock: no type" ∨ msg = "iget: no inodes" := by
  intro es
  induction es with
  | nil => exact fun hmsg => hmsg.elim
  | cons x rest ih =>
    rintro t (⟨-, rfl⟩ | ⟨-, -, k, -, ⟨-, rfl⟩ | ⟨-, hmsg⟩⟩)
    · exact .inl rfl
    · exact .inr rfl
    · exact ih hmsg

theorem View.walk_congr {b : View Pid} (hdisk : b.disk = a.disk) (hdata : b.data = a.data)
    (parent : Bool) : b.walk parent = a.walk parent := by
  funext es
  induction es with
  | nil => rfl
  | cons x rest ih =>
    funext t name
    rw [View.walk, View.walk, hdisk, hdata, ih]

/-- No entry of a directory names a free inode. -/
def Sound (a : View Pid) : Prop :=
  ∀ t n k, DirOk a t n → k < n → entInum (a.data t) k ≠ 0 →
    (a.disk (entInum (a.data t) k)).type ≠ 0

/-- A reference to `t` can be had at entry `i`, where it has been read or not. -/
structure View.Taken (a : View Pid) (i : Slot) (t : UInt32) (v : Bool) : Prop where
  can : a.CanGrab i t
  valid : a.inode i ≠ none → v = true
  type : v = true → (a.disk t).type ≠ 0

variable (h : Settled a)
include h

theorem Settled.taken (hg : a.CanGrab i t) : a.Taken i t (a.inode i).isSome := by
  refine ⟨hg, fun hne => Option.isSome_iff_ne_none.mpr hne, fun hsome => ?_⟩
  rcases hg with ⟨e, he, rfl⟩ | ⟨hnone, -⟩
  · exact h.type i e he
  · simp [hnone] at hsome

theorem Settled.one_le_refs : 1 ≤ a.refs i + 1 := by
  cases hi : a.inode i with
  | none => rw [refs_none hi]; omega
  | some e =>
    have := h.ref i e hi
    rw [refs_some hi]
    omega

theorem Settled.one_le_ref_refTo :
    ∀ j e, (a.refTo i t l v).inode j = some e → 1 ≤ e.ref := by
  intro j e hj
  rcases refTo_cases hj with ⟨-, rfl⟩ | ⟨-, hj⟩
  · exact h.one_le_refs
  · exact h.ref j e hj

theorem Settled.type_refTo (ht : (a.disk t).type ≠ 0) :
    ∀ j e, (a.refTo i t l v).inode j = some e → (a.disk e.inum).type ≠ 0 := by
  intro j e hj
  rcases refTo_cases hj with ⟨-, rfl⟩ | ⟨-, hj⟩
  · exact ht
  · exact h.type j e hj

/-- A second reference, taken while the first inode is locked, may have been taken
before it. -/
theorem Settled.grab_refTo (hN : NoOrphan a) (hi : a.Taken i t true) {j : Slot}
    (hj : (a.refTo i t (some p) true).CanGrab j u) :
    ∃ w, a.Taken j u w ∧
      (a.refTo i t (some p) true).grab j u = (a.refTo j u none w).refTo i t (some p) true ∧
      (a.refTo j u none w).Spare i t true ∧ (j ≠ i → u ≠ t) := by
  have hspare := h.spare hN hi.can hi.type
  by_cases hji : j = i
  · subst hji
    obtain rfl : u = t := by
      rcases hj with ⟨e, he, rfl⟩ | ⟨hnone, -⟩
      · rw [refTo_inode] at he
        rw [← Option.some.inj he]
      · simp at hnone
    refine ⟨true, hi, ?_, .inr ⟨_, refTo_inode .., h.one_le_refs⟩,
      fun hc => absurd rfl hc⟩
    unfold View.grab
    rw [refTo_inode]
    unfold View.refTo
    rw [set_set, set_set, refs_some (set_inode ..)]
  · have hcan : a.CanGrab j u := by
      rcases hj with ⟨e, he, hinum⟩ | ⟨hnone, hno⟩
      · rw [refTo_inode_of_ne hji] at he
        exact .inl ⟨e, he, hinum⟩
      · rw [refTo_inode_of_ne hji] at hnone
        refine .inr ⟨hnone, fun k e hk => ?_⟩
        by_cases hki : k = i
        · subst hki
          have hinum : e.inum = t := by
            rcases hi.can with ⟨e', he', rfl⟩ | ⟨hnone', -⟩
            · rw [hk] at he'
              rw [Option.some.inj he']
            · rw [hk] at hnone'
              cases hnone'
          rw [hinum]
          exact hno k _ (refTo_inode ..)
        · exact hno k e (by rw [refTo_inode_of_ne hki]; exact hk)
    refine ⟨(a.inode j).isSome, h.taken hcan, ?_, ?_, fun _ => ?_⟩
    · have hgrab : (a.refTo i t (some p) true).grab j u = (a.grab j u).refTo i t (some p) true := by
        have hrefs : (a.grab j u).refs i = a.refs i := by
          unfold View.refs View.grab
          rw [set_inode_of_ne (Ne.symm hji)]
        unfold View.refTo
        rw [hrefs]
        unfold View.grab
        rw [set_inode_of_ne hji]
        simp only [View.set, Function.update_comm hji]
      rw [hgrab, h.grab hcan]
    · unfold View.Spare
      rwa [refTo_inode_of_ne (Ne.symm hji)]
    · rintro rfl
      rcases hj with ⟨e, he, hinum⟩ | ⟨-, hno⟩
      · rw [refTo_inode_of_ne hji] at he
        rcases hi.can with ⟨e', he', hinum'⟩ | ⟨-, hno⟩
        · exact hji (h.uniq j i e e' he he' (hinum.trans hinum'.symm))
        · exact hno j e he hinum
      · exact hno i _ (refTo_inode ..) rfl

end

/-! ### Rules -/

omit [DecidableEq Pid] in
theorem DirOk.refTo (h : DirOk a t n) {j : Slot} :
    DirOk (a.refTo j u l v) t n :=
  ⟨⟨h.type, h.size, h.le⟩, h.two_le, h.self, h.dot, h.dotdot, h.parent, h.range⟩

/-- Locking an inode of which a reference has been taken. -/
theorem wp_ilock_taken (h : Settled a) (hi : a.Taken i t v)
    (hbad : bad "ilock: no type" → (a.disk t).type ≠ 0)
    (hQ : a.Taken i t true → Q () (a.refTo i t (some p) true)) :
    (logicOf K bad W).wp (ilock p i) Q (a.refTo i t none v) := by
  refine wp_ilock (refTo_inode ..) h.one_le_refs (.inr rfl) (fun _ h0 hb => hbad hb h0) fun _ hv => ?_
  have htype : (a.disk t).type ≠ 0 := by
    cases hv' : v with
    | true => exact hi.type hv'
    | false => exact hv hv'
  unfold View.refTo
  rw [set_set]
  exact hQ ⟨hi.can, fun _ => rfl, fun _ => htype⟩

/-- Unlocking an inode and keeping the reference. -/
theorem wp_iunlock_taken (h : Settled a) (hQ : Q () (a.refTo i t none true)) :
    (logicOf K bad W).wp (iunlock p i) Q (a.refTo i t (some p) true) := by
  refine wp_iunlock (refTo_inode ..) h.one_le_refs rfl ?_
  unfold View.refTo
  rwa [set_set]

/-- `dirlookup` in a directory that is locked: the inode it finds may have been
taken before the directory. -/
theorem wp_dirlookup_taken {Q : Option (Slot × UInt32) → View Pid → Prop} (h : Settled a)
    (hN : NoOrphan a) (hi : a.Taken i t true) (hdir : DirOk a t n)
    (hroom : bad "iget: no inodes" → ∀ k, k < n → Matches (a.data t) name k →
      (∀ j, j < k → ¬Matches (a.data t) name j) → ¬a.Crowded t (entInum (a.data t) k))
    (hnone : (∀ k, k < n → ¬Matches (a.data t) name k) → Q none (a.refTo i t (some p) true))
    (hsome : ∀ k j w, k < n → Matches (a.data t) name k →
      (∀ j, j < k → ¬Matches (a.data t) name j) → a.Taken j (entInum (a.data t) k) w →
      (a.refTo j (entInum (a.data t) k) none w).Spare i t true →
      (j ≠ i → entInum (a.data t) k ≠ t) → ¬a.Crowded t (entInum (a.data t) k) →
      Q (some (j, offOf k)) ((a.refTo j (entInum (a.data t) k) none w).refTo i t (some p) true)) :
    (logicOf K bad W).wp (dirlookup p i name) Q (a.refTo i t (some p) true) := by
  refine wp_dirlookup (refTo_inode ..) rfl hdir.refTo.toIsDir h.one_le_ref_refTo
    (fun hb k hk hm hfirst => ?_) hdir.range hnone fun k j hk hm hfirst hj => ?_
  · by_contra hno
    exact hroom hb k hk hm hfirst ((crowded_iff hi.can).mpr (not_exists.mp hno))
  obtain ⟨w, hw, heq, hspare, hne⟩ := h.grab_refTo hN hi hj
  refine cast (congrArg (Q (some (j, offOf k))) heq.symm) ?_
  exact hsome k j w hk hm hfirst hw hspare hne fun hc => (crowded_iff hi.can).mp hc j hj

/-- **The loop of `namex`**: it ends at the inode of the walk, of which it has taken a
reference, and has given back the others. -/
theorem wp_namexLoop {Q : Option (Slot × Str) → View Pid → Prop} {parent : Bool} (h : Settled a)
    (hN : NoOrphan a) (hD : DirsOk a) :
    ∀ {es : List (Str × Str)} {i : Slot} {t : UInt32} {v : Bool} {name : Str},
      a.Taken i t v → (∀ msg, a.Stops parent es t msg → ¬bad msg) →
      ((∀ msg, ¬a.Stops parent es t msg) → a.walk parent es t name = none → Q none a) →
      (∀ j u w name', (∀ msg, ¬a.Stops parent es t msg) →
        a.walk parent es t name = some (u, name') → a.Taken j u w →
        (parent = true → w = true ∧ (a.disk u).type = T_DIR) →
        Q (some (j, name')) (a.refTo j u none w)) →
      (logicOf K bad W).wp (namexLoop p parent es i name) Q (a.refTo i t none v) := by
  intro es
  induction es with
  | nil =>
    intro i t v name hi hstop hnone hsome
    rw [namexLoop]
    cases hp : parent with
    | true =>
      subst hp
      rw [if_pos rfl]
      refine .bind (wp_iput_spare (h.spare hN hi.can hi.type) hi.valid (h.dirty t) ?_)
      exact hnone (fun _ hc => hc) (by simp [View.walk])
    | false =>
      subst hp
      rw [if_neg Bool.false_ne_true]
      exact hsome i t v name (fun _ hc => hc) (by simp [View.walk]) hi
        fun hc => absurd hc Bool.false_ne_true
  | cons x rest ih =>
    obtain ⟨name, path⟩ := x
    intro i t v name0 hi hstop hnone hsome
    rw [namexLoop]
    refine .bind (wp_ilock_taken h hi (fun hb h0 => hstop _ (.inl ⟨h0, rfl⟩) hb) fun hi => ?_)
    have hspare := h.spare hN hi.can hi.type
    have hty := hi.type rfl
    refine .bind (wp_fields (refTo_inode ..) rfl ?_)
    rw [View.walk] at hnone hsome
    change (logicOf K bad W).wp (if (a.disk t).type ≠ T_DIR then _ else _) _ _
    by_cases hdir : (a.disk t).type = T_DIR
    · rw [if_neg (not_not.mpr hdir)] at hnone hsome ⊢
      by_cases hlast : parent ∧ path = []
      · rw [if_pos hlast] at hnone hsome ⊢
        refine .bind (wp_iunlock_taken h ?_)
        refine hsome i t true name (fun msg hmsg => ?_) rfl hi fun _ => ⟨rfl, hdir⟩
        exact hmsg.elim (fun hc => hty hc.1) fun hc => hc.2.1 hlast
      · rw [if_neg hlast] at hnone hsome ⊢
        obtain ⟨n, hok⟩ := hD t hdir
        rw [nentries_eq hok.size] at hnone hsome
        have hlook : ∀ {k}, k < n → Matches (a.data t) name k →
            (∀ j, j < k → ¬Matches (a.data t) name j) →
            lookup (a.data t) (nentries (a.disk t).size) name = some k := fun hk hm hfirst => by
          rw [nentries_eq hok.size]
          exact lookup_eq_some hk hm hfirst
        refine .bind (wp_dirlookup_taken h hN hi hok (fun hb k hk hm hfirst hc => ?_)
          (fun hno => ?_) fun k j w hk hm hfirst hj hsp _ hroom => ?_)
        · exact hstop _ (.inr ⟨hdir, hlast, k, hlook hk hm hfirst, .inl ⟨hc, rfl⟩⟩) hb
        · rw [lookup_eq_none hno] at hnone
          refine .bind (wp_iunlockput_spare hspare (h.dirty t) (hnone (fun msg hmsg => ?_) rfl))
          rcases hmsg with hc | ⟨-, -, k, hk, -⟩
          · exact hty hc.1
          · rw [nentries_eq hok.size, lookup_eq_none hno] at hk
            cases hk
        · rw [lookup_eq_some hk hm hfirst] at hnone hsome
          -- the rest of the path decides
          have hrest : ∀ msg, a.Stops parent ((name, path) :: rest) t msg ↔
              a.Stops parent rest (entInum (a.data t) k) msg := by
            refine fun msg => ⟨fun hmsg => ?_, fun hmsg =>
              .inr ⟨hdir, hlast, k, hlook hk hm hfirst, .inr ⟨hroom, hmsg⟩⟩⟩
            rcases hmsg with hc | ⟨-, -, k', hk', hc | hc⟩
            · exact absurd hc.1 hty
            · obtain rfl := Option.some.inj ((hlook hk hm hfirst).symm.trans hk')
              exact absurd hc.1 hroom
            · obtain rfl := Option.some.inj ((hlook hk hm hfirst).symm.trans hk')
              exact hc.2
          simp only [hrest] at hstop hnone hsome
          exact .bind (wp_iunlockput_spare hsp (h.dirty t) (ih hj hstop hnone hsome))
    · rw [if_pos hdir] at hnone ⊢
      refine .bind (wp_iunlockput_spare hspare (h.dirty t) (hnone (fun msg hmsg => ?_) rfl))
      exact hmsg.elim (fun hc => hty hc.1) fun hc => hdir hc.1

/-- Where a path starts. -/
def View.start (a : View Pid) (p : Pid) (path : Str) (t : UInt32) : Prop :=
  if path.head? = some slash then t = ROOTINO
  else ∃ i e, (a.proc p).cwd = some i ∧ a.inode i = some e ∧ e.inum = t

/-- There is no entry of the inode cache for the root directory that the path starts at. -/
def View.NoStart (a : View Pid) (path : Str) : Prop :=
  path.head? = some slash ∧ ∀ i, ¬a.CanGrab i ROOTINO

section

omit [DecidableEq Pid]

theorem View.start.unique (ht : a.start p path t) (hu : a.start p path u) : t = u := by
  unfold View.start at ht hu
  by_cases hp : path.head? = some slash
  · rw [if_pos hp] at ht hu
    exact ht.trans hu.symm
  · rw [if_neg hp] at ht hu
    obtain ⟨i, e, hi, he, rfl⟩ := ht
    obtain ⟨j, e', hj, he', rfl⟩ := hu
    obtain rfl : i = j := Option.some.inj (hi.symm.trans hj)
    rw [Option.some.inj (he.symm.trans he')]

/-- A path leads to a name in a directory. -/
def View.Leads (a : View Pid) (p : Pid) (path : Str) (d : UInt32) (name : Str) : Prop :=
  ∃ t, a.start p path t ∧ a.walk true (elems path) t [] = some (d, name)

theorem View.Leads.walk {d : UInt32} (h : a.Leads p path d name) (ht : a.start p path t) :
    a.walk true (elems path) t [] = some (d, name) := by
  obtain ⟨u, hu, hwalk⟩ := h
  rwa [ht.unique hu]

theorem View.Leads.unique {name' : Str} {d d' : UInt32} (h : a.Leads p path d name)
    (h' : a.Leads p path d' name') : d = d' ∧ name = name' := by
  obtain ⟨t, ht, hwalk⟩ := h
  exact Prod.mk.inj (Option.some.inj (hwalk.symm.trans (h'.walk ht)))

end

/-- The first inode of a path. -/
theorem wp_namexStart {Q : Slot → View Pid → Prop} (h : Settled a) (hroot : ROOTINO < a.ninodes)
    (hcwd : ∀ i, (a.proc p).cwd = some i → ∃ e, a.inode i = some e)
    (hroom : bad "iget: no inodes" → ¬a.NoStart path) (hw : W ∨ (a.proc p).cwd ≠ none)
    (hQ : ∀ i t v, a.start p path t → ¬a.NoStart path → a.Taken i t v → Q i (a.refTo i t none v)) :
    (logicOf K bad W).wp (namexStart p path) Q a := by
  unfold namexStart
  by_cases hp : path.head? = some slash
  · rw [if_pos hp]
    refine wp_iget hroot h.ref (fun hb => ?_) fun i hi => ?_
    · by_contra hno
      exact hroom hb ⟨hp, not_exists.mp hno⟩
    rw [h.grab hi]
    exact hQ i _ _ (by rw [View.start, if_pos hp]) (fun hc => hc.2 i hi) (h.taken hi)
  · rw [if_neg hp]
    refine .bind (wp_cwd hw fun i hc => ?_)
    obtain ⟨e, he⟩ := hcwd i hc
    refine .bind (wp_idup he ?_)
    have heq : a.set i (some { e with ref := e.ref + 1 }) = a.refTo i e.inum none true := by
      rw [View.refTo, refs_some he, h.entry he]
    rw [heq]
    refine hQ i e.inum true ?_ (fun hc => hp hc.1)
      ⟨.inl ⟨e, he, rfl⟩, fun _ => rfl, fun _ => h.type i e he⟩
    rw [View.start, if_neg hp]
    exact ⟨i, e, hc, he, rfl⟩

/-- The file system between two system calls, as far as the inode cache and the
directories go. -/
structure Neat (a : View Pid) : Prop extends Settled a where
  dirs : DirsOk a
  root : ROOTINO < a.ninodes
  ninodes : a.ninodes.toNat ≤ 65536
  range : ∀ t, (a.disk t).type ≠ 0 → t ≠ 0 ∧ t < a.ninodes
  cwd : ∀ p i, (a.proc p).cwd = some i → ∃ e, a.inode i = some e

/-- **The file system between two system calls**: in addition, no inode has been
forgotten. -/
structure Tidy (a : View Pid) : Prop extends Neat a where
  orphan : NoOrphan a

/-- The messages that stop a system with too many inodes in use, with a directory that
is full, or with wrong numbers of links. -/
def expected : List String :=
  ["iget: no inodes", "ialloc: no inodes", "dirlink", "unlink: nlink < 1"]

/-- What has to hold for a system call not to end with a bad message. -/
structure Allows (bad : String → Prop) (a : View Pid) : Prop where
  expected : ∀ msg ∈ expected, ¬bad msg
  sound : bad "ilock: no type" → Sound a ∧ (a.disk ROOTINO).type ≠ 0

omit [DecidableEq Pid] in
theorem Allows.iget {P : Prop} (h : Allows bad a) (hc : bad "iget: no inodes") : P :=
  absurd hc (h.expected _ (by decide))

omit [DecidableEq Pid] in
theorem View.start.type (ht : a.start p path t) (h : Settled a)
    (hroot : (a.disk ROOTINO).type ≠ 0) : (a.disk t).type ≠ 0 := by
  unfold View.start at ht
  split at ht
  · rwa [ht]
  · obtain ⟨i, e, -, he, rfl⟩ := ht
    exact h.type i e he

/-- **A search for a path stops the system** with a message. -/
def View.StopsAt (a : View Pid) (p : Pid) (path : Str) (nameiparent : Bool) (msg : String) : Prop :=
  a.NoStart path ∧ msg = "iget: no inodes" ∨
    ¬a.NoStart path ∧ ∃ t, a.start p path t ∧ a.Stops nameiparent (elems path) t msg

/-- **`namex`**. -/
theorem wp_namex {Q : Option (Slot × Str) → View Pid → Prop} {parent : Bool} (h : Tidy a)
    (hstop : ∀ msg, a.StopsAt p path parent msg → ¬bad msg) (hw : W ∨ (a.proc p).cwd ≠ none)
    (hnone : ∀ s, (∀ msg, ¬a.StopsAt p path parent msg) → a.start p path s →
      a.walk parent (elems path) s [] = none → Q none a)
    (hsome : ∀ s j u w name, (∀ msg, ¬a.StopsAt p path parent msg) → a.start p path s →
      a.walk parent (elems path) s [] = some (u, name) → a.Taken j u w →
      (parent = true → w = true ∧ (a.disk u).type = T_DIR) →
      Q (some (j, name)) (a.refTo j u none w)) :
    (logicOf K bad W).wp (namex p path parent) Q a := by
  unfold namex
  refine .bind (wp_namexStart h.toSettled h.root (h.cwd p)
    (fun hb hno => hstop _ (.inl ⟨hno, rfl⟩) hb) hw fun i t v hstart hfirst hi => ?_)
  have hwalk : (∀ msg, ¬a.Stops parent (elems path) t msg) →
      ∀ msg, ¬a.StopsAt p path parent msg := by
    rintro hno msg (⟨hc, -⟩ | ⟨-, u, hu, hmsg⟩)
    · exact hfirst hc
    · exact hno msg (hstart.unique hu ▸ hmsg)
  exact wp_namexLoop h.toSettled h.orphan h.dirs hi
    (fun msg hmsg => hstop msg (.inr ⟨hfirst, t, hstart, hmsg⟩))
    (fun hno => hnone t (hwalk hno) hstart)
    fun j u w name hno => hsome t j u w name (hwalk hno) hstart

omit [DecidableEq Pid] in
/-- Where no directory names a free inode, a walk does not come to one. -/
theorem Sound.walk (hs : Sound a) (hD : DirsOk a) {parent : Bool} :
    ∀ {es : List (Str × Str)} {t : UInt32}, (a.disk t).type ≠ 0 → ∀ name,
      (∀ msg, a.Stops parent es t msg → msg = "iget: no inodes") ∧
      ∀ u name', a.walk parent es t name = some (u, name') → (a.disk u).type ≠ 0 := by
  intro es
  induction es with
  | nil =>
    refine fun hty _ => ⟨fun msg hmsg => hmsg.elim, fun u name' hwalk => ?_⟩
    rw [View.walk] at hwalk
    split at hwalk
    · cases hwalk
    · obtain ⟨rfl, -⟩ := Prod.mk.inj (Option.some.inj hwalk)
      exact hty
  | cons x rest ih =>
    obtain ⟨name, path⟩ := x
    intro t hty _
    have hnext : ∀ k, (a.disk t).type = T_DIR →
        lookup (a.data t) (nentries (a.disk t).size) name = some k →
        (a.disk (entInum (a.data t) k)).type ≠ 0 := by
      intro k hdir hk
      obtain ⟨n, hok⟩ := hD t hdir
      rw [nentries_eq hok.size] at hk
      obtain ⟨hm, hlt, -⟩ := List.find?_range_eq_some.mp hk
      exact hs t n k hok (List.mem_range.mp hlt) (of_decide_eq_true hm).1
    refine ⟨fun msg hmsg => ?_, fun u name' hwalk => ?_⟩
    · rcases hmsg with ⟨h0, -⟩ | ⟨hdir, -, k, hk, ⟨-, rfl⟩ | ⟨-, hmsg⟩⟩
      · exact absurd h0 hty
      · rfl
      · exact (ih (hnext k hdir hk) name).1 msg hmsg
    · rw [View.walk] at hwalk
      split at hwalk
      · cases hwalk
      · rename_i hdir
        split at hwalk
        · obtain ⟨rfl, -⟩ := Prod.mk.inj (Option.some.inj hwalk)
          exact hty
        · split at hwalk
          · cases hwalk
          · rename_i k hk
            exact (ih (hnext k (not_not.mp hdir) hk) name).2 u name' hwalk

omit [DecidableEq Pid] in
theorem Allows.stops (hb : Allows bad a) (h : Tidy a) {parent : Bool} {msg : String}
    (hmsg : a.StopsAt p path parent msg) : ¬bad msg := by
  rcases hmsg with ⟨-, rfl⟩ | ⟨-, t, ht, hmsg⟩
  · exact hb.iget
  · rcases hmsg.message with rfl | rfl
    · intro hbad
      obtain ⟨hs, hroot⟩ := hb.sound hbad
      exact absurd ((hs.walk h.dirs (ht.type h.toSettled hroot) []).1 _ hmsg) (by decide)
    · exact hb.iget

/-- **`namei`** takes a reference of the inode with the name. -/
theorem wp_namei {Q : Option Slot → View Pid → Prop} (h : Tidy a) (hb : Allows bad a)
    (hnone : Q none a)
    (hsome : ∀ j u w, a.Taken j u w → (bad "ilock: no type" → (a.disk u).type ≠ 0) →
      Q (some j) (a.refTo j u none w)) :
    (logic K bad).wp (namei p path) Q a := by
  unfold namei
  exact .bind (wp_namex h (fun _ => hb.stops h) (.inl trivial) (fun _ _ _ _ => hnone)
    fun s j u w _ _ hs hwalk hj _ => hsome j u w hj fun hbad =>
      ((hb.sound hbad).1.walk h.dirs (hs.type h.toSettled (hb.sound hbad).2) []).2 u _ hwalk)

/-- **`nameiparent`** takes a reference of a directory. -/
theorem wp_nameiparent {Q : Option (Slot × Str) → View Pid → Prop} (h : Tidy a)
    (hb : Allows bad a) (hnone : (∀ u name, ¬a.Leads p path u name) → Q none a)
    (hsome : ∀ j u name, a.Leads p path u name → a.Taken j u true → (a.disk u).type = T_DIR →
      Q (some (j, name)) (a.refTo j u none true)) :
    (logic K bad).wp (nameiparent p path) Q a := by
  refine wp_namex h (fun _ => hb.stops h) (.inl trivial)
    (fun s _ hs hwalk => hnone fun u name hlead => ?_) fun s j u w name _ hs hwalk hj hpar => ?_
  · have hsome := hlead.walk hs
    rw [hwalk] at hsome
    cases hsome
  · obtain ⟨rfl, hdir⟩ := hpar rfl
    exact hsome j u name ⟨s, hs, hwalk⟩ hj hdir

end Rules

end Xv6.Fs
