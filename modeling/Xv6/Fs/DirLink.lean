import Xv6.Fs.Contents

/-!
# A locked directory

What `dirlookup` and `dirlink` do to a directory that the caller has locked, exactly: when
they return, when they wait and when they panic (`Xv6.Fs.DirHeld.exec_dirlookup_some`,
`Xv6.Fs.DirHeld.dirlink_links_iff`, `Xv6.Fs.DirHeld.links_or_waits_iff`).

`dirlink` does not always return. A name that is there leads `dirlink` to take the inode of the entry
and give it back with `iput`, which locks it: if this is the directory itself, the caller
waits for a lock it has. And a directory that has no room for an entry makes `dirlink`
panic.
-/

namespace Xv6.Fs

open Lib Function

variable {Pid : Type} {n : ℕ}

/-- **A directory** of `n` entries at entry `dp` of the inode cache that process `p` has
locked. -/
structure DirHeld (s : State Pid) (p : Pid) (dp : Slot) (n : ℕ) : Prop where
  lock : (s.inode dp).lock = some p
  ref : 1 ≤ (s.inode dp).ref
  type : (s.inode dp).d.type = T_DIR
  size : (s.inode dp).d.size.toNat = 16 * n
  le : n ≤ MAXENT
  uniq : ∀ j, (s.inode j).Is (s.inode dp).dev (s.inode dp).inum → j = dp

/-- The contents of a directory. -/
def State.dir (s : State Pid) (dp : Slot) : ℕ → UInt8 := s.data (s.inode dp).inum

/-- The entry `dirlookup` finds: the first one for the name. -/
structure FirstMatch (f : ℕ → UInt8) (n : ℕ) (name : Str) (k : ℕ) : Prop where
  lt : k < n
  is : Matches f name k
  first : ∀ j, j < k → ¬Matches f name j

/-- The name has no entry. -/
def Absent (f : ℕ → UInt8) (n : ℕ) (name : Str) : Prop := ∀ k, k < n → ¬Matches f name k

/-- The entry `dirlink` uses: the first one that is not in use, or one more. -/
structure FirstFree (f : ℕ → UInt8) (n k : ℕ) : Prop where
  le : k ≤ n
  used : ∀ j, j < k → entInum f j ≠ 0
  free : k < n → entInum f k = 0

theorem absent_or_firstMatch (f : ℕ → UInt8) (n : ℕ) (name : Str) :
    Absent f n name ∨ ∃ k, FirstMatch f n name k := by
  by_cases h : ∃ k, k < n ∧ Matches f name k
  · refine .inr ⟨Nat.find h, (Nat.find_spec h).1, (Nat.find_spec h).2, fun j hj hm => ?_⟩
    exact Nat.find_min h hj ⟨hj.trans (Nat.find_spec h).1, hm⟩
  · exact .inl fun k hk hm => h ⟨k, hk, hm⟩

theorem FirstMatch.not_absent {f : ℕ → UInt8} {k : ℕ} {name : Str} (h : FirstMatch f n name k) :
    ¬Absent f n name := fun hno => hno k h.lt h.is

theorem FirstMatch.eq {f : ℕ → UInt8} {j k : ℕ} {name : Str} (h : FirstMatch f n name j)
    (h' : FirstMatch f n name k) : j = k :=
  le_antisymm (not_lt.mp fun hlt => h.first k hlt h'.is) (not_lt.mp fun hlt => h'.first j hlt h.is)

theorem exists_firstFree (f : ℕ → UInt8) (n : ℕ) : ∃ k, FirstFree f n k := by
  have h : ∃ k, k = n ∨ entInum f k = 0 := ⟨n, .inl rfl⟩
  refine ⟨Nat.find h, Nat.find_min' h (.inl rfl), fun j hj h0 => ?_, fun hlt => ?_⟩
  · exact Nat.find_min h hj (.inr h0)
  · exact (Nat.find_spec h).resolve_left hlt.ne

/-! ### Reading the entries -/

section Reading

variable [DecidableEq Pid] {s : State Pid} {p : Pid} {dp : Slot} {n : ℕ} {name : Str}

namespace DirHeld

variable {k : ℕ}

theorem exec_readEntry (h : DirHeld s p dp n) (hk : k < n) (msg : String) :
    (readEntry p dp (offOf k) msg).exec handle s = .ok (entryAt (s.dir dp) k, s) := by
  have hread : (readi p dp (offOf k) DESIZE).exec handle s =
      .ok (some (entryAt (s.dir dp) k), s) := by
    unfold readi
    rw [exec_op (o := .fields dp) rfl, if_neg (by rw [h.type]; decide)]
    refine Prog.exec_perform ?_
    change Effect.ok ((readiLen (s.inode dp).d.size (offOf k) DESIZE).map _, s) = _
    rw [readiLen_entry h.size h.le hk, offOf_toNat (hk.le.trans h.le)]
    rfl
  unfold readEntry
  rw [Prog.exec_bind_ok hread]
  exact congrArg (Prog.exec handle · s) (if_pos (length_bytes ..))

/-- What `dirlookup` does with the entry it has found. -/
def take (s : State Pid) (dp : Slot) (k : ℕ) : Effect (Option (Slot × UInt32) × State Pid) :=
  (s.iget (s.inode dp).dev (entInum (s.dir dp) k)).map fun x => (some (x.1, offOf k), x.2)

variable (h : DirHeld s p dp n)
include h

/-- The loop of `dirlookup` finds nothing. -/
theorem exec_dirlookupLoop_none :
    ∀ m k, k + m = n → (∀ j, k ≤ j → j < n → ¬Matches (s.dir dp) name j) →
      (dirlookupLoop p dp name m (offOf k)).exec handle s = .ok (none, s) := by
  intro m
  induction m with
  | zero => exact fun _ _ _ => rfl
  | succ m ih =>
    intro k hk hno
    rw [dirlookupLoop, Prog.exec_bind_ok (h.exec_readEntry (by omega) _),
      if_neg (by exact hno k le_rfl (by omega)), offOf_succ]
    exact ih (k + 1) (by omega) fun j hj => hno j (by omega)

/-- The loop of `dirlookup` finds the first entry with the name. -/
theorem exec_dirlookupLoop_some (hk : FirstMatch (s.dir dp) n name k) :
    ∀ m j, j + m = n → j ≤ k →
      (dirlookupLoop p dp name m (offOf j)).exec handle s = take s dp k := by
  intro m
  induction m with
  | zero => exact fun j hj hjk => absurd hk.lt (by omega)
  | succ m ih =>
    intro j hj hjk
    rw [dirlookupLoop, Prog.exec_bind_ok (h.exec_readEntry (by omega) _)]
    rcases Nat.lt_or_eq_of_le hjk with hlt | rfl
    · rw [if_neg (by exact hk.first j hlt), offOf_succ]
      exact ih (j + 1) (by omega) hlt
    · rw [if_pos (by exact hk.is), exec_op (o := .ids dp) rfl]
      exact Prog.exec_perform_map (o := Op.iget _ _) fun i => some (i, offOf j)

/-- **`dirlookup`** of a name that is not there. -/
theorem exec_dirlookup_none (hno : Absent (s.dir dp) n name) :
    (dirlookup p dp name).exec handle s = .ok (none, s) := by
  unfold dirlookup
  rw [exec_op (o := .fields dp) rfl, panicIf, if_neg (not_not_intro h.type), Prog.bind_ret,
    nentries_eq h.size]
  exact h.exec_dirlookupLoop_none n 0 (Nat.zero_add n) fun j _ => hno j

/-- **`dirlookup`** of a name that is there. -/
theorem exec_dirlookup_some (hk : FirstMatch (s.dir dp) n name k) :
    (dirlookup p dp name).exec handle s = take s dp k := by
  unfold dirlookup
  rw [exec_op (o := .fields dp) rfl, panicIf, if_neg (not_not_intro h.type), Prog.bind_ret,
    nentries_eq h.size]
  exact h.exec_dirlookupLoop_some hk n 0 (Nat.zero_add n) (Nat.zero_le k)

/-- The loop of `dirlink` finds the first entry that is not in use. -/
theorem exec_emptyEntry (hk : FirstFree (s.dir dp) n k) :
    ∀ m j, j + m = n → j ≤ k → (emptyEntry p dp m (offOf j)).exec handle s = .ok (offOf k, s) := by
  intro m
  induction m with
  | zero =>
    intro j hj hjk
    obtain rfl : j = k := le_antisymm hjk (hk.le.trans_eq hj.symm)
    rfl
  | succ m ih =>
    intro j hj hjk
    rw [emptyEntry, Prog.exec_bind_ok (h.exec_readEntry (by omega) _)]
    rcases Nat.lt_or_eq_of_le hjk with hlt | rfl
    · rw [if_neg (by exact hk.used j hlt), offOf_succ]
      exact ih (j + 1) (by omega) hlt
    · rw [if_pos (by exact hk.free (by omega))]
      rfl

end DirHeld

end Reading

/-! ### Writing an entry -/

/-- The directory at entry `dp` of the inode cache is the same in two states. -/
structure SameDir (s t : State Pid) (dp : Slot) : Prop where
  inode : t.inode dp = s.inode dp
  data : t.data (s.inode dp).inum = s.data (s.inode dp).inum
  disk : t.disk (s.inode dp).inum = s.disk (s.inode dp).inum

/-- **The entry `k` of the directory has been written**, and nothing else. -/
structure PutEntry (s t : State Pid) (dp : Slot) (k : ℕ) (de : Str) : Prop where
  dir : t.dir dp = putEntry (s.dir dp) k de
  data : ∀ u, u ≠ (s.inode dp).inum → t.data u = s.data u
  disk : ∀ u, u ≠ (s.inode dp).inum → t.disk u = s.disk u
  inode : ∀ j, j ≠ dp → t.inode j = s.inode j

section Writing

variable {s : State Pid} {p : Pid} {dp : Slot} {n k : ℕ} {de : Str}

/-- The same directory with other entries of the inode cache. -/
theorem DirHeld.congr {t : State Pid} (h : DirHeld s p dp n) (hin : t.inode dp = s.inode dp)
    (hother : ∀ j, j ≠ dp → (t.inode j).Is (s.inode dp).dev (s.inode dp).inum →
      (s.inode j).Is (s.inode dp).dev (s.inode dp).inum) : DirHeld t p dp n := by
  refine ⟨?_, ?_, ?_, ?_, h.le, fun j hj => ?_⟩
  · rw [hin]
    exact h.lock
  · rw [hin]
    exact h.ref
  · rw [hin]
    exact h.type
  · rw [hin]
    exact h.size
  · by_contra hne
    rw [hin] at hj
    exact hne (h.uniq j (hother j hne hj))

/-- A directory of another size. -/
theorem DirHeld.resized {t : State Pid} {m : ℕ} {d : Fields} (h : DirHeld s p dp n)
    (hin : t.inode dp = { s.inode dp with d := d }) (hother : ∀ j, j ≠ dp → t.inode j = s.inode j)
    (htype : d.type = T_DIR) (hsize : d.size.toNat = 16 * m) (hm : m ≤ MAXENT) :
    DirHeld t p dp m := by
  refine ⟨?_, ?_, ?_, ?_, hm, fun j hj => ?_⟩
  · rw [hin]
    exact h.lock
  · rw [hin]
    exact h.ref
  · rwa [hin]
  · rwa [hin]
  · by_contra hne
    rw [hin, hother j hne] at hj
    exact hne (h.uniq j hj)

/-- `writei` writes an entry of a directory. -/
theorem DirHeld.writei_entry (h : DirHeld s p dp n) (hk : k ≤ n) (hmax : k < MAXENT)
    (hde : de.length = 16) : ∃ t, s.writei dp (offOf k) de = (some DESIZE, t) ∧
      PutEntry s t dp k de ∧ DirHeld t p dp (max n (k + 1)) := by
  have hlen : UInt32.ofNat de.length = DESIZE := by rw [hde]; rfl
  have hok : writeiOk (s.inode dp).d.size (offOf k) (UInt32.ofNat de.length) = true := by
    rw [hlen]
    exact writeiOk_entry h.size hk hmax
  have hoff := offOf_toNat (k := k) hmax.le
  have hoff' := offOf_toNat (k := k + 1) hmax
  have hsize := h.size
  by_cases hg : 0 < UInt32.ofNat de.length ∧
      (s.inode dp).d.size < offOf k + UInt32.ofNat de.length
  · have hlt := UInt32.lt_iff_toNat_lt.mp hg.2
    rw [hlen, offOf_succ] at hlt
    obtain ⟨t, ht⟩ : ∃ t, t = (s.setData (s.inode dp).inum (overwrite (s.data (s.inode dp).inum)
        (offOf k).toNat de)).resize dp (offOf k + UInt32.ofNat de.length) := ⟨_, rfl⟩
    have hin : t.inode dp =
        { s.inode dp with d := (s.inode dp).d.setSize (offOf k + UInt32.ofNat de.length) } := by
      rw [ht]
      exact State.resize_inode ..
    have hinode : ∀ j, j ≠ dp → t.inode j = s.inode j := by
      intro j hj
      rw [ht]
      exact State.set_inode_of_ne hj
    refine ⟨t, ?_, ⟨?_, fun u hu => ?_, fun u hu => ?_, hinode⟩, ?_⟩
    · rw [State.writei_grows hok hg, ← ht, hlen]
    · rw [State.dir, hin, ht, State.dir, putEntry, ← hoff]
      exact update_self ..
    · rw [ht]
      exact update_of_ne hu ..
    · rw [ht, State.resize_disk]
      exact update_of_ne hu ..
    · refine h.resized hin hinode h.type ?_ (by omega)
      rw [hlen, offOf_succ]
      change (offOf (k + 1)).toNat = _
      omega
  · have hge : ¬(s.inode dp).d.size < offOf k + UInt32.ofNat de.length := fun hlt =>
      hg ⟨by rw [hlen]; decide, hlt⟩
    rw [hlen, offOf_succ, UInt32.lt_iff_toNat_lt] at hge
    refine ⟨s.setData (s.inode dp).inum (overwrite (s.data (s.inode dp).inum) (offOf k).toNat de),
      ?_, ⟨?_, fun u hu => ?_, fun _ _ => rfl, fun _ _ => rfl⟩, ?_⟩
    · rw [State.writei_inside hok hg, hlen]
    · rw [putEntry, ← hoff]
      exact update_self ..
    · exact update_of_ne hu ..
    · obtain hmax' : max n (k + 1) = n := by omega
      rw [hmax']
      exact ⟨h.lock, h.ref, h.type, h.size, h.le, h.uniq⟩

end Writing

/-! ### Giving an inode back -/

/-- Two states differ in the copy of the inode at entry `i` of the cache and in that inode
on the disk only. -/
structure Beside (s t : State Pid) (i : Slot) : Prop where
  other : ∀ j, j ≠ i → t.inode j = s.inode j
  dev : (t.inode i).dev = (s.inode i).dev
  inum : (t.inode i).inum = (s.inode i).inum
  ref : (t.inode i).ref = (s.inode i).ref
  lock : (t.inode i).lock = (s.inode i).lock
  disk : ∀ u, u ≠ (s.inode i).inum → t.disk u = s.disk u
  data : t.data = s.data

namespace Beside

variable {s t u : State Pid} {i : Slot}

theorem refl (s : State Pid) (i : Slot) : Beside s s i :=
  ⟨fun _ _ => rfl, rfl, rfl, rfl, rfl, fun _ _ => rfl, rfl⟩

theorem trans (h : Beside s t i) (h' : Beside t u i) : Beside s u i :=
  ⟨fun j hj => (h'.other j hj).trans (h.other j hj), h'.dev.trans h.dev, h'.inum.trans h.inum,
    h'.ref.trans h.ref, h'.lock.trans h.lock,
    fun v hv => (h'.disk v (h.inum ▸ hv)).trans (h.disk v hv), h'.data.trans h.data⟩

theorem set {x : Inode Pid Fields} (hdev : x.dev = (s.inode i).dev)
    (hinum : x.inum = (s.inode i).inum) (href : x.ref = (s.inode i).ref)
    (hlock : x.lock = (s.inode i).lock) : Beside s (s.set i x) i := by
  have hx := s.set_inode i x
  refine ⟨fun j hj => State.set_inode_of_ne hj, ?_, ?_, ?_, ?_, fun _ _ => rfl, rfl⟩
  · rw [hx, hdev]
  · rw [hx, hinum]
  · rw [hx, href]
  · rw [hx, hlock]

theorem setFields (s : State Pid) (i : Slot) (d : Fields) : Beside s (s.setFields i d) i :=
  .set rfl rfl rfl rfl

theorem iupdate (s : State Pid) (i : Slot) : Beside s (s.iupdate i) i :=
  ⟨fun _ _ => rfl, rfl, rfl, rfl, rfl, fun _ hu => update_of_ne hu .., rfl⟩

end Beside

section Put

variable [DecidableEq Pid] {s : State Pid} {p : Pid} {i : Slot}

/-- Freeing an inode. -/
theorem exec_ifree (s : State Pid) (i : Slot) :
    ∃ t, (ifree i : FsM Pid Unit).exec handle s = .ok ((), t) ∧ Beside s t i := by
  unfold ifree
  rw [exec_op (o := .itrunc i) rfl, exec_op (o := .setType i 0) rfl, exec_op (o := .iupdate i) rfl]
  refine ⟨_, Prog.exec_perform (o := Op.invalidate i) rfl, ?_⟩
  refine .trans ?_ (.set rfl rfl rfl rfl)
  refine .trans ?_ (.iupdate _ i)
  refine .trans ?_ (.setFields _ i _)
  exact .trans (.setFields s i _) (.iupdate _ i)

theorem exec_iputFree (s : State Pid) (i : Slot) :
    ∃ t, (iputFree i : FsM Pid Unit).exec handle s = .ok ((), t) ∧ Beside s t i := by
  unfold iputFree
  rw [exec_op (o := .valid i) rfl]
  split
  · rw [exec_op (o := .fields i) rfl]
    split
    · rw [exec_op (o := .ref i) rfl]
      split
      · exact exec_ifree s i
      · exact ⟨s, rfl, .refl s i⟩
    · exact ⟨s, rfl, .refl s i⟩
  · exact ⟨s, rfl, .refl s i⟩

/-- **`iput`** of an inode that is not locked. -/
theorem exec_iput (hl : (s.inode i).lock = none) :
    ∃ t, (iput p i).exec handle s = .ok ((), t) ∧ (∀ j, j ≠ i → t.inode j = s.inode j) ∧
      (t.inode i).dev = (s.inode i).dev ∧ (t.inode i).inum = (s.inode i).inum ∧
      (∀ u, u ≠ (s.inode i).inum → t.disk u = s.disk u) ∧ t.data = s.data := by
  have hlock : handle (.acquiresleep p i) s =
      .ok ((), s.set i { s.inode i with lock := some p }) := if_pos hl
  obtain ⟨t, ht, hb⟩ := exec_iputFree (s.set i { s.inode i with lock := some p }) i
  have hin := s.set_inode i { s.inode i with lock := some p }
  unfold iput
  rw [exec_op hlock, Prog.exec_bind_ok ht, exec_op (o := .releasesleep i) rfl]
  refine ⟨_, Prog.exec_perform (o := Op.decref i) rfl, fun j hj => ?_, ?_, ?_, fun u hu => ?_, ?_⟩
  · rw [State.set_inode_of_ne hj, State.set_inode_of_ne hj, hb.other j hj,
      State.set_inode_of_ne hj]
  · rw [State.set_inode, State.set_inode, hb.dev, hin]
  · rw [State.set_inode, State.set_inode, hb.inum, hin]
  · exact hb.disk u (by rw [hin]; exact hu)
  · exact hb.data

/-- `iput` of an inode that is locked waits. -/
theorem exec_iput_locked (hl : (s.inode i).lock ≠ none) : (iput p i).exec handle s = .disabled := by
  have hlock : handle (.acquiresleep p i) s = .disabled := if_neg hl
  have hexec : (Op.acquiresleep p i).perform.exec handle s = .disabled := by
    rw [Op.perform, Prog.perform, Prog.exec, hlock]
  unfold iput
  rw [Prog.exec_bind, hexec]

end Put

/-! ### `dirlink` -/

/-- What `iget` returns. -/
theorem State.iget_ok {s s₁ : State Pid} {dev u : UInt32} {i : Slot}
    (hget : s.iget dev u = .ok (i, s₁)) : ∃ x, s₁ = s.set i x ∧ x.lock = (s.inode i).lock ∧
      x.inum = u ∧ ((s.inode i).Is dev u ∧ x = { s.inode i with ref := (s.inode i).ref + 1 } ∨
        (s.inode i).ref = 0 ∧ ∀ j, ¬(s.inode j).Is dev u) := by
  unfold State.iget at hget
  split at hget
  · rename_i j c hj
    obtain ⟨rfl, rfl⟩ := Prod.mk.inj (Effect.ok.inj hget)
    rcases iget_spec hj with ⟨his, rfl⟩ | ⟨hzero, hno, rfl⟩
    · exact ⟨_, rfl, rfl, his.2.2, .inl ⟨his, rfl⟩⟩
    · exact ⟨_, rfl, rfl, rfl, .inr ⟨hzero, hno⟩⟩
  · cases hget

section Link

variable [DecidableEq Pid] {s : State Pid} {p : Pid} {dp : Slot} {n : ℕ} {name : Str} {t : UInt32}

namespace DirHeld

variable {k : ℕ}

variable (h : DirHeld s p dp n)
include h

variable (hno : Absent (s.dir dp) n name)
include hno

/-- `dirlink` of a name that is not there looks for the first place that is free. -/
theorem exec_dirlink_absent
    (hk : FirstFree (s.dir dp) n k) {r : Option UInt32} {s' : State Pid}
    (hwrite : s.writei dp (offOf k) (dirent t name) = (r, s')) :
    (dirlink p dp name t).exec handle s =
      (panicIf (r ≠ some DESIZE) "dirlink" >>= fun _ => .ret true).exec handle s' := by
  have hempty : (emptyEntry p dp n 0).exec handle s = .ok (offOf k, s) :=
    h.exec_emptyEntry hk n 0 (Nat.zero_add n) (Nat.zero_le k)
  have hexec : (writei p dp (offOf k) (dirent t name)).exec handle s = .ok (r, s') := by
    rw [exec_writei (by rw [h.type]; decide), hwrite]
  unfold dirlink
  rw [Prog.exec_bind_ok (h.exec_dirlookup_none hno)]
  rw [exec_op (o := .fields dp) rfl, nentries_eq h.size, Prog.exec_bind_ok hempty,
    Prog.exec_bind_ok hexec]
  rfl

/-- **`dirlink` adds an entry.** -/
theorem exec_dirlink_true
    (hk : FirstFree (s.dir dp) n k) (hmax : k < MAXENT) :
    ∃ s', (dirlink p dp name t).exec handle s = .ok (true, s') ∧
      PutEntry s s' dp k (dirent t name) ∧ DirHeld s' p dp (max n (k + 1)) := by
  obtain ⟨s', hwrite, hput, hheld⟩ := h.writei_entry hk.le hmax (length_dirent t name)
  refine ⟨s', ?_, hput, hheld⟩
  rw [h.exec_dirlink_absent hno hk hwrite, panicIf, if_neg (not_not_intro rfl)]
  rfl

/-- **`dirlink` has no room** for an entry. -/
theorem exec_dirlink_full
    (hk : FirstFree (s.dir dp) n MAXENT) :
    (dirlink p dp name t).exec handle s = .panic "dirlink" := by
  have hbad : ¬writeiOk (s.inode dp).d.size (offOf MAXENT)
      (UInt32.ofNat (dirent t name).length) = true := by
    rw [length_dirent]
    exact Bool.eq_false_iff.mp not_writeiOk_full
  rw [h.exec_dirlink_absent hno hk (State.writei_none hbad), panicIf, if_pos (by simp)]
  rfl

omit hno

omit [DecidableEq Pid] in
/-- `iget` of another inode leaves the directory alone. -/
theorem iget_ok {u : UInt32} {i : Slot} {s₁ : State Pid}
    (hget : s.iget (s.inode dp).dev u = .ok (i, s₁)) (hl : (s₁.inode i).lock = none) :
    i ≠ dp ∧ u ≠ (s.inode dp).inum ∧ (s₁.inode i).inum = u ∧
      (∀ j, j ≠ i → s₁.inode j = s.inode j) ∧ s₁.data = s.data ∧ s₁.disk = s.disk := by
  have hself : (s.inode dp).Is (s.inode dp).dev (s.inode dp).inum := ⟨h.ref, rfl, rfl⟩
  obtain ⟨x, rfl, hlock, hinum, hfound⟩ := State.iget_ok hget
  rw [State.set_inode, hlock] at hl
  have hne : i ≠ dp := by
    rintro rfl
    rw [h.lock] at hl
    cases hl
  refine ⟨hne, ?_, (congrArg Inode.inum (State.set_inode ..)).trans hinum,
    fun j hj => State.set_inode_of_ne hj, rfl, rfl⟩
  rintro rfl
  rcases hfound with ⟨his, -⟩ | ⟨-, hno⟩
  · exact hne (h.uniq i his)
  · exact hno dp hself

omit h

/-- The inode an entry of the directory names can be had, and is not locked. -/
def CanTake (s : State Pid) (dp : Slot) (u : UInt32) : Prop :=
  ∃ i s₁, s.iget (s.inode dp).dev u = .ok (i, s₁) ∧ (s₁.inode i).lock = none

/-- **`dirlink` of a name that is there**, which gives its inode back. -/
theorem exec_dirlink_false (h : DirHeld s p dp n) (hk : FirstMatch (s.dir dp) n name k)
    (hcan : CanTake s dp (entInum (s.dir dp) k)) :
    ∃ s', (dirlink p dp name t).exec handle s = .ok (false, s') ∧ SameDir s s' dp ∧
      DirHeld s' p dp n := by
  obtain ⟨i, s₁, hget, hl⟩ := hcan
  obtain ⟨hne, hu, hinum, hother, hdata, hdisk⟩ := h.iget_ok hget hl
  obtain ⟨s', hput, hother', hdev', hinum', hdisk', hdata'⟩ := exec_iput (p := p) hl
  have hin : s'.inode dp = s.inode dp := (hother' dp hne.symm).trans (hother dp hne.symm)
  have hlook : (dirlookup p dp name).exec handle s = .ok (some (i, offOf k), s₁) := by
    rw [h.exec_dirlookup_some hk, take, hget]
    rfl
  refine ⟨s', ?_, ⟨hin, ?_, ?_⟩, ?_⟩
  · unfold dirlink
    rw [Prog.exec_bind_ok hlook]
    rw [Prog.exec_bind_ok hput]
    rfl
  · rw [hdata', hdata]
  · rw [hdisk' _ (by rw [hinum]; exact hu.symm), hdisk]
  · refine h.congr hin fun j _ hj => ?_
    by_cases hji : j = i
    · rw [hji, Inode.Is, hinum', hinum] at hj
      exact absurd hj.2.2 hu
    · rwa [hother' j hji, hother j hji] at hj

/-- **`dirlink` of a name whose inode is locked** waits. -/
theorem exec_dirlink_locked (h : DirHeld s p dp n) (hk : FirstMatch (s.dir dp) n name k) {i : Slot}
    {s₁ : State Pid} (hget : s.iget (s.inode dp).dev (entInum (s.dir dp) k) = .ok (i, s₁))
    (hl : (s₁.inode i).lock ≠ none) : (dirlink p dp name t).exec handle s = .disabled := by
  have hlook : (dirlookup p dp name).exec handle s = .ok (some (i, offOf k), s₁) := by
    rw [h.exec_dirlookup_some hk, take, hget]
    rfl
  unfold dirlink
  rw [Prog.exec_bind_ok hlook]
  change Prog.exec handle (iput p i >>= _) s₁ = _
  rw [Prog.exec_bind, exec_iput_locked hl]

/-- `dirlink` of a name whose inode cannot be had does not return. -/
theorem exec_dirlink_stuck (h : DirHeld s p dp n) (hk : FirstMatch (s.dir dp) n name k)
    (hcan : ¬CanTake s dp (entInum (s.dir dp) k)) :
    (dirlink p dp name t).exec handle s = .disabled ∨
      (dirlink p dp name t).exec handle s = .panic "iget: no inodes" := by
  have hlook := h.exec_dirlookup_some hk
  unfold take at hlook
  cases hget : s.iget (s.inode dp).dev (entInum (s.dir dp) k) with
  | disabled =>
    rw [hget] at hlook
    exact .inl (by rw [dirlink, Prog.exec_bind, hlook]; rfl)
  | panic msg =>
    rw [hget] at hlook
    unfold State.iget at hget
    split at hget
    · cases hget
    · obtain rfl := Effect.panic.inj hget
      exact .inr (by rw [dirlink, Prog.exec_bind, hlook]; rfl)
  | ok x => exact .inl (h.exec_dirlink_locked hk hget fun hl => hcan ⟨x.1, x.2, hget, hl⟩)

/-- The inode an entry of the directory names can be had, and the process has not locked it. -/
def CanWait (s : State Pid) (p : Pid) (dp : Slot) (u : UInt32) : Prop :=
  ∃ i s₁, s.iget (s.inode dp).dev u = .ok (i, s₁) ∧ (s₁.inode i).lock ≠ some p

/-- `dirlink` waits for another process, which has locked the inode that has the name. -/
def Waits (s : State Pid) (p : Pid) (dp : Slot) (n : ℕ) (name : Str) (t : UInt32) : Prop :=
  (dirlink p dp name t).exec handle s = .disabled ∧
    ∃ k, FirstMatch (s.dir dp) n name k ∧ CanWait s p dp (entInum (s.dir dp) k)

omit [DecidableEq Pid] in
theorem CanTake.canWait {u : UInt32} (h : CanTake s dp u) : CanWait s p dp u := by
  obtain ⟨i, s₁, hget, hl⟩ := h
  exact ⟨i, s₁, hget, by rw [hl]; exact (Option.some_ne_none p).symm⟩

theorem waits_iff (h : DirHeld s p dp n) (hk : FirstMatch (s.dir dp) n name k) :
    Waits s p dp n name t ↔
      ¬CanTake s dp (entInum (s.dir dp) k) ∧ CanWait s p dp (entInum (s.dir dp) k) := by
  constructor
  · rintro ⟨hexec, j, hj, hcan⟩
    obtain rfl := hj.eq hk
    refine ⟨fun htake => ?_, hcan⟩
    obtain ⟨s', hok, -⟩ := h.exec_dirlink_false (t := t) hk htake
    cases hexec.symm.trans hok
  · rintro ⟨hno, hcan⟩
    obtain ⟨i, s₁, hget, -⟩ := id hcan
    exact ⟨h.exec_dirlink_locked hk hget fun hl => hno ⟨i, s₁, hget, hl⟩, k, hk, hcan⟩

/-! ### A full directory -/

/-- **`dirlink` does what it is for**: it adds an entry for the name, where an entry is not
in use or at the end, and returns `0`, or it returns `-1` and leaves the directory as it
is. -/
def Links (s : State Pid) (p : Pid) (dp : Slot) (n : ℕ) (name : Str) (t : UInt32) : Prop :=
  (∃ k s', (dirlink p dp name t).exec handle s = .ok (true, s') ∧ k ≤ n ∧
    (k < n → entInum (s.dir dp) k = 0) ∧ PutEntry s s' dp k (dirent t name) ∧
    DirHeld s' p dp (max n (k + 1))) ∨
  ∃ s', (dirlink p dp name t).exec handle s = .ok (false, s') ∧ SameDir s s' dp

omit [DecidableEq Pid] in
/-- The first entry that is not in use can be used, unless the directory is full. -/
theorem firstFree_lt (h : DirHeld s p dp n) (hk : FirstFree (s.dir dp) n k) :
    k < MAXENT ↔ n < MAXENT ∨ ∃ j, j < n ∧ entInum (s.dir dp) j = 0 := by
  have hle := h.le
  have hkn := hk.le
  constructor
  · intro hlt
    rcases Nat.lt_or_eq_of_le hkn with hkn | rfl
    · exact .inr ⟨k, hkn, hk.free hkn⟩
    · exact .inl hlt
  · rintro (hn | ⟨j, hj, h0⟩)
    · omega
    · have : k ≤ j := not_lt.mp fun hlt => hk.used j hlt h0
      omega

/-- **A full directory.** `dirlink` panics if the directory is as large as it can be and has no
entry that is not in use, and there is none for the name. It returns, having added the entry or
having left the directory as it is, just if there is room for a new name, and the inode of a
name that is there can be had. -/
theorem dirlink_links_iff (h : DirHeld s p dp n) (name : Str) (t : UInt32) :
    ((dirlink p dp name t).exec handle s = .panic "dirlink" ↔ Absent (s.dir dp) n name ∧
      n = MAXENT ∧ ∀ k, k < n → entInum (s.dir dp) k ≠ 0) ∧
    (Links s p dp n name t ↔
      (Absent (s.dir dp) n name → n < MAXENT ∨ ∃ k, k < n ∧ entInum (s.dir dp) k = 0) ∧
      ∀ k, FirstMatch (s.dir dp) n name k → CanTake s dp (entInum (s.dir dp) k)) := by
  obtain ⟨k, hk⟩ := exists_firstFree (s.dir dp) n
  rcases absent_or_firstMatch (s.dir dp) n name with hno | ⟨j, hj⟩
  · by_cases hmax : k < MAXENT
    · have hroom := (h.firstFree_lt hk).mp hmax
      obtain ⟨s', hexec, hput, hheld⟩ := h.exec_dirlink_true (t := t) hno hk hmax
      constructor
      · rw [hexec]
        refine iff_of_false (fun hc => by cases hc) fun ⟨_, hn, hused⟩ => ?_
        rcases hroom with hlt | ⟨j, hj, h0⟩
        · omega
        · exact hused j hj h0
      · exact iff_of_true (.inl ⟨k, s', hexec, hk.le, hk.free, hput, hheld⟩)
          ⟨fun _ => hroom, fun j hj => absurd hno hj.not_absent⟩
    · -- the entry would be beyond the end of the largest directory
      have hfull := mt (h.firstFree_lt hk).mpr hmax
      have hle := h.le
      have hkn := hk.le
      obtain rfl : k = MAXENT := by omega
      have hexec := h.exec_dirlink_full (t := t) hno hk
      constructor
      · refine iff_of_true hexec ⟨hno, by omega, fun j hj h0 => hfull (.inr ⟨j, hj, h0⟩)⟩
      · refine iff_of_false ?_ fun hc => hfull (hc.1 hno)
        rw [Links, hexec]
        rintro (⟨_, _, hc, -⟩ | ⟨_, hc, -⟩)
        · cases hc
        · cases hc
  · by_cases hcan : CanTake s dp (entInum (s.dir dp) j)
    · obtain ⟨s', hexec, hsame, -⟩ := h.exec_dirlink_false (t := t) hj hcan
      constructor
      · rw [hexec]
        exact iff_of_false (fun hc => by cases hc) fun hc => hj.not_absent hc.1
      · exact iff_of_true (.inr ⟨s', hexec, hsame⟩)
          ⟨fun hno => absurd hno hj.not_absent, fun i hi => hi.eq hj ▸ hcan⟩
    · have hstuck := h.exec_dirlink_stuck (t := t) hj hcan
      constructor
      · refine iff_of_false (fun hc => ?_) fun hc => hj.not_absent hc.1
        rw [hc] at hstuck
        rcases hstuck with hc | hc
        · cases hc
        · exact absurd (Effect.panic.inj hc) (by decide)
      · refine iff_of_false ?_ fun hc => hcan (hc.2 j hj)
        unfold Links
        rcases hstuck with hc | hc
        · rw [hc]
          rintro (⟨_, _, hc, -⟩ | ⟨_, hc, -⟩)
          · cases hc
          · cases hc
        · rw [hc]
          rintro (⟨_, _, hc, -⟩ | ⟨_, hc, -⟩)
          · cases hc
          · cases hc

/-- It returns, or waits for another process, unless it waits for the process itself. -/
theorem links_or_waits_iff (h : DirHeld s p dp n) (name : Str) (t : UInt32) :
    Links s p dp n name t ∨ Waits s p dp n name t ↔
      (Absent (s.dir dp) n name → n < MAXENT ∨ ∃ k, k < n ∧ entInum (s.dir dp) k = 0) ∧
      ∀ k, FirstMatch (s.dir dp) n name k → CanWait s p dp (entInum (s.dir dp) k) := by
  rw [(h.dirlink_links_iff name t).2]
  rcases absent_or_firstMatch (s.dir dp) n name with hno | ⟨j, hj⟩
  · have hmatch : ∀ k, ¬FirstMatch (s.dir dp) n name k := fun k hk => hk.not_absent hno
    refine ⟨fun hc => ⟨hc.elim And.left fun hw => ?_, fun k hk => absurd hk (hmatch k)⟩,
      fun hc => .inl ⟨hc.1, fun k hk => absurd hk (hmatch k)⟩⟩
    obtain ⟨-, k, hk, -⟩ := hw
    exact absurd hk (hmatch k)
  · rw [h.waits_iff hj]
    refine ⟨fun hc => ⟨fun hno => absurd hno hj.not_absent, fun k hk => ?_⟩, fun hc => ?_⟩
    · obtain rfl := hk.eq hj
      exact hc.elim (fun hc => (hc.2 k hk).canWait) And.right
    · by_cases hcan : CanTake s dp (entInum (s.dir dp) j)
      · exact .inl ⟨hc.1, fun k hk => hk.eq hj ▸ hcan⟩
      · exact .inr ⟨hcan, hc.2 j hj⟩

end DirHeld

end Link

/-! ### Two directories -/

/-- The root directory, locked, with `n` entries and given contents. -/
def rootHeld (n : ℕ) (f : ℕ → UInt8) : State ℕ := { bootState with
  data := update bootState.data ROOTINO f
  inode := update bootState.inode 0
    ⟨ROOTDEV, ROOTINO, 1, some 0, true, ⟨T_DIR, 0, 0, 1, offOf n⟩⟩ }

theorem dirHeld_rootHeld (hn : n ≤ MAXENT) (f : ℕ → UInt8) :
    DirHeld (rootHeld n f) 0 0 n := by
  refine ⟨rfl, le_rfl, rfl, offOf_toNat hn, hn, fun j hj => ?_⟩
  by_contra hne
  have hin : (rootHeld n f).inode j = bootState.inode j := update_of_ne hne ..
  rw [hin] at hj
  have hpos := hj.1
  change 0 < (if j = 0 then _ else _ : Inode ℕ Fields).ref at hpos
  rw [if_neg hne] at hpos
  exact absurd hpos (lt_irrefl 0)

/-- Contents of a directory whose entries are all in use, with names of two letters. -/
def fullData (j : ℕ) : UInt8 :=
  if j % 16 = 0 then 1
  else if j % 16 = 2 then UInt8.ofNat (1 + j / 16 % 128)
  else if j % 16 = 3 then UInt8.ofNat (1 + j / 16 / 128)
  else 0

theorem entInum_fullData (k : ℕ) : entInum fullData k ≠ 0 := by
  have h0 : fullData (16 * k + 0) = 1 := if_pos (by omega)
  have h1 : fullData (16 * k + 1) = 0 := by
    unfold fullData
    rw [if_neg (by omega), if_neg (by omega), if_neg (by omega)]
  rw [entInum, deInum, entryAt, getD_bytes (by decide), getD_bytes (by decide), h0, h1]
  decide

theorem absent_fullData {c : UInt8} (hc : c ≠ 0) : Absent fullData MAXENT [c] := by
  rintro k hk ⟨-, hsame⟩
  have hname : entName fullData k =
      fullData (16 * k + 2) :: fullData (16 * k + 3) :: bytes fullData (16 * k + 4) 12 := by
    rw [entName, deName, entryAt, drop_bytes]
    rfl
  have hsecond : fullData (16 * k + 3) ≠ 0 := by
    have hmax : MAXENT = 4480 := rfl
    have hval : fullData (16 * k + 3) = UInt8.ofNat (1 + k / 128) := by
      unfold fullData
      rw [if_neg (by omega), if_neg (by omega), if_pos (by omega)]
      congr 3
      omega
    intro h0
    have hnat := congrArg UInt8.toNat (hval.symm.trans h0)
    rw [UInt8.toNat_ofNat_of_lt' (by change _ < 256; omega), UInt8.toNat_zero] at hnat
    omega
  -- the second letter of the entry has no counterpart in the name
  have hleft : prefixTo [c] DIRSIZ = [c] := if_neg hc
  rw [sameName_iff, hname, hleft] at hsame
  by_cases hfirst : fullData (16 * k + 2) = 0
  · have hright : prefixTo (fullData (16 * k + 2) :: fullData (16 * k + 3) ::
        bytes fullData (16 * k + 4) 12) DIRSIZ = [] := if_pos hfirst
    rw [hright] at hsame
    cases hsame
  · have hright : prefixTo (fullData (16 * k + 2) :: fullData (16 * k + 3) ::
        bytes fullData (16 * k + 4) 12) DIRSIZ = fullData (16 * k + 2) ::
          fullData (16 * k + 3) :: prefixTo (bytes fullData (16 * k + 4) 12) 12 :=
      (if_neg hfirst).trans (congrArg _ (if_neg hsecond))
    rw [hright] at hsame
    cases (List.cons.inj hsame).2

end Xv6.Fs
