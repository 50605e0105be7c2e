import Xv6.Fs.DirLink

/-!
# A directory as a finite map

A directory is a map from names, of which the bytes before the first zero and at most
`DIRSIZ` of them count (`Xv6.Fs.key`), to inode numbers (`Xv6.Fs.mapOf`). As long as no name
has two entries, `dirlink` and the removal of an entry by `sys_unlink` are the
operations of a map, wherever in the directory the entries are
(`Xv6.Fs.DirRun.mapOf_eq`).

What happens to the rest of the file system in between does not matter. The one thing that
does is a name whose inode is locked: `dirlink` takes it and gives it back with `iput`,
which waits for its lock. The caller has locked the directory, so `dirlink` of a name
for the directory itself, such as `.`, waits forever (`Xv6.Fs.dirlink_dot`).
-/

namespace Xv6.Fs

open Lib Function List

variable {Pid : Type}

/-! ### Names and entries -/

/-- What counts of a name. -/
def key (name : Str) : Str := prefixTo name DIRSIZ

/-- Entry `k` is in use for the name with a given key. -/
def HasKey (f : ℕ → UInt8) (x : Str) (k : ℕ) : Prop := entInum f k ≠ 0 ∧ key (entName f k) = x

instance (f : ℕ → UInt8) (x : Str) : DecidablePred (HasKey f x) := fun _ =>
  inferInstanceAs (Decidable (_ ∧ _))

/-- **The map a directory stands for.** -/
def mapOf (f : ℕ → UInt8) (n : ℕ) (x : Str) : Option UInt32 :=
  ((List.range n).find? fun k => HasKey f x k).map (entInum f)

/-- No name has two entries. -/
def Unique (f : ℕ → UInt8) (n : ℕ) : Prop :=
  ∀ j k x, j < n → k < n → HasKey f x j → HasKey f x k → j = k

section Entries

variable {f : ℕ → UInt8} {n k : ℕ} {name x : Str} {t u : UInt32}

theorem matches_iff : Matches f name k ↔ HasKey f (key name) k :=
  and_congr_right fun _ => sameName_iff.trans eq_comm

theorem mapOf_eq_some (h : Unique f n) :
    mapOf f n x = some u ↔ ∃ k, k < n ∧ HasKey f x k ∧ entInum f k = u := by
  unfold mapOf
  constructor
  · intro hmap
    obtain ⟨k, hk, rfl⟩ := Option.map_eq_some_iff.mp hmap
    have hx := find?_some hk
    exact ⟨k, mem_range.mp (mem_of_find?_eq_some hk), of_decide_eq_true hx, rfl⟩
  · rintro ⟨k, hk, hx, rfl⟩
    cases hfind : (List.range n).find? fun k => HasKey f x k with
    | none =>
      have := find?_eq_none.mp hfind k (mem_range.mpr hk)
      exact absurd (decide_eq_true hx) this
    | some j =>
      have hxj := find?_some hfind
      rw [h j k x (mem_range.mp (mem_of_find?_eq_some hfind)) hk
        (of_decide_eq_true hxj) hx]
      rfl

theorem mapOf_eq_none : mapOf f n (key name) = none ↔ Absent f n name := by
  unfold mapOf
  rw [Option.map_eq_none_iff, find?_eq_none]
  constructor
  · exact fun h k hk hm => h k (mem_range.mpr hk) (decide_eq_true (matches_iff.mp hm))
  · exact fun h k hk hx => h k (mem_range.mp hk) (matches_iff.mpr (of_decide_eq_true hx))

theorem FirstMatch.mapOf (h : FirstMatch f n name k) (hu : Unique f n) :
    mapOf f n (key name) = some (entInum f k) :=
  (mapOf_eq_some hu).mpr ⟨k, h.lt, matches_iff.mp h.is, rfl⟩

/-- The other entries are as before. -/
theorem hasKey_putEntry_of_ne {de : Str} {j : ℕ} (hde : de.length = 16) (hj : j ≠ k) :
    HasKey (putEntry f k de) x j ↔ HasKey f x j := by
  rw [HasKey, HasKey, entInum, entInum, entName, entName, entryAt_putEntry_of_ne f hde hj]

/-- The entry `dirlink` writes. -/
theorem hasKey_dirent (ht : t ≠ 0) (ht' : t.toNat < 65536) :
    HasKey (putEntry f k (dirent t name)) x k ↔ key name = x := by
  rw [HasKey, entInum, entName, entryAt_putEntry f k (length_dirent t name),
    deInum_dirent name ht']
  exact (and_iff_right ht).trans (by rw [key, sameName_iff.mp (sameName_dirent t name)]; rfl)

theorem entInum_dirent (ht' : t.toNat < 65536) : entInum (putEntry f k (dirent t name)) k = t := by
  rw [entInum, entryAt_putEntry f k (length_dirent t name), deInum_dirent name ht']

/-- The entry `sys_unlink` writes. -/
theorem not_hasKey_emptyDirent : ¬HasKey (putEntry f k emptyDirent) x k := by
  rw [HasKey, entInum, entryAt_putEntry f k rfl]
  exact fun h => h.1 rfl

/-! ### Operations on the map -/

section Link

variable (hu : Unique f n) (hno : Absent f n name) (hk : FirstFree f n k) (ht : t ≠ 0)
  (ht' : t.toNat < 65536)

include hk in
/-- An entry of the directory after `dirlink`. -/
theorem hasKey_link {j : ℕ} (hj : j < max n (k + 1)) : j = k ∨ j ≠ k ∧ j < n := by
  by_cases hjk : j = k
  · exact .inl hjk
  · have := hk.le
    exact .inr ⟨hjk, by omega⟩

include hu hno hk ht ht' in
theorem Unique.link : Unique (putEntry f k (dirent t name)) (max n (k + 1)) := by
  have hlen := length_dirent t name
  have hnew : ∀ {x j}, j ≠ k → j < n → HasKey (putEntry f k (dirent t name)) x k →
      ¬HasKey (putEntry f k (dirent t name)) x j := by
    intro x j hjk hjn hxk hxj
    rw [hasKey_dirent ht ht'] at hxk
    rw [hasKey_putEntry_of_ne hlen hjk, ← hxk] at hxj
    exact hno j hjn (matches_iff.mpr hxj)
  intro i j x hi hj hxi hxj
  rcases hasKey_link hk hi with rfl | ⟨hik, hin⟩
  · rcases hasKey_link hk hj with rfl | ⟨hjk, hjn⟩
    · rfl
    · exact absurd hxj (hnew hjk hjn hxi)
  · rcases hasKey_link hk hj with rfl | ⟨hjk, hjn⟩
    · exact absurd hxi (hnew hik hin hxj)
    · exact hu i j x hin hjn ((hasKey_putEntry_of_ne hlen hik).mp hxi)
        ((hasKey_putEntry_of_ne hlen hjk).mp hxj)

include hu hno hk ht ht' in
/-- **`dirlink` adds the name to the map.** -/
theorem mapOf_link : mapOf (putEntry f k (dirent t name)) (max n (k + 1)) =
    update (mapOf f n) (key name) (some t) := by
  have hlen := length_dirent t name
  funext x
  refine Option.ext fun u => ?_
  rw [mapOf_eq_some (hu.link hno hk ht ht')]
  by_cases hx : x = key name
  · subst hx
    rw [update_self, Option.some.injEq]
    constructor
    · rintro ⟨j, hj, hxj, rfl⟩
      rcases hasKey_link hk hj with rfl | ⟨hjk, hjn⟩
      · exact (entInum_dirent ht').symm
      · exact absurd (matches_iff.mpr ((hasKey_putEntry_of_ne hlen hjk).mp hxj)) (hno j hjn)
    · rintro rfl
      exact ⟨k, by omega, (hasKey_dirent ht ht').mpr rfl, entInum_dirent ht'⟩
  · rw [update_of_ne hx, mapOf_eq_some hu]
    constructor
    · rintro ⟨j, hj, hxj, rfl⟩
      rcases hasKey_link hk hj with rfl | ⟨hjk, hjn⟩
      · exact absurd ((hasKey_dirent ht ht').mp hxj).symm hx
      · exact ⟨j, hjn, (hasKey_putEntry_of_ne hlen hjk).mp hxj,
          (entInum_putEntry_of_ne f hlen hjk).symm⟩
    · rintro ⟨j, hj, hxj, rfl⟩
      have hjk : j ≠ k := by
        rintro rfl
        exact hxj.1 (hk.free hj)
      exact ⟨j, by omega, (hasKey_putEntry_of_ne hlen hjk).mpr hxj, entInum_putEntry_of_ne f hlen hjk⟩

end Link

section Unlink

variable (hu : Unique f n) (hk : FirstMatch f n name k)

include hu in
theorem Unique.unlink : Unique (putEntry f k emptyDirent) n := by
  have hkeep : ∀ {x j}, HasKey (putEntry f k emptyDirent) x j → HasKey f x j := by
    intro x j hxj
    have hjk : j ≠ k := by
      rintro rfl
      exact not_hasKey_emptyDirent hxj
    exact (hasKey_putEntry_of_ne rfl hjk).mp hxj
  exact fun i j x hi hj hxi hxj => hu i j x hi hj (hkeep hxi) (hkeep hxj)

include hu hk in
/-- **The removal of an entry** takes the name out of the map. -/
theorem mapOf_unlink : mapOf (putEntry f k emptyDirent) n = update (mapOf f n) (key name) none := by
  funext x
  refine Option.ext fun u => ?_
  rw [mapOf_eq_some hu.unlink]
  by_cases hx : x = key name
  · subst hx
    rw [update_self]
    refine iff_of_false ?_ (by rintro ⟨⟩)
    rintro ⟨j, hj, hxj, -⟩
    by_cases hjk : j = k
    · subst hjk
      exact not_hasKey_emptyDirent hxj
    · exact hjk (hu j k _ hj hk.lt ((hasKey_putEntry_of_ne rfl hjk).mp hxj)
        (matches_iff.mp hk.is))
  · rw [update_of_ne hx, mapOf_eq_some hu]
    constructor
    · rintro ⟨j, hj, hxj, rfl⟩
      by_cases hjk : j = k
      · subst hjk
        exact absurd hxj not_hasKey_emptyDirent
      · exact ⟨j, hj, (hasKey_putEntry_of_ne rfl hjk).mp hxj, (entInum_putEntry_of_ne f rfl hjk).symm⟩
    · rintro ⟨j, hj, hxj, rfl⟩
      by_cases hjk : j = k
      · subst hjk
        exact absurd (hxj.2.symm.trans (matches_iff.mp hk.is).2) hx
      · exact ⟨j, hj, (hasKey_putEntry_of_ne rfl hjk).mpr hxj, entInum_putEntry_of_ne f rfl hjk⟩

end Unlink

end Entries

/-! ### Runs -/

/-- What `sys_unlink` does to the directory when it removes an entry: it looks the name up and
writes zeros over the entry. The inode it has found is left to the caller. -/
def removeEntry (p : Pid) (dp : Slot) (name : Str) : FsM Pid (Option Slot) := do
  match ← dirlookup p dp name with
  | none => return none
  | some (ip, off) => do
    let n ← writei p dp off emptyDirent
    panicIf (n ≠ some DESIZE) "unlink: writei"
    return some ip

/-- What happens to a directory. -/
inductive DirAct where
  | link (name : Str) (t : UInt32)
  | unlink (name : Str)
  | other

variable [DecidableEq Pid]

/-- **A step** in the life of the directory at entry `dp` of the inode cache: the process that
has locked it adds or removes an entry, or anything else happens that leaves its contents as
they are; the process that has it locked may then be another one. -/
inductive DirStep (dp : Slot) : State Pid → DirAct → State Pid → Prop
  | link {s s' : State Pid} {p : Pid} {n : ℕ} {name : Str} {t : UInt32} {b : Bool}
    (h : DirHeld s p dp n) (ht : t ≠ 0) (ht' : t.toNat < 65536)
    (hexec : (dirlink p dp name t).exec handle s = .ok (b, s')) : DirStep dp s (.link name t) s'
  | unlink {s s' : State Pid} {p : Pid} {n : ℕ} {name : Str} {r : Option Slot}
    (h : DirHeld s p dp n) (hexec : (removeEntry p dp name).exec handle s = .ok (r, s')) :
    DirStep dp s (.unlink name) s'
  | other {s s' : State Pid} {p q : Pid} {n : ℕ} (h : DirHeld s p dp n) (h' : DirHeld s' q dp n)
    (hdir : s'.dir dp = s.dir dp) : DirStep dp s .other s'

inductive DirRun (dp : Slot) : State Pid → List DirAct → State Pid → Prop
  | nil (s : State Pid) : DirRun dp s [] s
  | cons {s s' s'' : State Pid} {a : DirAct} {as : List DirAct} (h : DirStep dp s a s')
    (hs : DirRun dp s' as s'') : DirRun dp s (a :: as) s''

/-- What happens to the map. -/
def mapStep (m : Str → Option UInt32) : DirAct → Str → Option UInt32
  | .link name t => if m (key name) = none then update m (key name) (some t) else m
  | .unlink name => update m (key name) none
  | .other => m

section Runs

variable {s s' : State Pid} {p : Pid} {dp : Slot} {n : ℕ} {name : Str} {t : UInt32} {a : DirAct}

section

omit [DecidableEq Pid]

theorem DirHeld.size_eq {q : Pid} {m : ℕ} (h : DirHeld s p dp n) (h' : DirHeld s q dp m) :
    n = m := by
  have := h.size
  have := h'.size
  omega

/-- The directory is held by someone, no name has two entries, and the map is `m`. -/
def Stands (s : State Pid) (dp : Slot) (m : Str → Option UInt32) : Prop :=
  ∃ p n, DirHeld s p dp n ∧ Unique (s.dir dp) n ∧ mapOf (s.dir dp) n = m

/-- Another entry of the inode cache does not matter. -/
theorem DirHeld.set {i : Slot} {x : Inode Pid Fields} (h : DirHeld s p dp n) (hi : i ≠ dp)
    (hx : ¬x.Is (s.inode dp).dev (s.inode dp).inum) : DirHeld (s.set i x) p dp n := by
  refine h.congr (State.set_inode_of_ne hi.symm) fun j _ hj => ?_
  by_cases hji : j = i
  · rw [hji, State.set_inode] at hj
    exact absurd hj hx
  · rwa [State.set_inode_of_ne hji] at hj

/-- `iget` of an inode that is named in the directory keeps the directory. -/
theorem DirHeld.iget {i : Slot} {u : UInt32} (h : DirHeld s p dp n)
    (hget : s.iget (s.inode dp).dev u = .ok (i, s')) :
    DirHeld s' p dp n ∧ s'.dir dp = s.dir dp := by
  have hself : (s.inode dp).Is (s.inode dp).dev (s.inode dp).inum := ⟨h.ref, rfl, rfl⟩
  obtain ⟨x, rfl, hlock, hinum, hfound⟩ := State.iget_ok hget
  by_cases hi : i = dp
  · -- the directory itself, which has one more reference
    subst hi
    rcases hfound with ⟨-, rfl⟩ | ⟨hzero, -⟩
    · have hin := s.set_inode i { s.inode i with ref := (s.inode i).ref + 1 }
      refine ⟨⟨?_, ?_, ?_, ?_, h.le, fun j hj => ?_⟩, ?_⟩
      · rw [hin]
        exact h.lock
      · rw [hin]
        exact Int.le_add_one h.ref
      · rw [hin]
        exact h.type
      · rw [hin]
        exact h.size
      · by_contra hne
        rw [hin, State.set_inode_of_ne hne] at hj
        exact hne (h.uniq j hj)
      · rw [State.dir, hin]
        rfl
    · have := h.ref
      omega
  · have hx : ¬x.Is (s.inode dp).dev (s.inode dp).inum := by
      intro hx
      rcases hfound with ⟨his, rfl⟩ | ⟨-, hno⟩
      · exact hi (h.uniq i ⟨his.1, hx.2⟩)
      · rw [← hinum, hx.2.2] at hno
        exact hno dp hself
    refine ⟨h.set hi hx, ?_⟩
    rw [State.dir, State.set_inode_of_ne (Ne.symm hi)]
    rfl

end

/-- **`removeEntry`** of a name that is there. -/
theorem DirHeld.exec_removeEntry (h : DirHeld s p dp n) {k : ℕ}
    (hk : FirstMatch (s.dir dp) n name k) {r : Option Slot}
    (hexec : (removeEntry p dp name).exec handle s = .ok (r, s')) :
    DirHeld s' p dp n ∧ s'.dir dp = putEntry (s.dir dp) k emptyDirent := by
  have hlook := h.exec_dirlookup_some hk
  unfold DirHeld.take at hlook
  unfold removeEntry at hexec
  rw [Prog.exec_bind, hlook] at hexec
  cases hget : s.iget (s.inode dp).dev (entInum (s.dir dp) k) with
  | disabled =>
    rw [hget] at hexec
    cases hexec
  | panic msg =>
    rw [hget] at hexec
    cases hexec
  | ok x =>
    rw [hget] at hexec
    obtain ⟨hheld, hdir⟩ := h.iget hget
    have hlt : k < MAXENT := hk.lt.trans_le h.le
    have hlen : emptyDirent.length = 16 := rfl
    obtain ⟨s₁, hwrite, hput, hheld'⟩ := hheld.writei_entry hk.lt.le hlt hlen
    have hrun : (writei p dp (offOf k) emptyDirent).exec handle x.2 = .ok (some DESIZE, s₁) := by
      rw [exec_writei (by rw [hheld.type]; decide), hwrite]
    change Prog.exec handle (writei p dp (offOf k) emptyDirent >>= _) x.2 = _ at hexec
    rw [Prog.exec_bind_ok hrun, panicIf, if_neg (not_not_intro rfl)] at hexec
    obtain ⟨-, rfl⟩ := Prod.mk.inj (Effect.ok.inj hexec)
    rw [max_eq_left hk.lt] at hheld'
    exact ⟨hheld', by rw [hput.dir, hdir]⟩

/-- **A step is an operation of the map.** -/
theorem DirStep.stands {m : Str → Option UInt32} (hs : DirStep dp s a s') (h : Stands s dp m) :
    Stands s' dp (mapStep m a) := by
  obtain ⟨q, n, hq, hu, rfl⟩ := h
  cases hs with
  | @link _ p n' name t b h ht ht' hexec =>
    obtain rfl := hq.size_eq h
    rcases absent_or_firstMatch (s.dir dp) n name with hno | ⟨k, hk⟩
    · obtain ⟨k, hk⟩ := exists_firstFree (s.dir dp) n
      by_cases hmax : k < MAXENT
      · obtain ⟨s₁, hexec', hput, hheld⟩ := h.exec_dirlink_true (t := t) hno hk hmax
        obtain ⟨-, rfl⟩ := Prod.mk.inj (Effect.ok.inj (hexec.symm.trans hexec'))
        refine ⟨p, _, hheld, ?_, ?_⟩
        · rw [hput.dir]
          exact hu.link hno hk ht ht'
        · rw [hput.dir, mapOf_link hu hno hk ht ht', mapStep, if_pos (mapOf_eq_none.mpr hno)]
      · have hle := h.le
        have hkn := hk.le
        obtain rfl : k = MAXENT := by omega
        rw [h.exec_dirlink_full hno hk] at hexec
        cases hexec
    · by_cases hcan : DirHeld.CanTake s dp (entInum (s.dir dp) k)
      · obtain ⟨s₁, hexec', hsame, hheld⟩ := h.exec_dirlink_false (t := t) hk hcan
        obtain ⟨-, rfl⟩ := Prod.mk.inj (Effect.ok.inj (hexec.symm.trans hexec'))
        have hdir : s'.dir dp = s.dir dp := by
          rw [State.dir, hsame.inode, hsame.data]
          rfl
        refine ⟨p, _, hheld, by rw [hdir]; exact hu, ?_⟩
        rw [hdir, mapStep, if_neg]
        rw [hk.mapOf hu]
        exact Option.some_ne_none _
      · rcases h.exec_dirlink_stuck (t := t) hk hcan with hc | hc
        · rw [hc] at hexec
          cases hexec
        · rw [hc] at hexec
          cases hexec
  | @unlink _ p n' name r h hexec =>
    obtain rfl := hq.size_eq h
    rcases absent_or_firstMatch (s.dir dp) n name with hno | ⟨k, hk⟩
    · have hnone : (removeEntry p dp name).exec handle s = .ok (none, s) := by
        unfold removeEntry
        rw [Prog.exec_bind_ok (h.exec_dirlookup_none hno)]
        rfl
      obtain ⟨-, rfl⟩ := Prod.mk.inj (Effect.ok.inj (hexec.symm.trans hnone))
      refine ⟨p, n, h, hu, ?_⟩
      exact (update_eq_self_iff.mpr (mapOf_eq_none.mpr hno).symm).symm
    · obtain ⟨hheld, hdir⟩ := h.exec_removeEntry hk hexec
      refine ⟨p, n, hheld, ?_, ?_⟩
      · rw [hdir]
        exact hu.unlink
      · rw [hdir]
        exact mapOf_unlink hu hk
  | other h h' hdir =>
    obtain rfl := hq.size_eq h
    exact ⟨_, n, h', hdir.symm ▸ hu, by rw [hdir]; rfl⟩

/-- **A run is a run of the map.** -/
theorem DirRun.stands {as : List DirAct} {m : Str → Option UInt32} (hs : DirRun dp s as s')
    (h : Stands s dp m) : Stands s' dp (as.foldl mapStep m) := by
  induction hs generalizing m with
  | nil s => exact h
  | cons hstep _ ih => exact ih (hstep.stands h)

/-- **`dirlookup` is the lookup of the map**: it returns no inode if the name is not in the
map, and otherwise the inode of the name and the offset of its entry. -/
def LooksUp (s : State Pid) (p : Pid) (dp : Slot) (n : ℕ) (m : Str → Option UInt32)
    (name : Str) : Prop :=
  (m (key name) = none → (dirlookup p dp name).exec handle s = .ok (none, s)) ∧
  ∀ u, m (key name) = some u → ∃ k i s', (dirlookup p dp name).exec handle s =
    .ok (some (i, offOf k), s') ∧ (s'.inode i).inum = u ∧ k < n ∧ Matches (s.dir dp) name k ∧
      entInum (s.dir dp) k = u

/-- **`dirlink` is the insertion of the map**: if the name is not in the map, it adds an entry in
the first place that is not in use, which may be at the end, and returns `0`; if it is, it
leaves the directory as it is and returns `-1`. -/
def AddsTo (s : State Pid) (p : Pid) (dp : Slot) (n : ℕ) (m : Str → Option UInt32)
    (name : Str) (t : UInt32) : Prop :=
  (m (key name) = none → ∃ k s', (dirlink p dp name t).exec handle s = .ok (true, s') ∧
    FirstFree (s.dir dp) n k ∧ DirHeld s' p dp (max n (k + 1)) ∧
    s'.dir dp = putEntry (s.dir dp) k (dirent t name)) ∧
  ∀ u, m (key name) = some u → ∃ s', (dirlink p dp name t).exec handle s = .ok (false, s') ∧
    SameDir s s' dp

theorem DirHeld.looksUp_iff (h : DirHeld s p dp n) (hu : Unique (s.dir dp) n) (name : Str) :
    LooksUp s p dp n (mapOf (s.dir dp) n) name ↔
      ∀ u, mapOf (s.dir dp) n (key name) = some u → ∃ x, s.iget (s.inode dp).dev u = .ok x := by
  rcases absent_or_firstMatch (s.dir dp) n name with hno | ⟨k, hk⟩
  · have hnone := mapOf_eq_none.mpr hno
    refine iff_of_true ⟨fun _ => h.exec_dirlookup_none hno, fun u hsome => ?_⟩ fun u hsome => ?_
    · cases hnone.symm.trans hsome
    · cases hnone.symm.trans hsome
  · have hsome := hk.mapOf hu
    have hexec := h.exec_dirlookup_some hk
    unfold DirHeld.take at hexec
    constructor
    · rintro ⟨-, hlook⟩ u hu'
      obtain ⟨_, i, s', hok, -⟩ := hlook u hu'
      obtain rfl := Option.some.inj (hsome.symm.trans hu')
      rw [hexec] at hok
      obtain ⟨x, hx, -⟩ := Effect.map_eq_ok.mp hok
      exact ⟨x, hx⟩
    · refine fun hget => ⟨fun hnone => ?_, fun u hu' => ?_⟩
      · cases hnone.symm.trans hsome
      · obtain ⟨⟨i, s₁⟩, hx⟩ := hget u hu'
        obtain rfl := Option.some.inj (hsome.symm.trans hu')
        obtain ⟨y, rfl, -, hinum, -⟩ := State.iget_ok hx
        refine ⟨k, i, s.set i y, ?_, ?_, hk.lt, hk.is, rfl⟩
        · rw [hexec, hx]
          rfl
        · rw [State.set_inode, hinum]

theorem DirHeld.addsTo_iff (h : DirHeld s p dp n) (hu : Unique (s.dir dp) n) (name : Str)
    (t : UInt32) : AddsTo s p dp n (mapOf (s.dir dp) n) name t ↔
      (mapOf (s.dir dp) n (key name) = none →
        n < MAXENT ∨ ∃ k, k < n ∧ entInum (s.dir dp) k = 0) ∧
      ∀ u, mapOf (s.dir dp) n (key name) = some u → DirHeld.CanTake s dp u := by
  rcases absent_or_firstMatch (s.dir dp) n name with hno | ⟨k, hk⟩
  · have hnone := mapOf_eq_none.mpr hno
    obtain ⟨k, hk⟩ := exists_firstFree (s.dir dp) n
    rw [← h.firstFree_lt hk]
    constructor
    · rintro ⟨hadd, -⟩
      refine ⟨fun _ => ?_, fun u hsome => ?_⟩
      · by_contra hmax
        have hle := h.le
        have hkn := hk.le
        obtain rfl : k = MAXENT := by omega
        obtain ⟨_, _, hok, -⟩ := hadd hnone
        rw [h.exec_dirlink_full hno hk] at hok
        cases hok
      · cases hnone.symm.trans hsome
    · rintro ⟨hroom, -⟩
      obtain ⟨s', hexec, hput, hheld⟩ := h.exec_dirlink_true (t := t) hno hk (hroom hnone)
      refine ⟨fun _ => ⟨k, s', hexec, hk, hheld, hput.dir⟩, fun u hsome => ?_⟩
      cases hnone.symm.trans hsome
  · have hsome := hk.mapOf hu
    constructor
    · rintro ⟨-, hsame⟩
      refine ⟨fun hnone => ?_, fun u hu' => ?_⟩
      · cases hnone.symm.trans hsome
      · obtain rfl := Option.some.inj (hsome.symm.trans hu')
        by_contra hcan
        obtain ⟨_, hok, -⟩ := hsame _ hu'
        rcases h.exec_dirlink_stuck (t := t) hk hcan with hc | hc
        · rw [hc] at hok
          cases hok
        · rw [hc] at hok
          cases hok
    · rintro ⟨-, hcan⟩
      refine ⟨fun hnone => ?_, fun u hu' => ?_⟩
      · cases hnone.symm.trans hsome
      · obtain ⟨s', hexec, hsame, -⟩ := h.exec_dirlink_false (t := t) hk (hcan _ hsome)
        exact ⟨s', hexec, hsame⟩

theorem DirHeld.addsTo_or_waits_iff (h : DirHeld s p dp n) (hu : Unique (s.dir dp) n) (name : Str)
    (t : UInt32) : AddsTo s p dp n (mapOf (s.dir dp) n) name t ∨ DirHeld.Waits s p dp n name t ↔
      (mapOf (s.dir dp) n (key name) = none →
        n < MAXENT ∨ ∃ k, k < n ∧ entInum (s.dir dp) k = 0) ∧
      ∀ u, mapOf (s.dir dp) n (key name) = some u → DirHeld.CanWait s p dp u := by
  rw [h.addsTo_iff hu]
  rcases absent_or_firstMatch (s.dir dp) n name with hno | ⟨k, hk⟩
  · have hnone := mapOf_eq_none.mpr hno
    have hnot : ¬DirHeld.Waits s p dp n name t := fun hw => by
      obtain ⟨-, k, hk, -⟩ := hw
      exact hk.not_absent hno
    rw [or_iff_left hnot, hnone]
    simp only [reduceCtorEq, false_imp_iff, implies_true, and_true]
  · rw [h.waits_iff hk, hk.mapOf hu]
    simp only [reduceCtorEq, false_imp_iff, true_and, Option.some.injEq, forall_eq']
    by_cases hcan : DirHeld.CanTake s dp (entInum (s.dir dp) k)
    · exact iff_of_true (.inl hcan) hcan.canWait
    · rw [or_iff_right hcan, and_iff_right hcan]

/-- **A name for the directory itself** makes `dirlink` wait for the lock its caller has. -/
theorem DirHeld.exec_dirlink_self (h : DirHeld s p dp n) {k : ℕ}
    (hk : FirstMatch (s.dir dp) n name k) (hself : entInum (s.dir dp) k = (s.inode dp).inum) :
    (dirlink p dp name t).exec handle s = .disabled := by
  have hget := iget_of_is ⟨h.ref, rfl, rfl⟩ h.uniq
  rw [← hself] at hget
  refine h.exec_dirlink_locked hk hget ?_
  rw [State.set_inode, h.lock]
  exact Option.some_ne_none p

end Runs

/-! ### The root directory -/

theorem unique_rootData : Unique rootData 2 := by
  intro j k x hj hk hxj hxk
  have hkeys : ∀ j, j < 2 → ∀ k, k < 2 → key (entName rootData j) = key (entName rootData k) →
      j = k := by decide
  exact hkeys j hj k hk (hxj.2.trans hxk.2.symm)

end Xv6.Fs
