import Xv6.Fs.Unlink
import Xv6.Lib.Count

/-!
# What system calls do

What a system call does to the state, when nobody else is active, is made up of a
few changes (`Xv6.Fs.Change`): an inode is created, gets another name or loses one,
a file is written to, somebody – a process with its working directory, or an open
file – begins or ceases to refer to an inode. The relation says all that later
results use about the system calls; which changes each of them makes is the subject
of `Xv6.Fs.Call`.

Each change preserves what holds between two system calls (`Xv6.Fs.Wf`): the state
is tidy, and the reference counts of the inode cache are the numbers of those who
refer to the entries (`Xv6.Fs.Change.wf`).
-/

namespace Xv6.Fs

open Lib Function View

variable {Pid : Type}

/-- The entry of the inode cache that an open file refers to. -/
def File.holds (F : File) : Option Slot := if F.type = .inode then some F.ip else none

/-- The entry of the inode cache that somebody refers to: a process, or an open file. -/
def Tables.holds (T : Tables Pid) : Pid ⊕ FileId → Option Slot
  | .inl q => (T.proc q).cwd
  | .inr f => (T.file f).holds

/-- An open file is the readable or the writable end of a pipe. -/
def File.IsEnd (F : File) (q : PipeId) (writable : Bool) : Prop :=
  F.type = .pipe ∧ F.pipe = q ∧ F.writable = writable

/-- Whether the readable or the writable end of a pipe is open. -/
def PipeEnds.isOpen (E : PipeEnds) (writable : Bool) : Bool :=
  if writable then E.writeopen else E.readopen

/-- The reference count of an open file is the number of the descriptors `refers`. -/
structure FileOk (F : File) (refers : Pid × Fd → Prop) : Prop where
  refs : Counts refers F.ref
  unset : F.ref = 0 ↔ F.type = .none
  ends : F.type = .pipe → F.readable = !F.writable

/-- The ends of a pipe are open as long as there are open files for them. -/
structure PipeOk (E : PipeEnds) (isEnd : Bool → FileId → Prop) : Prop where
  unique : ∀ w f g, isEnd w f → isEnd w g → f = g
  isOpen : ∀ w, E.isOpen w = true ↔ ∃ f, isEnd w f
  owned : E.owned = if E.readopen = true ∨ E.writeopen = true then 1 else 0

namespace Tables

/-- Open file `f` is the readable or the writable end of a pipe. -/
def IsEnd (T : Tables Pid) (q : PipeId) (writable : Bool) (f : FileId) : Prop :=
  (T.file f).IsEnd q writable

/-- A file descriptor refers to open file `f`. -/
def Refers (T : Tables Pid) (f : FileId) (x : Pid × Fd) : Prop := (T.proc x.1).ofile x.2 = some f

/-- **The tables between two system calls.** -/
structure Ok (T : Tables Pid) : Prop where
  files : ∀ f, FileOk (T.file f) (T.Refers f)
  pipes : ∀ q, PipeOk (T.pipe q) (T.IsEnd q)

end Tables

namespace View

/-- The state with other open files, pipes and processes. -/
def hold (a : View Pid) (T : Tables Pid) : View Pid := { a with tables := T }

/-- The state with other things that no inode depends on. -/
def rest (a : View Pid) (outstanding : ℤ) (cons : List (Option Str)) : View Pid :=
  { a with outstanding := outstanding, cons := cons }

end View

/-- The open files are as they should be, and one that can be written to is not a
directory. -/
structure FilesOk (a : View Pid) : Prop where
  ok : a.tables.Ok
  writable : ∀ f e, (a.file f).type = .inode → (a.file f).writable = true →
    a.inode (a.file f).ip = some e → (a.disk e.inum).type ≠ T_DIR

/-- **The file system between two system calls.** -/
structure Wf (a : View Pid) : Prop extends Tidy a where
  balanced : ∀ i, Counts (fun x => a.tables.holds x = some i) (a.refs i)
  files : FilesOk a

/-- **What a system call may do**, under the conditions `c`. -/
inductive Change (c : Cond) : View Pid → View Pid → Prop
  /-- Nothing that concerns the inodes. -/
  | rest {a : View Pid} (outstanding : ℤ) (cons : List (Option Str)) {T : Tables Pid}
      (hholds : T.holds = a.tables.holds) (hfiles : FilesOk (a.hold T)) :
      Change c a ((a.rest outstanding cons).hold T)
  /-- Write to a file. -/
  | write {a : View Pid} {t : UInt32} (off : UInt32) (src : Str) (htype : (a.disk t).type ≠ 0)
      (hdir : (a.disk t).type ≠ T_DIR) (hdev : (a.disk t).type ≠ T_DEV) :
      Change c a (a.writei t off src).2
  /-- Create an inode. -/
  | create {a b : View Pid} {d t : UInt32} {k : ℕ} {name : Str} {type major minor : Int16}
      (htype : type ≠ 0) (h : Created c a d t k name type major minor b) : Change c a b
  /-- Add a name. -/
  | link {a b : View Pid} {d t : UInt32} {k : ℕ} {name : Str} (h : Linked c a d t k name b) :
      Change c a b
  /-- Remove a name. -/
  | unlink {a b : View Pid} {d t : UInt32} {k : ℕ} (h : Unlinked c a d t k b) : Change c a b
  /-- Begin to refer to an inode. -/
  | take {a : View Pid} {x : Pid ⊕ FileId} {i : Slot} {t : UInt32} {T : Tables Pid}
      (hi : a.Taken i t true) (hx : a.tables.holds x = none) (hself : T.holds x = some i)
      (hothers : ∀ y, y ≠ x → T.holds y = a.tables.holds y)
      (hfiles : FilesOk ((a.refTo i t none true).hold T)) :
      Change c a ((a.refTo i t none true).hold T)
  /-- Cease to refer to an inode. -/
  | give {a b : View Pid} {x : Pid ⊕ FileId} {i : Slot} {e : Entry Pid} {T : Tables Pid}
      (hi : a.inode i = some e) (hx : a.tables.holds x = some i) (hself : T.holds x = none)
      (hothers : ∀ y, y ≠ x → T.holds y = a.tables.holds y) (hfiles : FilesOk (a.hold T))
      (h : Released c ((a.drop i e).hold T) e.inum b) : Change c a b
  /-- Refer to another inode. -/
  | move {a b : View Pid} {x : Pid ⊕ FileId} {i j : Slot} {t : UInt32} {e : Entry Pid}
      {T : Tables Pid} (hi : a.Taken i t true)
      (hj : (a.refTo i t none true).inode j = some e) (hx : a.tables.holds x = some j)
      (hself : T.holds x = some i) (hothers : ∀ y, y ≠ x → T.holds y = a.tables.holds y)
      (hfiles : FilesOk ((a.refTo i t none true).hold T))
      (h : Released c (((a.refTo i t none true).drop j e).hold T) e.inum b) : Change c a b

section Preserved

variable {c : Cond} {a b : View Pid} {i j : Slot} {e : Entry Pid} {d t : UInt32} {k : ℕ}
  {name : Str} {major minor : Int16} {T : Tables Pid}

/-! ### The tree -/

theorem FilesOk.of_tree (h : FilesOk a) (hinode : b.inode = a.inode) (ht : b.tables = a.tables)
    (htype : ∀ i e, a.inode i = some e → (b.disk e.inum).type = (a.disk e.inum).type) :
    FilesOk b := by
  have hfile : b.file = a.file := congrArg Tables.file ht
  refine ⟨by rw [ht]; exact h.ok, fun f e hf hw he => ?_⟩
  rw [hfile] at hf hw he
  rw [hinode] at he
  rw [htype _ e he]
  exact h.writable f e hf hw he

/-- A change of the tree leaves the references alone. -/
theorem Wf.of_tree (h : Wf a) (ht : Tidy b) (hinode : b.inode = a.inode)
    (htables : b.tables = a.tables)
    (htype : ∀ i e, a.inode i = some e → (b.disk e.inum).type = (a.disk e.inum).type) : Wf b := by
  refine ⟨ht, fun i => ?_, h.files.of_tree hinode htables htype⟩
  rw [htables, View.refs, hinode]
  exact h.balanced i

theorem Released.tables (h : Released c a t b) : b.tables = a.tables := by
  rcases h with ⟨-, -, rfl⟩ | ⟨-, rfl⟩ <;> rfl

/-- The inodes that somebody refers to are not freed. -/
theorem Released.type (h : Released c a t b) (hi : a.inode i = some e) :
    (b.disk e.inum).type = (a.disk e.inum).type := by
  rcases h with ⟨ho, -, rfl⟩ | ⟨-, rfl⟩
  · rw [free_disk_of_ne (ho.2 i e hi)]
  · rfl

theorem Created.ne {type : Int16} (h : Created c a d t k name type major minor b) : d ≠ t := by
  obtain ⟨n, hv⟩ := h.vacant
  rintro rfl
  have := hv.dir.type.symm.trans h.free
  exact absurd this (by decide)

theorem Created.tidy {type : Int16} (h : Tidy a) (hty : type ≠ 0)
    (hc : Created c a d t k name type major minor b) : Tidy b := by
  obtain ⟨n, hv⟩ := hc.vacant
  have hdt := hc.ne
  have hd : d ≠ 0 := (h.range d (by rw [hv.dir.type]; decide)).1
  have ht : t.toNat < 65536 := lt_of_lt_of_le (UInt32.lt_iff_toNat_lt.mp hc.range) h.ninodes
  have hinum : deInum (dirent t name) < (a.newNode d t type major minor).ninodes := by
    rw [deInum_dirent _ ht, newNode_ninodes]
    exact hc.range
  have hneat := (h.toNeat.newNode hv.dir hc.free hc.pos hc.range hty major minor).putEntry
    (hv.dir.newNode hdt type major minor) (hv.two_le hd) hv.le hv.max (length_dirent t name) hinum
  exact ⟨hneat.released hc.released,
    (((h.orphan.but d).newNode hdt type major minor).putEntry d k _).released hc.released⟩

theorem Linked.tidy (h : Tidy a) (hl : Linked c a d t k name b) : Tidy b := by
  obtain ⟨n, hv⟩ := hl.vacant
  have hd : d ≠ 0 := (h.range d (by rw [hv.dir.type]; decide)).1
  have htn : t < a.ninodes := (h.range t hl.type).2
  have ht : t.toNat < 65536 := lt_of_lt_of_le (UInt32.lt_iff_toNat_lt.mp htn) h.ninodes
  have hdir : DirOk (a.relink t ((a.disk t).nlink + 1)) d n :=
    hv.dir.congr rfl (relink_type ..) (relink_size ..) rfl
  have hneat := (h.toNeat.relink t ((a.disk t).nlink + 1)).putEntry hdir (hv.two_le hd) hv.le
    hv.max (length_dirent t name) (by rw [deInum_dirent _ ht]; exact htn)
  exact ⟨hneat.released hl.released,
    (((h.orphan.but t).relink _).putEntry d k _).released hl.released⟩

/-- An entry with another name than `.` and `..` is not one of the first two. -/
theorem DirOk.two_le_of_not_isDots {n : ℕ} (h : DirOk a d n) (hk : ¬IsDots (entName (a.data d) k)) :
    2 ≤ k := by
  by_contra hlt
  rcases Nat.lt_succ_iff_lt_or_eq.mp (not_le.mp hlt) with hlt | rfl
  · obtain rfl := Nat.lt_one_iff.mp hlt
    exact hk (.inl h.dot)
  · exact hk (.inr h.dotdot)

theorem Neat.unlinked {n : ℕ} (h : Neat a) (hdir : DirOk a d n) (hk : k < n) (h2 : 2 ≤ k)
    (t : UInt32) : Neat (a.unlinked d t k) := by
  have hneat : Neat (a.putEntry d k emptyDirent) :=
    h.putEntry hdir h2 hk.le (lt_of_lt_of_le hk hdir.le) length_emptyDirent (by
      rw [deInum_emptyDirent]
      exact UInt32.lt_trans (by decide) h.root)
  unfold View.unlinked
  split
  · exact hneat.relink d _
  · exact hneat

theorem NoOrphanBut.unlinked (h : NoOrphanBut a d) (t : UInt32) (k : ℕ) :
    NoOrphanBut (a.unlinked d t k) d := by
  unfold View.unlinked
  split
  · exact (h.putEntry d k emptyDirent).relink _
  · exact h.putEntry d k emptyDirent

theorem Unlinked.tidy (h : Tidy a) (hu : Unlinked c a d t k b) : Tidy b := by
  obtain ⟨n, hdir, hk⟩ := hu.dir
  obtain ⟨a', h1, h2⟩ := hu.released
  have hneat := (h.toNeat.unlinked hdir hk (hdir.two_le_of_not_isDots hu.name) t).released h1
  have horphan := ((h.orphan.but d).unlinked t k).released h1
  exact ⟨(hneat.relink t _).released h2, ((horphan.but t).relink _).released h2⟩

/-! ### Writing to a file -/

theorem View.writei_fields (a : View Pid) (t off : UInt32) (src : Str) :
    (a.writei t off src).2.inode = a.inode ∧ (a.writei t off src).2.tables = a.tables ∧
      (a.writei t off src).2.ninodes = a.ninodes := by
  unfold View.writei
  simp only
  split
  · split <;> exact ⟨rfl, rfl, rfl⟩
  · exact ⟨rfl, rfl, rfl⟩

theorem View.writei_of_ne (a : View Pid) (off : UInt32) (src : Str) {u : UInt32} (h : u ≠ t) :
    (a.writei t off src).2.disk u = a.disk u ∧ (a.writei t off src).2.data u = a.data u := by
  unfold View.writei
  simp only
  split
  · split
    · exact ⟨update_of_ne h .., update_of_ne h ..⟩
    · exact ⟨rfl, update_of_ne h ..⟩
  · exact ⟨rfl, rfl⟩

/-- Writing changes the size of an inode at most. -/
theorem View.writei_disk (a : View Pid) (t off : UInt32) (src : Str) :
    ∃ size, (a.writei t off src).2.disk t = (a.disk t).setSize size := by
  unfold View.writei
  simp only
  split
  · split
    · exact ⟨_, update_self ..⟩
    · exact ⟨(a.disk t).size, rfl⟩
  · exact ⟨(a.disk t).size, rfl⟩

theorem View.writei_dirty (h : ∀ t, a.dirty t = false) (t off : UInt32) (src : Str) :
    (a.writei t off src).2.dirty = a.dirty := by
  unfold View.writei
  simp only
  split
  · split
    · refine funext fun u => ?_
      by_cases hut : u = t
      · subst hut
        exact (update_self ..).trans (h u).symm
      · exact update_of_ne hut ..
    · rfl
  · rfl

theorem View.writei_type (a : View Pid) (t off : UInt32) (src : Str) (u : UInt32) :
    ((a.writei t off src).2.disk u).type = (a.disk u).type := by
  by_cases h : u = t
  · subst h
    obtain ⟨size, hsize⟩ := a.writei_disk u off src
    rw [hsize]
    rfl
  · rw [(a.writei_of_ne off src h).1]

theorem View.writei_nlink (a : View Pid) (t off : UInt32) (src : Str) (u : UInt32) :
    ((a.writei t off src).2.disk u).nlink = (a.disk u).nlink := by
  by_cases h : u = t
  · subst h
    obtain ⟨size, hsize⟩ := a.writei_disk u off src
    rw [hsize]
    rfl
  · rw [(a.writei_of_ne off src h).1]

theorem Tidy.writei (h : Tidy a) (hdir : (a.disk t).type ≠ T_DIR) (off : UInt32) (src : Str) :
    Tidy (a.writei t off src).2 := by
  obtain ⟨hinode, htables, hn⟩ := a.writei_fields t off src
  refine ⟨h.toNeat.update hinode (writei_dirty h.dirty t off src) hn
    (congrArg Tables.proc htables)
    (fun i e he => ?_) (fun u hu => ?_) fun u hu => ?_, fun u hu hnlink => ?_⟩
  · rw [writei_type]
    exact h.type i e he
  · rw [writei_type] at hu
    exact h.range u hu
  · rw [writei_type] at hu
    have hut : u ≠ t := fun hc => hdir (hc ▸ hu)
    obtain ⟨m, hm⟩ := h.dirs u hu
    obtain ⟨hdisk, hdata⟩ := a.writei_of_ne off src hut
    exact ⟨m, hm.congr hdata (by rw [hdisk]) (by rw [hdisk]) hn⟩
  · rw [writei_type] at hu
    rw [writei_nlink] at hnlink
    rw [hinode]
    exact h.orphan u hu hnlink

/-! ### References -/

theorem View.refs_refTo (a : View Pid) (i : Slot) (t : UInt32) (l : Option Pid) (v : Bool)
    (j : Slot) : (a.refTo i t l v).refs j = a.refs j + if some i = some j then 1 else 0 := by
  by_cases hij : i = j
  · subst hij
    rw [refs_some (refTo_inode ..), if_pos rfl]
  · rw [if_neg (by simpa using hij), add_zero, View.refs, refTo_inode_of_ne (Ne.symm hij), View.refs]

theorem View.drop_inode_of_ne (h : j ≠ i) : (a.drop i e).inode j = a.inode j :=
  set_inode_of_ne h

theorem View.refs_drop_self (a : View Pid) (i : Slot) (e : Entry Pid) :
    (a.drop i e).refs i = e.ref - 1 := by
  unfold View.drop
  split
  · rename_i h
    rw [refs_none (set_inode ..), h]
    rfl
  · rw [refs_some (set_inode ..)]

theorem View.refs_drop (hi : a.inode i = some e) (j : Slot) :
    (a.drop i e).refs j = a.refs j - if some i = some j then 1 else 0 := by
  by_cases hij : i = j
  · subst hij
    rw [refs_drop_self, refs_some hi, if_pos rfl]
  · rw [if_neg (by simpa using hij), sub_zero, View.refs, drop_inode_of_ne (Ne.symm hij), View.refs]

/-- Reference counts that are right say where the inodes are. -/
theorem entry_of_balanced (h : ∀ i, Counts (fun x => T.holds x = some i) (a.refs i))
    {x : Pid ⊕ FileId} (hx : T.holds x = some i) : ∃ e, a.inode i = some e := by
  have hpos := (h i).pos hx
  cases hi : a.inode i with
  | some e => exact ⟨e, rfl⟩
  | none =>
    rw [refs_none hi] at hpos
    omega

/-- The state with one reference less. -/
theorem Tidy.drop (h : Tidy a) (hi : a.inode i = some e)
    (hcwd : ∀ p j, (T.proc p).cwd = some j → ∃ e', (a.drop i e).inode j = some e') :
    Neat ((a.drop i e).hold T) ∧ NoOrphanBut ((a.drop i e).hold T) e.inum := by
  have hmem : ∀ j e', (a.drop i e).inode j = some e' → ∃ e₀, a.inode j = some e₀ ∧
      e'.inum = e₀.inum ∧ e'.Rests (a.disk e'.inum).type := by
    intro j e' hj
    by_cases hji : j = i
    · subst hji
      unfold View.drop at hj
      rw [set_inode] at hj
      split at hj
      · cases hj
      · rename_i hne
        have := h.ref j e hi
        rw [← Option.some.inj hj]
        exact ⟨e, hi, rfl, by simp only; omega, h.lock j e hi, h.valid j e hi, h.type j e hi⟩
    · rw [drop_inode_of_ne hji] at hj
      exact ⟨e', hj, rfl, h.entries j e' hj⟩
  refine ⟨⟨⟨?_, ?_, h.dirty⟩, fun u hu => ?_, h.root, h.ninodes, h.range, hcwd⟩, ?_⟩
  · intro j e' hj
    obtain ⟨-, -, -, hrests⟩ := hmem j e' hj
    exact hrests
  · intro j j' e₁ e₂ hj hj' hinum
    obtain ⟨e₁', h₁, hi₁, -⟩ := hmem j e₁ hj
    obtain ⟨e₂', h₂, hi₂, -⟩ := hmem j' e₂ hj'
    exact h.uniq j j' e₁' e₂' h₁ h₂ (hi₁.symm.trans (hinum.trans hi₂))
  · obtain ⟨m, hm⟩ := h.dirs u hu
    exact ⟨m, hm.congr rfl rfl rfl rfl⟩
  · intro u hu htype hn
    obtain ⟨j, e', hj, hinum⟩ := h.orphan u htype hn
    have hji : j ≠ i := by
      rintro rfl
      rw [hi] at hj
      exact hu (by rw [← hinum, Option.some.inj hj])
    exact ⟨j, e', (drop_inode_of_ne hji).trans hj, hinum⟩

theorem Tidy.rest (h : Tidy a) (outstanding : ℤ) (cons : List (Option Str))
    (hcwd : ∀ p j, (T.proc p).cwd = some j → ∃ e', a.inode j = some e') :
    Tidy ((a.rest outstanding cons).hold T) := by
  refine ⟨⟨⟨h.entries, h.uniq, h.dirty⟩, fun u hu => ?_, h.root, h.ninodes, h.range, hcwd⟩,
    h.orphan⟩
  obtain ⟨m, hm⟩ := h.dirs u hu
  exact ⟨m, hm.congr rfl rfl rfl rfl⟩

/-- Giving a reference back, when the others have been counted. -/
theorem Wf.released (ht : Tidy a) (hi : a.inode i = some e)
    (hbal : ∀ j, Counts (fun x => T.holds x = some j) ((a.drop i e).refs j))
    (hfiles : FilesOk (a.hold T))
    (h : Released c ((a.drop i e).hold T) e.inum b) : Wf b := by
  obtain ⟨hneat, horphan⟩ := ht.drop hi (T := T)
    fun p j hp => entry_of_balanced hbal (x := .inl p) hp
  have htables : b.tables = T := h.tables
  have hfile : b.file = T.file := congrArg Tables.file htables
  refine ⟨⟨hneat.released h, horphan.released h⟩, fun j => ?_, ?_⟩
  · rw [htables, View.refs, h.inode]
    exact hbal j
  · refine ⟨by rw [htables]; exact hfiles.ok, fun f e' hf hw he' => ?_⟩
    rw [hfile] at hf hw he'
    rw [h.inode] at he'
    rw [h.type he']
    by_cases hfi : (T.file f).ip = i
    · have he : a.inode (T.file f).ip = some e := by rw [hfi]; exact hi
      have hinum : e'.inum = e.inum := by
        change (a.drop i e).inode (T.file f).ip = some e' at he'
        rw [hfi] at he'
        unfold View.drop at he'
        rw [set_inode] at he'
        split at he'
        · cases he'
        · rw [← Option.some.inj he']
      rw [hinum]
      exact hfiles.writable f e hf hw he
    · change (a.drop i e).inode (T.file f).ip = some e' at he'
      rw [drop_inode_of_ne hfi] at he'
      exact hfiles.writable f e' hf hw he'

theorem View.newNode_tables (a : View Pid) (d t : UInt32) (type major minor : Int16) :
    (a.newNode d t type major minor).tables = a.tables := by
  unfold View.newNode
  split <;> rfl

theorem Created.wf {type : Int16} (h : Wf a) (hty : type ≠ 0)
    (hc : Created c a d t k name type major minor b) : Wf b := by
  refine h.of_tree (hc.tidy h.toTidy hty) (hc.released.inode.trans (newNode_inode ..))
    (hc.released.tables.trans (newNode_tables ..)) fun i e he => ?_
  have hut : e.inum ≠ t := fun hc' => h.type i e he (hc' ▸ hc.free)
  have he' : ((a.newNode d t type major minor).putEntry d k (dirent t name)).inode i = some e :=
    (congrFun (newNode_inode a d t type major minor) i).trans he
  rw [hc.released.type he', putEntry_type, newNode_type_of_ne hc.ne hut]

theorem Linked.wf (h : Wf a) (hl : Linked c a d t k name b) : Wf b := by
  refine h.of_tree (hl.tidy h.toTidy) hl.released.inode hl.released.tables fun i e he => ?_
  rw [hl.released.type (by exact he), putEntry_type, relink_type]

theorem View.unlinked_tables (a : View Pid) (d t : UInt32) (k : ℕ) :
    (a.unlinked d t k).tables = a.tables := by
  unfold View.unlinked
  split <;> rfl

theorem Unlinked.wf (h : Wf a) (hu : Unlinked c a d t k b) : Wf b := by
  obtain ⟨a', h1, h2⟩ := hu.released
  have hinode : a'.inode = a.inode := h1.inode.trans (unlinked_inode ..)
  refine h.of_tree (hu.tidy h.toTidy) (h2.inode.trans hinode)
    (h2.tables.trans (h1.tables.trans (unlinked_tables ..))) fun i e he => ?_
  have he' : (a.unlinked d t k).inode i = some e :=
    (congrFun (unlinked_inode a d t k) i).trans he
  rw [h2.type ((congrFun hinode i).trans he), relink_type, h1.type he', unlinked_type]

/-! ### Counting the references -/

/-- Somebody refers to another entry. -/
theorem balanced_change [DecidableEq Pid] {x : Pid ⊕ FileId} {o o' : Option Slot}
    (h : ∀ i, Counts (fun y => a.tables.holds y = some i) (a.refs i)) (hx : a.tables.holds x = o)
    (hself : T.holds x = o') (hothers : ∀ y, y ≠ x → T.holds y = a.tables.holds y) (k : Slot) :
    Counts (fun y => T.holds y = some k)
      (a.refs k + (if o' = some k then 1 else 0) - if o = some k then 1 else 0) := by
  have hc := (h k).change (Q := fun y => T.holds y = some k) (p := x) fun y hy => by
    rw [hothers y hy]
  simpa only [hx, hself] using hc

/-- **Every change preserves what holds between two system calls.** -/
theorem Change.wf [DecidableEq Pid] (h : Wf a) (hc : Change c a b) : Wf b := by
  cases hc with
  | rest outstanding cons hholds hfiles =>
    refine ⟨h.toTidy.rest outstanding cons fun p j hp => ?_, fun i => ?_,
      ⟨hfiles.ok, hfiles.writable⟩⟩
    · exact entry_of_balanced h.balanced (x := .inl p) ((congrFun hholds _).symm.trans hp)
    · refine (h.balanced i).keep fun x => ?_
      rw [← hholds]
      exact Iff.rfl
  | write off src htype hdir hdev =>
    obtain ⟨hinode, htables, -⟩ := a.writei_fields _ off src
    exact h.of_tree (h.toTidy.writei hdir off src) hinode htables fun i e _ => writei_type ..
  | create hty hc => exact hc.wf h hty
  | link hl => exact hl.wf h
  | unlink hu => exact hu.wf h
  | @take x i t T hi hx hself hothers hfiles =>
    have hbal : ∀ k, Counts (fun y => T.holds y = some k) ((a.refTo i t none true).refs k) := by
      intro k
      have hc := balanced_change h.balanced hx hself hothers k
      rw [refs_refTo]
      simpa using hc
    exact ⟨(h.toTidy.refTo hi).rest a.outstanding a.cons fun p j hp =>
      entry_of_balanced hbal (x := .inl p) hp, hbal, hfiles⟩
  | give hi hx hself hothers hfiles hr =>
    refine Wf.released h.toTidy hi (fun k => ?_) hfiles hr
    have hc := balanced_change h.balanced hx hself hothers k
    rw [refs_drop hi]
    simpa using hc
  | move hi hj hx hself hothers hfiles hr =>
    refine Wf.released (h.toTidy.refTo hi) hj (fun k => ?_) hfiles hr
    rw [refs_drop hj, refs_refTo]
    exact balanced_change h.balanced hx hself hothers k

end Preserved

end Xv6.Fs
