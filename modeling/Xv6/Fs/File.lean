import Mathlib.Logic.Relation
import Xv6.Fs.Table

/-!
# Rules for open files

The rules for the functions of `file.c`, and for `fdalloc`. The state is written as
one of the inodes with tables, `a.hold T`, so that what is said about the inodes of
`a` need not be said again after each change of the tables.

`Xv6.Fs.Closed` says what `fileclose` does: it takes away a reference, or gives up
the open file, and in the latter case closes an end of a pipe or gives back the
inode.
-/

namespace Xv6.Fs

open Lib View

variable {Pid : Type} [DecidableEq Pid]

/-- **What `fileclose` does.** -/
inductive Closed (c : Cond) (a : View Pid) (T : Tables Pid) (f : FileId) : View Pid → Prop
  | more (h : 0 < (T.file f).ref - 1) :
      Closed c a T f (a.hold (T.setFile f ((T.file f).setRef ((T.file f).ref - 1))))
  | unset (h : (T.file f).ref = 1) (hty : (T.file f).type = .none) :
      Closed c a T f (a.hold (T.setFile f (T.file f).closed))
  | pipe (h : (T.file f).ref = 1) (hty : (T.file f).type = .pipe) :
      Closed c a T f (a.hold ((T.setFile f (T.file f).closed).setEnds (T.file f).pipe
        ((T.pipe (T.file f).pipe).close (T.file f).writable)))
  | inode {e : Entry Pid} {b : View Pid} (h : (T.file f).ref = 1) (hty : (T.file f).type = .inode)
      (he : a.inode (T.file f).ip = some e)
      (hb : Released c (a.beginOp.drop (T.file f).ip e) e.inum b) :
      Closed c a T f (b.endOp.hold (T.setFile f (T.file f).closed))

section Rules

variable {c : Cond} {bad : String → Prop} {a b : View Pid} {T : Tables Pid} {i : Slot}
  {e : Entry Pid} {p : Pid} {t : UInt32} {f : FileId} {fd : Fd} {Q : Unit → View Pid → Prop}

/-! ### Tables -/

theorem wp_filealloc {Q : Option FileId → View Pid → Prop}
    (hnone : (∀ f, (T.file f).ref ≠ 0) → Q none (a.hold T))
    (hsome : ∀ f, (T.file f).ref = 0 → Q (some f) (a.hold (T.setFile f ((T.file f).setRef 1)))) :
    (logic c.K bad).wp Op.filealloc.perform Q (a.hold T) := by
  refine fun _ => ⟨trivial, ?_⟩
  change (logic c.K bad).Outcome _ ((Tables.handle .filealloc T).map _)
  cases hf : (List.finRange NFILE).find? fun f => (T.file f).ref = 0 with
  | none =>
    simp only [Tables.handle, hf]
    refine hnone fun f hfree => ?_
    exact List.find?_eq_none.mp hf f (List.mem_finRange f) (decide_eq_true hfree)
  | some f =>
    simp only [Tables.handle, hf]
    have hfree := List.find?_some hf
    exact hsome f (of_decide_eq_true hfree)

theorem wp_ofile {Q : Option FileId → View Pid → Prop} (hQ : Q ((T.proc p).ofile fd) (a.hold T)) :
    (logic c.K bad).wp (Op.ofile p fd).perform Q (a.hold T) :=
  wp_op (o := .ofile p fd) trivial rfl fun _ => hQ

theorem wp_argfd {α : Type} {Q : Option α → View Pid → Prop} {k : FileId → FsM Pid (Option α)}
    (hnone : Q none a) (hsome : ∀ f, a.tables.Refers f (p, fd) → (logic c.K bad).wp (k f) Q a) :
    (logic c.K bad).wp (argfd p fd k) Q a := by
  unfold argfd
  refine .bind (wp_ofile (a := a) (T := a.tables) ?_)
  split
  · exact hnone
  · exact hsome _ ‹_›

theorem wp_setOfile {o : Option FileId} (hQ : Q () (a.hold (T.setFd p fd o))) :
    (logic c.K bad).wp (Op.setOfile p fd o).perform Q (a.hold T) :=
  wp_op (o := .setOfile p fd o) trivial rfl fun _ => hQ

theorem wp_file {Q : File → View Pid → Prop} (hQ : Q (T.file f) (a.hold T)) :
    (logic c.K bad).wp (Op.file f).perform Q (a.hold T) :=
  wp_op (o := .file f) trivial rfl fun _ => hQ

theorem wp_filedup (href : 1 ≤ (T.file f).ref)
    (hQ : Q () (a.hold (T.setFile f ((T.file f).setRef ((T.file f).ref + 1))))) :
    (logic c.K bad).wp (Op.filedup f).perform Q (a.hold T) :=
  wp_op (o := .filedup f) trivial
    (congrArg (Effect.map _) (if_neg (not_lt.mpr href))) fun _ => hQ

/-- The loop of `fdalloc`. -/
theorem wp_fdallocLoop {Q : Option Fd → View Pid → Prop}
    (hsome : ∀ fd, (T.proc p).ofile fd = none → Q (some fd) (a.hold (T.setFd p fd (some f)))) :
    ∀ fds, ((∀ fd ∈ fds, (T.proc p).ofile fd ≠ none) → Q none (a.hold T)) →
      (logic c.K bad).wp (fdallocLoop p f fds) Q (a.hold T) := by
  intro fds
  induction fds with
  | nil => exact fun hnone => hnone (List.forall_mem_nil _)
  | cons fd fds ih =>
    intro hnone
    rw [fdallocLoop]
    refine .bind (wp_ofile ?_)
    split
    · rename_i hfree
      exact .bind (wp_setOfile (hsome fd hfree))
    · rename_i hused
      exact ih fun hrest => hnone (List.forall_mem_cons.mpr ⟨hused, hrest⟩)

/-- **`fdalloc`** takes a descriptor that is free. -/
theorem wp_fdalloc {Q : Option Fd → View Pid → Prop}
    (hnone : (∀ fd, (T.proc p).ofile fd ≠ none) → Q none (a.hold T))
    (hsome : ∀ fd, (T.proc p).ofile fd = none → Q (some fd) (a.hold (T.setFd p fd (some f)))) :
    (logic c.K bad).wp (fdalloc p f) Q (a.hold T) :=
  wp_fdallocLoop hsome _ fun hused => hnone fun fd => hused fd (List.mem_finRange fd)

/-! ### Closing a file -/

omit [DecidableEq Pid] in
/-- A state in terms of the one with a reference less. -/
theorem Settled.refTo_drop (h : Settled a) (hi : a.inode i = some e) :
    (a.drop i e).refTo i e.inum none true = a := by
  unfold View.refTo
  rw [refs_drop_self, sub_add_cancel, View.drop, set_set]
  refine set_self (hi.trans ?_)
  rw [h.entry hi]

omit [DecidableEq Pid] in
theorem Settled.clean_drop (h : Settled a) (hi : a.inode i = some e) :
    (a.drop i e).Clean i e.inum := by
  have hpos := h.ref i e hi
  unfold View.Clean View.drop
  rw [set_inode]
  split
  · rename_i href
    refine .inl ⟨rfl, fun j e' hj hinum => ?_⟩
    by_cases hji : j = i
    · subst hji
      rw [set_inode] at hj
      cases hj
    · rw [set_inode_of_ne hji] at hj
      exact hji (h.uniq j i e' e hj hi hinum)
  · rename_i href
    refine .inr ⟨e.ref - 1, ?_, by omega⟩
    rw [h.entry hi]

/-- Giving back a reference that somebody had. -/
theorem wp_iput_drop (h : Settled a) (hi : a.inode i = some e)
    (hQ : ∀ b, Released c (a.drop i e) e.inum b → Q () b) : (logic c.K bad).wp (iput p i) Q a := by
  have hwp : (logic c.K bad).wp (iput p i) Q ((a.drop i e).refTo i e.inum none true) :=
    wp_iput_release (h.clean_drop hi) (h.dirty e.inum) (h.type i e hi) hQ
  rwa [h.refTo_drop hi] at hwp

section

omit [DecidableEq Pid]

theorem Settled.rest (h : Settled a) (n : ℤ) (l : List (Option Str)) : Settled (a.rest n l) :=
  ⟨h.entries, h.uniq, h.dirty⟩

theorem Settled.beginOp (h : Settled a) : Settled a.beginOp := h.rest ..

theorem Settled.hold (h : Settled a) (T : Tables Pid) : Settled (a.hold T) :=
  ⟨h.entries, h.uniq, h.dirty⟩

theorem Released.hold (h : Released c a t b) (T : Tables Pid) :
    Released c (a.hold T) t (b.hold T) := by
  rcases h with ⟨ho, hc, rfl⟩ | ⟨ho, rfl⟩
  · exact .inl ⟨ho, hc, rfl⟩
  · exact .inr ⟨ho, rfl⟩

end

theorem FileType.eq_none {type : FileType} (hinode : type ≠ .inode) (hpipe : type ≠ .pipe) :
    type = .none := by
  cases type with
  | none => rfl
  | pipe => exact absurd rfl hpipe
  | inode => exact absurd rfl hinode

theorem wp_filecloseOp {Q : Option File → View Pid → Prop} (href : 1 ≤ (T.file f).ref)
    (hmore : 0 < (T.file f).ref - 1 →
      Q none (a.hold (T.setFile f ((T.file f).setRef ((T.file f).ref - 1)))))
    (hlast : (T.file f).ref = 1 → Q (some (T.file f)) (a.hold (T.setFile f (T.file f).closed))) :
    (logic c.K bad).wp (Op.fileclose f).perform Q (a.hold T) := by
  refine fun _ => ⟨trivial, ?_⟩
  change (logic c.K bad).Outcome _ ((T.fileclose f).map _)
  unfold Tables.fileclose
  simp only
  rw [if_neg (not_lt.mpr href)]
  split
  · exact hmore ‹_›
  · exact hlast (by omega)

/-- **`fileclose`**. -/
theorem wp_fileclose (href : 1 ≤ (T.file f).ref)
    (hi : (T.file f).type = .inode → Settled a ∧ ∃ e, a.inode (T.file f).ip = some e)
    (hQ : ∀ b, Closed c a T f b → Q () b) : (logic c.K bad).wp (fileclose p f) Q (a.hold T) := by
  unfold fileclose
  refine .bind (wp_filecloseOp href (fun hmore => hQ _ (.more hmore)) fun hone => ?_)
  change (logic c.K bad).wp (fileput p (T.file f)) Q _
  unfold fileput
  split
  · rename_i hty
    exact wp_op (o := .pipeclose _ _) trivial rfl fun _ => hQ _ (.pipe hone hty)
  · split
    · rename_i hty
      obtain ⟨h, e, he⟩ := hi hty
      refine .bind (wp_beginOp ?_)
      refine .bind (wp_iput_drop (h.beginOp.hold (T.setFile f (T.file f).closed)) he
        fun b hb => ?_)
      refine wp_endOp ?_
      have hend := hQ _ (.inode hone hty he (hb.hold a.tables))
      have hb' : (b.hold a.tables).endOp.hold (T.setFile f (T.file f).closed) = b.endOp := by
        have : b.tables = T.setFile f (T.file f).closed := hb.tables
        rw [← this]
        rfl
      rwa [hb'] at hend
    · rename_i hpipe hinode
      exact hQ _ (.unset hone (FileType.eq_none hinode hpipe))

/-- `fileclose` of the last reference to a file that is no inode. -/
theorem wp_fileclose_last {F : File} (href : F.ref = 1) (hty : F.type ≠ .inode)
    (hunset : F.type = .none → Q () (a.hold (T.setFile f F.closed)))
    (hpipe : F.type = .pipe → Q () (a.hold ((T.setFile f F.closed).setEnds F.pipe
      ((T.pipe F.pipe).close F.writable)))) :
    (logic c.K bad).wp (fileclose p f) Q (a.hold (T.setFile f F)) := by
  have hself : (T.setFile f F).file f = F := Tables.setFile_file ..
  refine wp_fileclose (by rw [hself, href]) (fun hc => absurd hc (by rwa [hself])) fun b hb => ?_
  cases hb with
  | more hmore =>
    rw [hself, href] at hmore
    omega
  | unset _ hc =>
    rw [hself] at hc ⊢
    rw [Tables.setFile_setFile]
    exact hunset hc
  | pipe _ hc =>
    rw [hself] at hc ⊢
    rw [Tables.setFile_setFile]
    exact hpipe hc
  | inode _ hc => exact absurd hc (by rwa [hself])

/-- `fileclose` of a file that has only been taken. -/
theorem wp_fileclose_unset {F : File} (href : F.ref = 1) (hty : F.type = .none)
    (hQ : Q () (a.hold (T.setFile f F.closed))) :
    (logic c.K bad).wp (fileclose p f) Q (a.hold (T.setFile f F)) :=
  wp_fileclose_last href (by rw [hty]; decide) (fun _ => hQ)
    fun hc => absurd (hty.symm.trans hc) (by decide)

/-! ### Inodes of open files -/

/-- The state in which process `p` has locked entry `i`. -/
def View.lockAt (a : View Pid) (i : Slot) (e : Entry Pid) (p : Pid) : View Pid :=
  a.set i (some { e with lock := some p })

theorem wp_ilock_held (h : Settled a) (hi : a.inode i = some e) (hQ : Q () (a.lockAt i e p)) :
    (logic c.K bad).wp (ilock p i) Q a := by
  have hv := h.valid i e hi
  refine wp_ilock hi (h.ref i e hi) (.inl trivial) (fun hf => ?_) fun _ _ => ?_
  · rw [hv] at hf
    cases hf
  · rwa [← hv]

theorem wp_iunlock_held (h : Settled a) (hi : a.inode i = some e) (hQ : Q () a) :
    (logic c.K bad).wp (iunlock p i) Q (a.lockAt i e p) := by
  refine wp_iunlock (set_inode ..) (h.ref i e hi) rfl ?_
  rw [View.lockAt, set_set, set_self (hi.trans _)]
  · exact hQ
  · have hl := h.lock i e hi
    cases e
    simp_all

theorem wp_fields_held {Q : Fields → View Pid → Prop} (h : Settled a) (hi : a.inode i = some e)
    (hQ : Q (a.disk e.inum) (a.lockAt i e p)) :
    (logic c.K bad).wp (Op.fields i).perform Q (a.lockAt i e p) :=
  wp_fields (set_inode ..) (h.valid i e hi) hQ

/-- **`readi`** changes nothing but the input of the console. -/
theorem wp_readi_held {Q : Option Str → View Pid → Prop} {off n : UInt32} (h : Settled a)
    (hi : a.inode i = some e) (hQ : ∀ r l, Q r ((a.rest a.outstanding l).lockAt i e p)) :
    (logic c.K bad).wp (readi p i off n) Q (a.lockAt i e p) := by
  unfold readi
  refine .bind (wp_fields_held h hi ?_)
  split
  · split
    · unfold consoleread
      refine .bind (wp_iunlock_held h hi ?_)
      refine .bind fun _ => ⟨trivial, ?_⟩
      change (logic c.K bad).Outcome _ (View.handle (.consoleread n) a)
      cases hcons : a.cons with
      | nil => simp only [View.handle, hcons]; trivial
      | cons l ls =>
        simp only [View.handle, hcons]
        exact .bind (wp_ilock_held (h.rest a.outstanding ls) hi (hQ _ ls))
    · exact hQ none a.cons
  · rename_i hdev
    refine wp_op (o := .readi i off n) ⟨_, set_inode .., h.valid i e hi, h.type i e hi, hdev⟩
      (use_some (set_inode ..) _) fun _ => hQ _ a.cons

omit [DecidableEq Pid] in
theorem View.writei_set (a : View Pid) (i : Slot) (x : Option (Entry Pid)) (t off : UInt32)
    (src : Str) : (a.set i x).writei t off src =
      ((a.writei t off src).1, (a.writei t off src).2.set i x) := by
  have hdisk : (a.set i x).disk = a.disk := rfl
  have hdata : (a.set i x).data = a.data := rfl
  simp only [View.writei, hdisk, hdata]
  by_cases hok : writeiOk (a.disk t).size off (UInt32.ofNat src.length) = true
  · simp only [if_pos hok]
    by_cases hlong : 0 < UInt32.ofNat src.length ∧
        (a.disk t).size < off + UInt32.ofNat src.length
    · simp only [if_pos hlong]
      rfl
    · simp only [if_neg hlong]
      rfl
  · simp only [if_neg hok]

/-- **`writei`** of a file that is not a directory. -/
theorem wp_writei_held {Q : Option UInt32 → View Pid → Prop} {off : UInt32} {src : Str}
    (h : Settled a) (hi : a.inode i = some e) (hdir : (a.disk e.inum).type ≠ T_DIR)
    (hQ : ∀ r b, Relation.ReflTransGen (Change c) a b → b.tables = a.tables →
      b.inode = a.inode → b.outstanding = a.outstanding → Settled b →
      (∀ m, r = some m → m = UInt32.ofNat src.length) → Q r (b.lockAt i e p)) :
    (logic c.K bad).wp (writei p i off src) Q (a.lockAt i e p) := by
  unfold writei
  refine .bind (wp_fields_held h hi ?_)
  split
  · split
    · unfold consolewrite
      refine .bind (wp_iunlock_held h hi ?_)
      refine .bind (wp_ilock_held h hi ?_)
      exact hQ _ a .refl rfl rfl rfl h fun m hm => (Option.some.inj hm).symm
    · exact hQ _ a .refl rfl rfl rfl h fun m hm => by cases hm
  · rename_i hdev
    refine wp_op (o := .writei i off src)
      ⟨_, set_inode .., h.valid i e hi, h.type i e hi, hdev⟩
      (use_some (set_inode ..) _) fun _ => ?_
    change Q ((a.set i _).writei e.inum off src).1 ((a.set i _).writei e.inum off src).2
    rw [writei_set]
    obtain ⟨hinode, htables, -⟩ := a.writei_fields e.inum off src
    refine hQ _ _ (.single (.write off src (h.type i e hi) hdir hdev)) htables hinode ?_ ?_ ?_
    · unfold View.writei
      simp only
      split
      · split <;> rfl
      · rfl
    · refine ⟨fun j e' hj => ?_, ?_, ?_⟩
      · rw [writei_type]
        exact h.entries j e' (hinode ▸ hj)
      · rw [hinode]
        exact h.uniq
      · rw [writei_dirty h.dirty]
        exact h.dirty
    · intro m hm
      unfold View.writei at hm
      simp only at hm
      split at hm
      · exact (Option.some.inj hm).symm
      · cases hm

end Rules

end Xv6.Fs
