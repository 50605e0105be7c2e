import Xv6.Fs.File

/-!
# Calls that open and close files

The rules for the system calls that open and close files and for those that create,
link and unlink them. Each rule says that the call ends in a state that some changes
lead to (`Xv6.Fs.Done`): what the call is for is in the changes, and what is left to
be said is that the transaction has ended and that other processes have what they
had.
-/

namespace Xv6.Fs

open Lib View

variable {Pid : Type}

/-- **What a system call of process `p` has done.** -/
structure Done (c : Cond) (p : Pid) (a b : View Pid) : Prop where
  steps : Relation.ReflTransGen (Change c) a b
  outstanding : b.outstanding = a.outstanding
  others : ∀ q, q ≠ p → b.proc q = a.proc q
  cwd : (b.proc p).cwd = none ↔ (a.proc p).cwd = none

/-- Two tables in which the same inodes are referred to. -/
structure Alike (T T' : Tables Pid) : Prop where
  holds : T'.holds = T.holds
  writable : ∀ f, (T.file f).type = .inode → (T'.file f).writable = (T.file f).writable

theorem File.holds_eq_some {F : File} {i : Slot} :
    F.holds = some i ↔ F.type = .inode ∧ F.ip = i := by
  unfold File.holds
  split <;> simp [*]

theorem File.holds_eq_none {F : File} : F.holds = none ↔ F.type ≠ .inode := by
  unfold File.holds
  split <;> simp [*]

theorem Tables.holds_setFile_of_ne {T : Tables Pid} {f : FileId} {F : File} {x : Pid ⊕ FileId}
    (h : x ≠ .inr f) : (T.setFile f F).holds x = T.holds x := by
  cases x with
  | inl q => rfl
  | inr g => exact congrArg File.holds (setFile_file_of_ne fun hg => h (congrArg Sum.inr hg))

theorem Tables.holds_setFd [DecidableEq Pid] (T : Tables Pid) (p : Pid) (fd : Fd)
    (o : Option FileId) : (T.setFd p fd o).holds = T.holds := by
  funext x
  cases x with
  | inl q => exact setFd_cwd ..
  | inr f => rfl

namespace Alike

variable {T T' : Tables Pid} {f : FileId} {F : File}

theorem refl (T : Tables Pid) : Alike T T := ⟨rfl, fun _ _ => rfl⟩

theorem cwd (h : Alike T T') (q : Pid) : (T'.proc q).cwd = (T.proc q).cwd :=
  congrFun h.holds (.inl q)

/-- One file is changed. -/
theorem setFile (h : Alike T T') (hF : F.holds = (T.file f).holds)
    (hw : (T.file f).type = .inode → F.writable = (T.file f).writable) :
    Alike T (T'.setFile f F) := by
  refine ⟨funext fun x => ?_, fun g hg => ?_⟩
  · by_cases hx : x = .inr f
    · subst hx
      exact (congrArg File.holds (Tables.setFile_file ..)).trans hF
    · rw [Tables.holds_setFile_of_ne hx, h.holds]
  · by_cases hgf : g = f
    · subst hgf
      rw [Tables.setFile_file]
      exact hw hg
    · rw [Tables.setFile_file_of_ne hgf]
      exact h.writable g hg

/-- One file that is no inode is changed. -/
theorem setFile_of_ne (h : Alike T T') (hty : F.type ≠ .inode) (hf : (T.file f).type ≠ .inode) :
    Alike T (T'.setFile f F) :=
  h.setFile ((File.holds_eq_none.mpr hty).trans (File.holds_eq_none.mpr hf).symm)
    fun hc => absurd hc hf

theorem setRef (T : Tables Pid) (f : FileId) (ref : ℤ) :
    Alike T (T.setFile f ((T.file f).setRef ref)) := (refl T).setFile rfl fun _ => rfl

theorem setFd [DecidableEq Pid] (h : Alike T T') (p : Pid) (fd : Fd) (o : Option FileId) :
    Alike T (T'.setFd p fd o) :=
  ⟨(T'.holds_setFd p fd o).trans h.holds, h.writable⟩

end Alike

/-- Tables in which the processes have what they had. -/
structure Still (T T' : Tables Pid) : Prop extends Alike T T' where
  ok : T'.Ok
  proc : T'.proc = T.proc

namespace Still

variable {T T' : Tables Pid} {f : FileId} {F : File}

theorem refl (hT : T.Ok) : Still T T := ⟨.refl T, hT, rfl⟩

theorem setOff (hT : T.Ok) (f : FileId) (off : UInt32) :
    Still T (T.setFile f ((T.file f).setOff off)) :=
  ⟨(Alike.refl T).setFile rfl fun _ => rfl, hT.setOff f off, rfl⟩

/-- A file that is not in use is changed. -/
theorem stale (h : Still T T') (hf : (T'.file f).ref = 0) (href : F.ref = 0) (hty : F.type = .none) :
    Still T (T'.setFile f F) := by
  have hno : (T'.file f).type ≠ .inode := by
    rw [h.ok.idle f hf]
    decide
  have hno' : (T.file f).holds = none := by
    rw [← File.holds_eq_none.mpr hno]
    exact (congrFun h.holds (.inr f)).symm
  exact ⟨h.setFile_of_ne (by rw [hty]; decide) (File.holds_eq_none.mp hno'),
    h.ok.stale hf href hty, h.proc⟩

end Still

section Done

variable {c : Cond} {a b b' : View Pid} {T : Tables Pid} {i : Slot} {t : UInt32} {p : Pid}

theorem FilesOk.hold (h : FilesOk a) (hT : T.Ok)
    (hfile : ∀ f, (T.file f).type = .inode → (a.file f).type = .inode ∧
      (T.file f).ip = (a.file f).ip ∧ (T.file f).writable = (a.file f).writable) :
    FilesOk (a.hold T) := by
  refine ⟨hT, fun f e hf hw he => ?_⟩
  obtain ⟨hty, hip, hwr⟩ := hfile f hf
  change a.inode (T.file f).ip = some e at he
  rw [hip] at he
  exact h.writable f e hty (hwr ▸ hw) he

theorem FilesOk.alike (h : FilesOk a) (hT : T.Ok) (hal : Alike a.tables T) : FilesOk (a.hold T) := by
  refine h.hold hT fun f hf => ?_
  obtain ⟨hty, hip⟩ := File.holds_eq_some.mp
    ((congrFun hal.holds (.inr f)).symm.trans (File.holds_eq_some.mpr ⟨hf, rfl⟩))
  exact ⟨hty, hip.symm, hal.writable f hty⟩

/-- An inode that somebody has begun to refer to. -/
theorem FilesOk.refTo (h : Wf a) (hi : a.Taken i t true) : FilesOk (a.refTo i t none true) := by
  refine ⟨h.files.ok, fun f e hf hw he => ?_⟩
  by_cases hfi : (a.file f).ip = i
  · obtain ⟨e₀, he₀⟩ := entry_of_balanced h.balanced (x := .inr f)
      (File.holds_eq_some.mpr ⟨hf, hfi⟩)
    have hinum : e₀.inum = t := by
      rcases hi.can with ⟨e₁, he₁, rfl⟩ | ⟨hnone, -⟩
      · rw [Option.some.inj (he₀.symm.trans he₁)]
      · rw [he₀] at hnone
        cases hnone
    have he' : (a.refTo i t none true).inode (a.file f).ip = some e := he
    rw [hfi, refTo_inode] at he'
    rw [← Option.some.inj he', ← hinum]
    exact h.files.writable f e₀ hf hw (by rw [hfi]; exact he₀)
  · have he' : (a.refTo i t none true).inode (a.file f).ip = some e := he
    rw [refTo_inode_of_ne hfi] at he'
    exact h.files.writable f e hf hw he'

variable [DecidableEq Pid]

theorem Wf.steps (h : Wf a) (hs : Relation.ReflTransGen (Change c) a b) : Wf b := by
  induction hs with
  | refl => exact h
  | tail _ hstep ih => exact hstep.wf ih

omit [DecidableEq Pid] in
theorem Wf.change_beginOp (h : Wf a) : Change c a a.beginOp :=
  Change.rest (a.outstanding + 1) a.cons (T := a.tables) rfl h.files

theorem Wf.beginOp (h : Wf a) : Wf a.beginOp :=
  (Wf.change_beginOp (c := ⟨fun _ _ _ => True, fun _ _ => True, fun _ _ => True⟩) h).wf h

omit [DecidableEq Pid] in
theorem Wf.change_endOp (h : Wf a) : Change c a a.endOp :=
  Change.rest (a.outstanding - 1) a.cons (T := a.tables) rfl h.files

namespace Done

section

omit [DecidableEq Pid]

theorem refl (c : Cond) (p : Pid) (a : View Pid) : Done c p a a :=
  ⟨.refl, rfl, fun _ _ => rfl, Iff.rfl⟩

theorem trans (h : Done c p a b) (h' : Done c p b b') : Done c p a b' :=
  ⟨h.steps.trans h'.steps, h'.outstanding.trans h.outstanding,
    fun q hq => (h'.others q hq).trans (h.others q hq), h'.cwd.trans h.cwd⟩

/-- A call that leaves the inodes alone. -/
theorem of_alike (h : Wf a) (hal : Alike a.tables T) (hT : T.Ok) (l : List (Option Str))
    (hothers : ∀ q, q ≠ p → T.proc q = a.proc q) : Done c p a ((a.rest a.outstanding l).hold T) :=
  ⟨.single (.rest _ _ hal.holds (h.files.alike hT hal)), rfl, hothers, by
    change (T.proc p).cwd = none ↔ _
    rw [hal.cwd p]⟩

end

omit [DecidableEq Pid] in
/-- A call that leaves the processes alone, too. -/
theorem of_still (h : Wf a) (hst : Still a.tables T) (l : List (Option Str)) :
    Done c p a ((a.rest a.outstanding l).hold T) :=
  of_alike h hst.toAlike hst.ok l fun q _ => congrFun hst.proc q

/-- **A transaction**, after which the tables may be changed. -/
theorem of_op (h : Wf a) (hs : Relation.ReflTransGen (Change c) a.beginOp b)
    (hout : b.outstanding = a.outstanding + 1) (hal : Alike b.tables T) (hT : T.Ok)
    (hothers : ∀ q, q ≠ p → T.proc q = a.proc q)
    (hcwd : (T.proc p).cwd = none ↔ (a.proc p).cwd = none) : Done c p a (b.hold T).endOp := by
  have hb : Wf b := h.beginOp.steps hs
  refine ⟨(Relation.ReflTransGen.head h.change_beginOp hs).tail ?_, ?_, hothers, hcwd⟩
  · exact .rest (b.outstanding - 1) b.cons hal.holds (hb.files.alike hT hal)
  · change b.outstanding - 1 = a.outstanding
    omega

/-- A transaction that leaves the processes alone. -/
theorem of_still_op (h : Wf a) (hs : Relation.ReflTransGen (Change c) a.beginOp b)
    (hout : b.outstanding = a.outstanding + 1) (ht : b.tables = a.tables)
    (hst : Still b.tables T) : Done c p a (b.hold T).endOp := by
  have hproc : T.proc = a.proc := hst.proc.trans (congrArg Tables.proc ht)
  exact of_op h hs hout hst.toAlike hst.ok (fun q _ => congrFun hproc q) (by rw [hproc])

/-- A transaction that leaves the tables alone. -/
theorem of_tree (h : Wf a) (hs : Relation.ReflTransGen (Change c) a.beginOp b)
    (hout : b.outstanding = a.outstanding + 1) (ht : b.tables = a.tables) : Done c p a b.endOp :=
  of_still_op (T := b.tables) h hs hout ht (.refl (h.beginOp.steps hs).files.ok)

end Done

end Done

section Rules

variable [DecidableEq Pid] {c : Cond} {bad : String → Prop} {a b : View Pid} {T : Tables Pid}
  {i : Slot} {e : Entry Pid} {p : Pid} {d t omode : UInt32} {f : FileId} {fd : Fd} {path name : Str}
  {type major minor : Int16} {Q : Option Unit → View Pid → Prop} {k : ℕ}

/-! ### Names -/

section

omit [DecidableEq Pid]

theorem Released.outstanding (h : Released c a t b) : b.outstanding = a.outstanding := by
  rcases h with ⟨-, -, rfl⟩ | ⟨-, rfl⟩ <;> rfl

theorem View.newNode_outstanding (a : View Pid) (d t : UInt32) (type major minor : Int16) :
    (a.newNode d t type major minor).outstanding = a.outstanding := by
  unfold View.newNode
  split <;> rfl

theorem View.unlinked_outstanding (a : View Pid) (d t : UInt32) (k : ℕ) :
    (a.unlinked d t k).outstanding = a.outstanding := by
  unfold View.unlinked
  split <;> rfl

end

theorem wp_sysLink_done {old new : Str} (h : Wf a) (hb : Allows bad a)
    (hQ : ∀ r b, Done c p a b → Q r b) :
    (logic c.K bad).wp (sysLink p old new) Q a := by
  refine wp_sysLink h.toTidy hb (hQ _ _ (.refl c p a)) fun d t k name b hl => hQ _ _ ?_
  exact .of_tree h (.single (.link hl)) hl.released.outstanding hl.released.tables

theorem wp_sysUnlink_done (h : Wf a) (hb : Allows bad a) (hQ : ∀ r b, Done c p a b → Q r b) :
    (logic c.K bad).wp (sysUnlink p path) Q a := by
  refine wp_sysUnlink h.toTidy hb (hQ _ _ (.refl c p a)) fun d t k b hu => hQ _ _ ?_
  obtain ⟨a', h1, h2⟩ := hu.released
  refine .of_tree h (.single (.unlink hu)) ?_ ?_
  · exact h2.outstanding.trans (h1.outstanding.trans (unlinked_outstanding ..))
  · exact h2.tables.trans (h1.tables.trans (unlinked_tables ..))

/-! ### Creating and opening files -/

section

omit [DecidableEq Pid]

variable (h : Created c a d t k name type major minor b)
include h

theorem Created.inode : b.inode = a.inode :=
  h.released.inode.trans (newNode_inode ..)

theorem Created.tables : b.tables = a.tables :=
  h.released.tables.trans (newNode_tables ..)

theorem Created.outstanding :
    b.outstanding = a.outstanding :=
  h.released.outstanding.trans (newNode_outstanding ..)

/-- The new inode has the type that was asked for. -/
theorem Created.type_eq :
    (b.disk t).type = type := by
  rw [h.released.disk_of_ne h.ne.symm, putEntry_type, newNode_disk h.ne]

end

/-- **`create`**, with what has been done so far. -/
theorem wp_create_done {Q : Option Slot → View Pid → Prop} (h : Wf a) (hb : Allows bad a)
    (hty : type ≠ 0) (hnone : ¬a.NewName p path → Q none a)
    (hsome : ∀ b ip t, Relation.ReflTransGen (Change c) a b → b.tables = a.tables →
      b.outstanding = a.outstanding → b.Taken ip t true → (b.disk t).type = type →
      (¬a.NewName p path ∧ b = a ∨ a.NewName p path ∧ (a.disk t).type = 0) →
      Q (some ip) (b.refTo ip t (some p) true)) :
    (logic c.K bad).wp (create p path type major minor) Q a := by
  refine wp_create h.toTidy hb hty hnone (fun ip t hthere hip hfile hdisk => ?_)
    fun d t k name b ip habsent hc hi hunused => ?_
  · exact hsome a ip t .refl rfl rfl hip (hdisk.trans hfile.symm) (.inl ⟨hthere, rfl⟩)
  · refine hsome b ip t (.single (.create hty hc)) hc.tables hc.outstanding
      ⟨.inr ⟨?_, ?_⟩, fun _ => rfl, fun _ => ?_⟩ hc.type_eq (.inr ⟨habsent, hc.free⟩)
    · rwa [hc.inode]
    · rwa [hc.inode]
    · rwa [hc.type_eq]

/-- **`mkdir` and `mknod`**. -/
theorem wp_sysCreate (h : Wf a) (hb : Allows bad a) (hty : type ≠ 0) (hnone : Q none a)
    (hQ : ∀ b, Done c p a b → Q (some ()) b) :
    (logic c.K bad).wp (sysCreate p path type major minor) Q a := by
  have h0 := h.beginOp
  unfold sysCreate
  refine .bind (wp_beginOp ?_)
  refine .bind (wp_create_done h0 hb.beginOp hty (fun _ => ?_)
    fun b ip t hs htables hout hip _ _ => ?_)
  · refine .bind (wp_endOp ?_)
    rwa [endOp_beginOp]
  · have hb : Wf b := h0.steps hs
    refine .bind (wp_iunlockput_spare (hb.spare hb.orphan hip.can hip.type)
      (hb.dirty t) ?_)
    exact .bind (wp_endOp (hQ _ (.of_tree h hs hout htables)))

/-- A call of `open` is to make a new file. -/
def View.Makes (a : View Pid) (p : Pid) (path : Str) (omode : UInt32) : Prop :=
  omode &&& O_CREATE ≠ 0 ∧ a.NewName p path

omit [DecidableEq Pid] in
theorem View.makes_beginOp (a : View Pid) :
    a.beginOp.Makes p path omode ↔ a.Makes p path omode := by
  unfold View.Makes View.NewName View.Leads
  rw [walk_congr (a := a) (b := a.beginOp) rfl rfl]
  exact Iff.rfl

/-- The part of `open` that finds the inode. -/
theorem wp_openInode {Q : Option Slot → View Pid → Prop} (h : Wf a) (hb : Allows bad a)
    (hnone : ¬a.Makes p path omode → Q none a)
    (hsome : ∀ b ip t, Relation.ReflTransGen (Change c) a b → b.tables = a.tables →
      b.outstanding = a.outstanding → b.Taken ip t true → ((b.disk t).type = T_DIR →
      omode = O_RDONLY) → (¬a.Makes p path omode ∧ b = a ∨ a.Makes p path omode ∧
      (a.disk t).type = 0) → Q (some ip) (b.refTo ip t (some p) true)) :
    (logic c.K bad).wp (openInode p path omode) Q a := by
  unfold openInode
  split
  · rename_i hcreate
    refine wp_create_done h hb (by decide) (fun hthere => hnone fun hm => hthere hm.2)
      fun b ip t hs ht hout hip hty hmade => hsome b ip t hs ht hout hip (fun hdir => ?_) ?_
    · rw [hty] at hdir
      exact absurd hdir (by decide)
    · exact hmade.imp (And.imp_left fun hthere hm => hthere hm.2) (And.imp_left (And.intro hcreate))
  · rename_i hcreate
    have hmakes : ¬a.Makes p path omode := fun hm => hcreate hm.1
    refine .bind (wp_namei h.toTidy hb (hnone hmakes) fun ip t w hip hty => ?_)
    refine .bind (wp_ilock_taken h.toSettled hip hty fun hip => ?_)
    refine .bind (wp_fields (refTo_inode ..) rfl ?_)
    split
    · exact .bind (wp_iunlockput_spare (h.spare h.orphan hip.can hip.type)
        (h.dirty t) (hnone hmakes))
    · rename_i hmode
      refine hsome a ip t .refl rfl rfl hip (fun hdir => ?_) (.inl ⟨hmakes, rfl⟩)
      by_contra hne
      exact hmode ⟨hdir, hne⟩

/-- There is a `struct file` and a descriptor for one more file. -/
def Tables.Room (T : Tables Pid) (p : Pid) : Prop :=
  (∃ f, (T.file f).ref = 0) ∧ ∃ fd, (T.proc p).ofile fd = none

/-- The part of `open` that finds a `struct file` and a descriptor. -/
theorem wp_openFile {Q : Option (FileId × Fd) → View Pid → Prop} (hT : T.Ok)
    (hnone : ∀ T', Still T T' → ¬T.Room p → Q none (a.hold T'))
    (hsome : ∀ f fd, (T.file f).ref = 0 → (T.proc p).ofile fd = none →
      Q (some (f, fd)) (a.hold ((T.setFile f ((T.file f).setRef 1)).setFd p fd (some f)))) :
    (logic c.K bad).wp (openFile p) Q (a.hold T) := by
  unfold openFile
  refine .bind (wp_filealloc (fun hfull => ?_) fun f hf => ?_)
  · exact hnone T (.refl hT) fun hroom => hroom.1.elim hfull
  refine .bind (wp_fdalloc (fun hfull => ?_) fun fd hfd => hsome f fd hf hfd)
  -- there is no descriptor: the `struct file` is given up again
  refine .bind (wp_fileclose_unset rfl (hT.idle f hf) ?_)
  exact hnone _ ((Still.refl hT).stale hf rfl rfl) fun hroom => hroom.2.elim hfull

/-- A process opens a file. -/
theorem Change.open_file (h : Wf a) (hi : a.Taken i t true) (hf : (a.file f).ref = 0)
    (hfd : (a.proc p).ofile fd = none) (readable : Bool) {writable : Bool}
    (hdir : (a.disk t).type = T_DIR → writable = false) :
    Change c a ((a.refTo i t none true).hold ((a.tables.setFile f
      (((a.file f).setRef 1).asInode i readable writable)).setFd p fd (some f))) := by
  set F := ((a.file f).setRef 1).asInode i readable writable with hF
  set T := (a.tables.setFile f F).setFd p fd (some f) with hT
  have hself : T.file f = F := Tables.setFile_file ..
  have hne : ∀ g, g ≠ f → T.file g = a.file g := fun g hg => Tables.setFile_file_of_ne hg
  have hidle : (a.file f).type = .none := h.files.ok.idle f hf
  have hok : T.Ok := h.files.ok.opens hf hfd rfl rfl
  have hrefTo := FilesOk.refTo h hi
  refine .take (x := .inr f) hi (File.holds_eq_none.mpr ?_)
    (File.holds_eq_some.mpr (by rw [hself]; exact ⟨rfl, rfl⟩)) (fun y hy => ?_)
    ⟨hok, fun g e hg hw he => ?_⟩
  · exact fun hc => absurd (hidle.symm.trans hc) (by decide)
  · rw [hT, Tables.holds_setFd, Tables.holds_setFile_of_ne hy]
  · by_cases hgf : g = f
    · subst hgf
      change (T.file g).writable = true at hw
      change (a.refTo i t none true).inode (T.file g).ip = some e at he
      rw [hself] at hw he
      have hinum : e.inum = t := by
        have he' := (refTo_inode a i t none true).symm.trans he
        rw [← Option.some.inj he']
      rw [hinum]
      intro hc
      exact absurd (hw.symm.trans (hdir hc)) (by decide)
    · change (T.file g).type = .inode at hg
      change (T.file g).writable = true at hw
      change (a.refTo i t none true).inode (T.file g).ip = some e at he
      rw [hne g hgf] at hg hw he
      exact hrefTo.writable g e hg hw he

/-- **The file system is the same**: the inodes that there are with what is in them,
and what process `p` has. -/
structure View.Same (p : Pid) (a b : View Pid) : Prop where
  disk : ∀ t, (a.disk t).type ≠ 0 ∨ (b.disk t).type ≠ 0 → b.disk t = a.disk t
  data : ∀ t, (a.disk t).type ≠ 0 → ∀ k, k < (a.disk t).size.toNat → b.data t k = a.data t k
  proc : b.proc p = a.proc p

omit [DecidableEq Pid] in
theorem View.Same.refl (p : Pid) (a : View Pid) : View.Same p a a :=
  ⟨fun _ _ => rfl, fun _ _ _ _ => rfl, rfl⟩

omit [DecidableEq Pid] in
/-- A new inode is a change. -/
theorem View.not_same (h : (a.disk t).type = 0) (h' : (b.disk t).type ≠ 0) : ¬View.Same p a b := by
  intro hsame
  rw [hsame.disk t (.inr h')] at h'
  exact h' h

/-- **`open`**: a call that fails leaves everything as it was, unless it has made a new
file for which there is no room in the tables. -/
theorem wp_sysOpen {Q : Option Fd → View Pid → Prop} (h : Wf a) (hb : Allows bad a)
    (hQ : ∀ r b, Done c p a b → (r = none → (View.Same p a b ↔
      (a.Makes p path omode → a.tables.Room p))) → Q r b) :
    (logic c.K bad).wp (sysOpen p path omode) Q a := by
  have h0 := h.beginOp
  unfold sysOpen
  refine .bind (wp_beginOp ?_)
  refine .bind (wp_openInode h0 hb.beginOp (fun hmakes => ?_)
    fun b ip t hs ht hout hip hmode hmade => ?_)
  · refine .bind (wp_endOp (hQ _ _ (.of_tree h .refl rfl rfl) fun _ => ?_))
    refine iff_of_true ⟨fun _ _ => rfl, fun _ _ _ _ => rfl, rfl⟩ fun hm => ?_
    exact absurd (a.makes_beginOp.mpr hm) hmakes
  have hb : Wf b := h0.steps hs
  have hproc : b.proc = a.proc := congrArg Tables.proc ht
  change (logic c.K bad).wp _ Q ((b.refTo ip t (some p) true).hold b.tables)
  refine .bind (wp_openFile hb.files.ok (fun T hst hfull => ?_) fun f fd hf hfd => ?_)
  · refine .bind (wp_iunlockput_spare (a := b.hold T)
      (hb.spare hb.orphan hip.can hip.type) (hb.dirty t) ?_)
    refine .bind (wp_endOp (hQ _ _ (.of_still_op h hs hout ht hst) fun _ => ?_))
    rw [ht] at hfull
    rcases hmade with ⟨hmakes, rfl⟩ | ⟨hmakes, hfree⟩
    · refine iff_of_true ⟨fun _ _ => rfl, fun _ _ _ _ => rfl, congrFun hst.proc p⟩ fun hm => ?_
      exact absurd (a.makes_beginOp.mpr hm) hmakes
    · exact iff_of_false (not_same (t := t) hfree (hip.type rfl))
        fun hroom => hfull (hroom (a.makes_beginOp.mp hmakes))
  · set T₀ := (b.tables.setFile f ((b.tables.file f).setRef 1)).setFd p fd (some f) with hT₀
    have hset : Settled (b.hold T₀) := hb.toSettled.hold T₀
    refine .bind (wp_iunlock_taken hset ?_)
    refine .bind (wp_endOp ?_)
    refine .bind (wp_op (o := .setFile f ip _ _) trivial rfl fun _ =>
      hQ _ _ ?_ nofun)
    have hwritable : (b.disk t).type = T_DIR →
        decide (omode &&& O_WRONLY ≠ 0 ∨ omode &&& O_RDWR ≠ 0) = false := by
      intro hdir
      rw [hmode hdir]
      decide
    have hch := Change.open_file (c := c) (p := p) hb hip hf hfd (decide (omode &&& O_WRONLY = 0))
      hwritable
    set T := (b.tables.setFile f (((b.file f).setRef 1).asInode ip
      (decide (omode &&& O_WRONLY = 0)) (decide (omode &&& O_WRONLY ≠ 0 ∨ omode &&& O_RDWR ≠ 0)))).setFd
        p fd (some f) with hT
    have hend : Done c p a (((b.refTo ip t none true).hold T).hold T).endOp := by
      refine .of_op h (hs.tail hch) hout (.refl _) (hch.wf hb).files.ok (fun q hq => ?_) ?_
      · rw [hT, ← hproc]
        exact Tables.setFd_proc_of_ne hq
      · rw [hT, Tables.setFd_cwd]
        change (b.proc p).cwd = none ↔ _
        rw [hproc]
    have heq : T = T₀.setFile f ((T₀.file f).asInode ip (decide (omode &&& O_WRONLY = 0))
        (decide (omode &&& O_WRONLY ≠ 0 ∨ omode &&& O_RDWR ≠ 0))) := by
      rw [hT, hT₀]
      simp [Tables.setFd, Tables.setFile]
    rwa [heq] at hend

/-! ### The working directory -/

theorem Tables.Ok.setCwd (h : T.Ok) (p : Pid) (i : Option Slot) : (T.setCwd p i).Ok := by
  refine ⟨fun f => (h.files f).keep fun x => ?_, h.pipes⟩
  unfold Tables.Refers
  rw [Tables.setCwd_ofile]

theorem Tables.setCwd_cwd (T : Tables Pid) (p : Pid) (o : Option Slot) :
    ((T.setCwd p o).proc p).cwd = o := by
  simp [Tables.setCwd]

theorem Tables.setCwd_proc_of_ne {q : Pid} {o : Option Slot} (h : q ≠ p) :
    (T.setCwd p o).proc q = T.proc q := Function.update_of_ne h ..

theorem Tables.holds_setCwd_of_ne {o : Option Slot} {x : Pid ⊕ FileId} (h : x ≠ .inl p) :
    (T.setCwd p o).holds x = T.holds x := by
  cases x with
  | inl q => exact congrArg Proc.cwd (setCwd_proc_of_ne fun hq => h (congrArg Sum.inl hq))
  | inr f => rfl

/-- **`chdir`**. -/
theorem wp_sysChdir (h : Wf a) (hb : Allows bad a) (hnone : Q none a)
    (hQ : ∀ b, Done c p a b → Q (some ()) b) :
    (logic c.K bad).wp (sysChdir p path) Q a := by
  have h0 := h.beginOp
  have hsame : Q none a.beginOp.endOp := by rwa [endOp_beginOp]
  unfold sysChdir
  refine .bind (wp_beginOp ?_)
  refine .bind (wp_namei h0.toTidy hb.beginOp
    (.bind (wp_endOp hsame)) fun ip t w hip hty => ?_)
  refine .bind (wp_ilock_taken h0.toSettled hip hty fun hip => ?_)
  refine .bind (wp_fields (refTo_inode ..) rfl ?_)
  split
  · refine .bind (wp_iunlockput_spare (h0.spare h0.orphan hip.can hip.type)
      (h0.dirty t) ?_)
    exact .bind (wp_endOp hsame)
  · refine .bind (wp_iunlock_taken h0.toSettled ?_)
    have hS : Tidy (a.beginOp.refTo ip t none true) := h0.toTidy.refTo hip
    refine .bind (wp_cwd (.inl trivial) fun j hj => ?_)
    obtain ⟨e, he⟩ := hS.cwd p j hj
    refine .bind (wp_iput_drop hS.toSettled he fun b hr => ?_)
    refine .bind (wp_endOp ?_)
    refine .bind (wp_op (o := .setCwd p (some ip)) trivial rfl fun _ => hQ _ ?_)
    set T := a.tables.setCwd p (some ip) with hT
    have hok : T.Ok := h.files.ok.setCwd p (some ip)
    have hbt : b.tables = a.tables := hr.tables
    have hch : Change c a.beginOp (b.hold T) := by
      refine .move (x := .inl p) hip he hj (Tables.setCwd_cwd ..)
        (fun y hy => Tables.holds_setCwd_of_ne hy) ?_ (hr.hold T)
      exact (FilesOk.refTo h0 hip).hold hok fun f hf => ⟨hf, rfl, rfl⟩
    have hend : Done c p a ((b.hold T).hold T).endOp := by
      refine .of_op h (.single hch) hr.outstanding (.refl _) hok
        (fun q hq => Tables.setCwd_proc_of_ne hq) ?_
      rw [hT, Tables.setCwd_cwd]
      refine iff_of_false (by simp) fun hc => ?_
      exact absurd (hj.symm.trans hc) (by simp)
    have heq : T = b.tables.setCwd p (some ip) := by rw [hT, hbt]
    rwa [heq] at hend

/-! ### Descriptors -/

/-- **`dup`**. -/
theorem wp_sysDup {Q : Option Fd → View Pid → Prop} (h : Wf a)
    (hQ : ∀ r b, Done c p a b → Q r b) : (logic c.K bad).wp (sysDup p fd) Q a := by
  refine wp_argfd (hQ _ _ (.refl c p a)) fun f hx => ?_
  change (logic c.K bad).wp _ Q (a.hold a.tables)
  refine .bind (wp_fdalloc (fun _ => hQ _ _ (.refl c p a)) fun fd' hfd => ?_)
  refine .bind (wp_filedup (h.files.ok.one_le_ref hx) (hQ _ _ ?_))
  refine .of_alike h ?_ (h.files.ok.dup hx hfd) a.cons fun q hq => Tables.setFd_proc_of_ne hq
  exact (Alike.setRef a.tables f _).setFd p fd' (some f)

omit [DecidableEq Pid] in
theorem Closed.proc (h : Closed c a T f b) : b.proc = T.proc := by
  cases h <;> rfl

/-- The order of `fileclose` and of giving up the descriptor does not matter. -/
theorem Closed.of_setFd {o : Option FileId} (h : Closed c a (T.setFd p fd o) f b) :
    ∃ b', Closed c a T f b' ∧ b = b'.hold (b'.tables.setFd p fd o) := by
  cases h with
  | more hmore => exact ⟨_, .more hmore, rfl⟩
  | unset href hty => exact ⟨_, .unset href hty, rfl⟩
  | pipe href hty => exact ⟨_, .pipe href hty, rfl⟩
  | inode href hty he hr => exact ⟨_, .inode href hty he hr, rfl⟩

/-- **A descriptor is closed.** -/
theorem Closed.done (h : Wf a) (hx : a.tables.Refers f (p, fd)) (hc : Closed c a a.tables f b) :
    Done c p a (b.hold (b.tables.setFd p fd none)) := by
  have hothers : ∀ T' : Tables Pid, T'.proc = a.proc → ∀ q, q ≠ p →
      (T'.setFd p fd none).proc q = a.proc q := fun T' hT' q hq => by
    rw [← hT']
    exact Tables.setFd_proc_of_ne hq
  cases hc with
  | more hmore =>
    refine .of_alike h ?_ (h.files.ok.close hx hmore) a.cons (hothers _ rfl)
    exact (Alike.setRef a.tables f _).setFd p fd none
  | unset href hty => exact absurd hty (h.files.ok.opened f _ hx)
  | pipe href hty =>
    refine .of_alike h ?_ (h.files.ok.closePipe hx href hty) a.cons (hothers _ rfl)
    have hal := (Alike.refl a.tables).setFile_of_ne (f := f) (F := (a.tables.file f).closed)
      (by simp) (by rw [hty]; decide)
    exact ⟨(Tables.holds_setFd ..).trans hal.holds, hal.writable⟩
  | @inode e b href hty he hr =>
    set T := (a.tables.setFile f (a.tables.file f).closed).setFd p fd none with hT
    have hself : T.file f = (a.tables.file f).closed := Tables.setFile_file ..
    have hne : ∀ g, g ≠ f → T.file g = a.file g := fun g hg => Tables.setFile_file_of_ne hg
    have hok : T.Ok := h.files.ok.closeLast hx href (by rw [hty]; decide)
    have hinode : ∀ g, (T.file g).type = .inode → g ≠ f := by
      rintro g hg rfl
      rw [hself] at hg
      cases hg
    have hch : Change c a.beginOp (b.hold T) := by
      refine .give (x := .inr f) he (File.holds_eq_some.mpr ⟨hty, rfl⟩)
        (congrArg File.holds hself) (fun y hy => ?_) (h.beginOp.files.hold hok fun g hg => ?_)
        (hr.hold T)
      · exact (congrFun (Tables.holds_setFd ..) y).trans (Tables.holds_setFile_of_ne hy)
      · have hgf := hinode g hg
        rw [hne g hgf] at hg ⊢
        exact ⟨hg, rfl, rfl⟩
    refine .of_op (T := T) h (.single hch) hr.outstanding (.refl _) hok (hothers _ rfl) ?_
    rw [hT, Tables.setFd_cwd]
    exact Iff.rfl

omit [DecidableEq Pid] in
/-- The inode of an open file. -/
theorem Wf.entry_of_file (h : Wf a) (hty : (a.file f).type = .inode) :
    ∃ e, a.inode (a.file f).ip = some e :=
  entry_of_balanced h.balanced (x := .inr f) (File.holds_eq_some.mpr ⟨hty, rfl⟩)

/-- **`close`**. -/
theorem wp_sysClose (h : Wf a) (hQ : ∀ r b, Done c p a b → Q r b) :
    (logic c.K bad).wp (sysClose p fd) Q a := by
  refine wp_argfd (hQ _ _ (.refl c p a)) fun f hx => ?_
  refine .bind (wp_setOfile (a := a) (T := a.tables) ?_)
  refine .bind (wp_fileclose (h.files.ok.one_le_ref hx)
    (fun hty => ⟨h.toSettled, h.entry_of_file hty⟩) fun b hb => hQ _ _ ?_)
  obtain ⟨b', hb', rfl⟩ := hb.of_setFd
  exact hb'.done h hx

end Rules

end Xv6.Fs
