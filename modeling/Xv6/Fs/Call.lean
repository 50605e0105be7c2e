import Xv6.Fs.Open

/-!
# What each system call does

The rules for the remaining system calls, and the one for all of them
(`Xv6.Fs.wp_call`): a system call of a process that runs ends in a state that some
changes lead to, it has ended its transaction, and a process that does not run has
no open files (`Xv6.Fs.Called`).
-/

namespace Xv6.Fs

open Lib Function

variable {Pid : Type} [DecidableEq Pid]

/-- A process that does not run has no open files. -/
def Idle (a : View Pid) : Prop :=
  ∀ q, (a.proc q).cwd = none → ∀ fd, (a.proc q).ofile fd = none

/-- **What a system call has done.** -/
structure Called (c : Cond) (a b : View Pid) : Prop where
  steps : Relation.ReflTransGen (Change c) a b
  outstanding : b.outstanding = a.outstanding
  idle : Idle b

section Rules

variable {c : Cond} {bad : String → Prop} {a b : View Pid} {T : Tables Pid} {i : Slot}
  {e : Entry Pid} {p q : Pid} {t : UInt32} {f f0 f1 : FileId} {fd : Fd} {Q : Unit → View Pid → Prop}
  {F0 F1 : File}

omit [DecidableEq Pid] in
/-- Only one process has been changed. -/
theorem Idle.of_others (h : Idle a) (hothers : ∀ q, q ≠ p → b.proc q = a.proc q)
    (hp : (b.proc p).cwd = none → ∀ fd, (b.proc p).ofile fd = none) : Idle b := by
  intro q hq
  by_cases hqp : q = p
  · subst hqp
    exact hp hq
  · rw [hothers q hqp] at hq ⊢
    exact h q hq

omit [DecidableEq Pid] in
theorem Done.called (h : Done c p a b) (ha : Idle a) (hp : (a.proc p).cwd ≠ none) :
    Called c a b :=
  ⟨h.steps, h.outstanding, ha.of_others h.others fun hc => absurd (h.cwd.mp hc) hp⟩

/-! ### Pipes -/

/-- Two files for the ends of a new pipe. -/
def Tables.withPipe (T : Tables Pid) (f0 f1 : FileId) (F0 F1 : File) (q : PipeId) : Tables Pid :=
  ((T.setFile f0 (F0.asPipe q true false)).setFile f1 (F1.asPipe q false true)).setEnds q
    ⟨true, true, 1⟩

/-- A page that no pipe is in. -/
theorem PipeOk.ends_eq {E : PipeEnds} {P : Bool → FileId → Prop} (h : PipeOk E P)
    (hE : E.owned = 0) : E = ⟨false, false, 0⟩ := by
  have howned := h.owned
  obtain ⟨r, w, o⟩ := E
  obtain rfl : o = 0 := hE
  cases r <;> cases w <;> first | rfl | cases howned

omit [DecidableEq Pid] in
/-- Two files that are not in use are changed. -/
theorem Still.stale_two (hT : T.Ok) (hne : f0 ≠ f1) (hf0 : (T.file f0).ref = 0)
    (hf1 : (T.file f1).ref = 0) (F0 F1 : File) :
    Still T ((T.setFile f0 F0.closed).setFile f1 F1.closed) :=
  ((Still.refl hT).stale hf0 rfl rfl).stale (by rwa [Tables.setFile_file_of_ne hne.symm]) rfl rfl

/-- **`pipealloc`** makes a pipe, or leaves things as they are. -/
theorem wp_pipealloc {Q : Option (FileId × FileId) → View Pid → Prop} {page : Option PipeId}
    (hT : T.Ok) (hnone : ∀ T', Still T T' → Q none (a.hold T'))
    (hsome : ∀ f0 f1 F0 F1 q, f0 ≠ f1 → (T.file f0).ref = 0 → (T.file f1).ref = 0 →
      (T.pipe q).owned = 0 → F0.ref = 1 → F1.ref = 1 →
      Q (some (f0, f1)) (a.hold (T.withPipe f0 f1 F0 F1 q))) :
    (logic c.K bad).wp (pipealloc p page) Q (a.hold T) := by
  unfold pipealloc
  refine .bind (wp_filealloc (fun _ => hnone T (.refl hT)) fun f0 hf0 => ?_)
  set F0 := (T.file f0).setRef 1 with hF0
  have hty0 : F0.type = .none := hT.idle f0 hf0
  refine .bind (wp_filealloc (fun _ => ?_) fun f1 hf1 => ?_)
  · exact .bind (wp_fileclose_unset rfl hty0 (hnone _ ((Still.refl hT).stale hf0 rfl rfl)))
  have hne : f0 ≠ f1 := by
    rintro rfl
    rw [Tables.setFile_file] at hf1
    exact absurd hf1 one_ne_zero
  rw [Tables.setFile_file_of_ne hne.symm] at hf1 ⊢
  set F1 := (T.file f1).setRef 1 with hF1
  have hty1 : F1.type = .none := hT.idle f1 hf1
  cases page with
  | none =>
    -- there is no page: both are given up again
    rw [Tables.setFile_comm hne]
    refine .bind (wp_fileclose_unset rfl hty0 ?_)
    rw [Tables.setFile_comm hne.symm]
    exact .bind (wp_fileclose_unset rfl hty1 (hnone _ (.stale_two hT hne hf0 hf1 F0 F1)))
  | some q =>
    refine .bind fun _ => ⟨trivial, ?_⟩
    change (logic c.K bad).Outcome _ (Effect.map _ (if (T.pipe q).owned = 0 then _ else _))
    split
    · rename_i hq
      refine .bind (wp_op (o := .setPipe f0 q true false) trivial rfl fun _ => ?_)
      refine .bind (wp_op (o := .setPipe f1 q false true) trivial rfl fun _ => ?_)
      have hend := hsome f0 f1 F0 F1 q hne hf0 hf1 hq rfl rfl
      set T1 := (T.setFile f0 F0).setFile f1 F1 with hT1
      have h10 : T1.file f0 = F0 :=
        (Tables.setFile_file_of_ne hne).trans (Tables.setFile_file ..)
      have h11 : ((T1.setEnds q ⟨true, true, 1⟩).setFile f0
          ((T1.file f0).asPipe q true false)).file f1 = F1 :=
        (Tables.setFile_file_of_ne hne.symm).trans (Tables.setFile_file ..)
      have heq : T.withPipe f0 f1 F0 F1 q =
          ((T1.setEnds q ⟨true, true, 1⟩).setFile f0 ((T1.file f0).asPipe q true false)).setFile f1
            ((((T1.setEnds q ⟨true, true, 1⟩).setFile f0
              ((T1.file f0).asPipe q true false)).file f1).asPipe q false true) := by
        rw [h11, h10, hT1]
        simp [Tables.withPipe, Tables.setFile, Tables.setEnds, update_comm hne]
      rwa [heq] at hend
    · trivial

/-- `sys_pipe` gives up the pipe again. -/
theorem wp_pipeBad {Q : Option (Fd × Fd) → View Pid → Prop} {q : PipeId} (hT : T.Ok)
    (hne : f0 ≠ f1) (hf0 : (T.file f0).ref = 0) (hf1 : (T.file f1).ref = 0)
    (hq : (T.pipe q).owned = 0) (hF0 : F0.ref = 1) (hF1 : F1.ref = 1)
    (hnone : ∀ T', Still T T' → Q none (a.hold T')) :
    (logic c.K bad).wp (pipeBad p f0 f1) Q (a.hold (T.withPipe f0 f1 F0 F1 q)) := by
  unfold pipeBad
  have hopen : T.withPipe f0 f1 F0 F1 q = ((T.setEnds q ⟨true, true, 1⟩).setFile f1
      (F1.asPipe q false true)).setFile f0 (F0.asPipe q true false) := by
    rw [Tables.setFile_comm hne.symm]
    rfl
  rw [hopen]
  refine .bind (wp_fileclose_last hF0 nofun nofun fun _ => ?_)
  rw [Tables.setFile_comm hne.symm]
  refine .bind (wp_fileclose_last (T := ((T.setEnds q ⟨true, true, 1⟩).setFile f0
    (F0.asPipe q true false).closed).setEnds q _) hF1 nofun nofun fun _ => ?_)
  have hends : T.pipe q = ⟨false, false, 0⟩ := (hT.pipes q).ends_eq hq
  refine Logic.wp_pure.mpr ?_
  convert hnone _ (.stale_two hT hne hf0 hf1 (F0.asPipe q true false) (F1.asPipe q false true)) using 2
  simp [Tables.setEnds, Tables.setFile, PipeEnds.close, File.asPipe, ← hends]

theorem Tables.setFd_setFd_none (h : (T.proc p).ofile fd = none) (o : Option FileId) :
    (T.setFd p fd o).setFd p fd none = T := by
  have hself : update (T.proc p).ofile fd none = (T.proc p).ofile := by
    rw [← h, update_eq_self]
  simp [Tables.setFd, hself]

/-- **`pipe`**. -/
theorem wp_sysPipe {Q : Option (Fd × Fd) → View Pid → Prop} {page : Option PipeId} (h : Wf a)
    (hQ : ∀ r b, Done c p a b → Q r b) : (logic c.K bad).wp (sysPipe p page) Q a := by
  have hnone : ∀ T', Still a.tables T' → Q none (a.hold T') := fun T' hst =>
    hQ _ _ (.of_still h hst a.cons)
  unfold sysPipe
  refine .bind (wp_pipealloc h.files.ok hnone
    fun f0 f1 F0 F1 q hne hf0 hf1 hq hF0 hF1 => ?_)
  have hty0 := h.files.ok.idle f0 hf0
  have hty1 := h.files.ok.idle f1 hf1
  refine .bind (wp_fdalloc (fun _ => wp_pipeBad h.files.ok hne hf0 hf1 hq hF0 hF1 hnone)
    fun fd0 hfd0 => ?_)
  refine .bind (wp_fdalloc (fun _ => .bind (wp_setOfile ?_)) fun fd1 hfd1 => ?_)
  · rw [Tables.setFd_setFd_none hfd0]
    exact wp_pipeBad h.files.ok hne hf0 hf1 hq hF0 hF1 hnone
  · have hfd : fd0 ≠ fd1 := by
      rintro rfl
      rw [Tables.setFd_ofile] at hfd1
      cases hfd1
    rw [Tables.setFd_ofile_of_ne (fun hc => hfd (congrArg Prod.snd hc).symm)] at hfd1
    refine hQ _ _ (.of_alike h ?_ (h.files.ok.newPipe hne hf0 hf1 hfd hfd0 hfd1 hq hF0 hF1) a.cons
      fun r hr => ?_)
    · have hal := ((Alike.refl a.tables).setFile_of_ne (f := f0) (F := F0.asPipe q true false)
        (by simp [File.asPipe]) (by simp [hty0])).setFile_of_ne (f := f1)
        (F := F1.asPipe q false true) (by simp [File.asPipe]) (by simp [hty1])
      exact ((show Alike a.tables (Tables.withPipe a.tables f0 f1 F0 F1 q) from
        ⟨hal.holds, hal.writable⟩).setFd ..).setFd ..
    · rw [Tables.setFd_proc_of_ne hr, Tables.setFd_proc_of_ne hr]
      rfl

/-! ### Reading and writing -/

/-- `advance` moves the offset of a file, or does nothing. -/
theorem wp_advance {off r : UInt32} (hT : T.Ok)
    (hQ : ∀ T' off', Still T T' → T'.file f = (T.file f).setOff off' → Q () (a.hold T')) :
    (logic c.K bad).wp (advance f off r) Q (a.hold T) := by
  unfold advance onlyIf
  split
  · refine wp_op (o := .setOff f (off + r)) trivial rfl fun _ => ?_
    exact hQ (T.setFile f ((T.file f).setOff (off + r))) _ (.setOff hT f _) (Tables.setFile_file ..)
  · exact hQ T (T.file f).off (.refl hT) rfl

/-- **`fileread`**. -/
theorem wp_fileread {Q : Option Str → View Pid → Prop} {n : UInt32} (h : Wf a)
    (hx : a.tables.Refers f (p, fd)) (hQ : ∀ r b, Done c p a b → Q r b) :
    (logic c.K bad).wp (fileread p f n) Q a := by
  have hsame : ∀ r, Q r a := fun r => hQ r a (.refl c p a)
  unfold fileread
  change (logic c.K bad).wp _ Q (a.hold a.tables)
  refine .bind (wp_file ?_)
  split
  · exact hsame none
  split
  · rename_i hty
    obtain ⟨e, he⟩ := h.entry_of_file hty
    refine .bind (wp_ilock_held (a := a) h.toSettled he ?_)
    change (logic c.K bad).wp _ Q ((a.lockAt _ e p).hold a.tables)
    refine .bind (wp_file ?_)
    refine .bind (wp_readi_held h.toSettled he fun r l => ?_)
    change (logic c.K bad).wp _ Q (((a.rest a.outstanding l).lockAt _ e p).hold a.tables)
    refine .bind (wp_advance h.files.ok fun T _ hst _ => ?_)
    exact .bind (wp_iunlock_held ((h.toSettled.rest _ _).hold T) he (hQ _ _ (.of_still h hst l)))
  split
  · exact hsame none
  · rename_i hinode hpipe
    exact absurd (FileType.eq_none hinode hpipe) (h.files.ok.opened f _ hx)

/-- **`filestat`**. -/
theorem wp_filestat {Q : Option Fields → View Pid → Prop} (h : Wf a)
    (hQ : ∀ r b, Done c p a b → Q r b) : (logic c.K bad).wp (filestat p f) Q a := by
  unfold filestat
  change (logic c.K bad).wp _ Q (a.hold a.tables)
  refine .bind (wp_file ?_)
  split
  · rename_i hty
    obtain ⟨e, he⟩ := h.entry_of_file hty
    refine .bind (wp_ilock_held (a := a) h.toSettled he ?_)
    refine .bind (wp_fields_held h.toSettled he ?_)
    exact .bind (wp_iunlock_held h.toSettled he (hQ _ _ (.refl c p a)))
  · exact hQ _ _ (.refl c p a)

theorem take_filewriteMax_toNat (src : Str) :
    (UInt32.ofNat (src.take filewriteMax).length).toNat = (src.take filewriteMax).length := by
  have hle : (src.take filewriteMax).length ≤ filewriteMax := by simp
  have hmax : filewriteMax < UInt32.size := by decide
  exact UInt32.toNat_ofNat_of_lt' (lt_of_le_of_lt hle hmax)

/-- **The loop of `filewrite`**: each round is a transaction. -/
theorem wp_filewriteLoop {Q : Bool → View Pid → Prop} :
    ∀ {n : ℕ} {src : Str} {a : View Pid}, Wf a → (a.file f).type = .inode →
      (a.file f).writable = true → (a.file f).ip = i → (∀ r b, Done c p a b → Q r b) →
      (logic c.K bad).wp (filewriteLoop p f i n src) Q a := by
  intro n
  induction n with
  | zero =>
    intro src a _ _ _ _ hQ
    exact hQ _ _ (.refl c p a)
  | succ n ih =>
    intro src a h hty hw hip hQ
    rw [filewriteLoop]
    split
    · exact hQ _ _ (.refl c p a)
    have h0 := h.beginOp
    obtain ⟨e, he⟩ := h.entry_of_file hty
    have hdir := h.files.writable f e hty hw he
    rw [hip] at he
    refine .bind (wp_beginOp ?_)
    refine .bind (wp_ilock_held h0.toSettled he ?_)
    change (logic c.K bad).wp _ Q ((a.beginOp.lockAt i e p).hold a.tables)
    refine .bind (wp_file ?_)
    refine .bind (wp_writei_held (a := a.beginOp) h0.toSettled he hdir
      fun r b hs htables hinode hout hb hr => ?_)
    have hwf : Wf b := h0.steps hs
    change (logic c.K bad).wp _ Q ((b.lockAt i e p).hold b.tables)
    refine .bind (wp_advance hwf.files.ok fun T _ hst hTf => ?_)
    refine .bind (wp_iunlock_held (hb.hold T) ((congrFun hinode i).trans he) ?_)
    refine .bind (wp_endOp ?_)
    have hdone : Done c p a (b.hold T).endOp := .of_still_op h hs hout htables hst
    cases r with
    | none => exact hQ _ _ hdone
    | some m =>
      refine .bind (wp_panicIf (fun hc => ?_) fun _ => ?_)
      · rw [hr m rfl] at hc
        exact absurd (take_filewriteMax_toNat src) hc
      · rw [htables] at hTf
        exact ih (h.steps hdone.steps) ((congrArg File.type hTf).trans hty)
          ((congrArg File.writable hTf).trans hw) ((congrArg File.ip hTf).trans hip)
          fun r b' hb' => hQ r b' (hdone.trans hb')

/-- **`filewrite`**. -/
theorem wp_filewrite {Q : Option UInt32 → View Pid → Prop} {src : Str} (h : Wf a)
    (hx : a.tables.Refers f (p, fd)) (hQ : ∀ r b, Done c p a b → Q r b) :
    (logic c.K bad).wp (filewrite p f src) Q a := by
  have hsame : ∀ r, Q r a := fun r => hQ r a (.refl c p a)
  unfold filewrite
  change (logic c.K bad).wp _ Q (a.hold a.tables)
  refine .bind (wp_file ?_)
  split
  · exact hsame none
  rename_i hw
  have hw' : (a.file f).writable = true := (Bool.not_eq_false _).mp hw
  split
  · rename_i hty
    exact .bind (wp_filewriteLoop h hty hw' rfl fun r b hb => hQ _ _ hb)
  split
  · exact hsame none
  · rename_i hinode hpipe
    exact absurd (FileType.eq_none hinode hpipe) (h.files.ok.opened f _ hx)

/-! ### `exec` -/

/-- `exec` reads an inode; only the input of the console may change. -/
theorem wp_loaduvm {Q : Bool → View Pid → Prop} (h : Settled a) (hi : a.inode i = some e)
    (hQ : ∀ r l, Q r ((a.rest a.outstanding l).lockAt i e p)) :
    ∀ {n : ℕ} {off sz : UInt32} {l : List (Option Str)},
      (logic c.K bad).wp (loaduvm p i n off sz) Q ((a.rest a.outstanding l).lockAt i e p) := by
  intro n
  induction n with
  | zero => exact hQ true _
  | succ n ih =>
    intro off sz l
    rw [loaduvm]
    refine .bind (wp_readi_held (h.rest _ l) hi fun r l' => ?_)
    cases r with
    | none => exact hQ false l'
    | some s =>
      change (logic c.K bad).wp
        (if s.length ≠ (if sz < PGSIZE then sz else PGSIZE).toNat then _ else _) Q _
      by_cases hshort : s.length ≠ (if sz < PGSIZE then sz else PGSIZE).toNat
      · rw [if_pos hshort]
        exact hQ false l'
      · rw [if_neg hshort]
        exact ih

theorem wp_execLoad {Q : Bool → View Pid → Prop} {vm : Vm} (h : Settled a) (hi : a.inode i = some e)
    (hQ : ∀ r l, Q r ((a.rest a.outstanding l).lockAt i e p)) :
    ∀ {n k : ℕ} {off : UInt32} {l : List (Option Str)},
      (logic c.K bad).wp (execLoad p i vm n k off) Q ((a.rest a.outstanding l).lockAt i e p) := by
  intro n
  induction n with
  | zero => exact hQ true _
  | succ n ih =>
    intro k off l
    rw [execLoad]
    refine .bind (wp_readi_held (h.rest _ l) hi fun r l' => ?_)
    cases r with
    | none => exact hQ false l'
    | some ph =>
      change (logic c.K bad).wp (if ph.length ≠ 32 then _ else _) Q _
      split
      · exact hQ false l'
      split
      · exact ih
      split
      · exact hQ false l'
      split
      · exact hQ false l'
      split
      · exact hQ false l'
      split
      · exact hQ false l'
      refine .bind (wp_loaduvm h hi fun r l'' => ?_)
      split
      · exact ih
      · exact hQ false l''

/-- **`exec`**, as far as files go. -/
theorem wp_execFile {Q : Bool → View Pid → Prop} {path : Str} {vm : Vm} (h : Wf a)
    (hb : Allows bad a) (hQ : ∀ r b, Done c p a b → Q r b) :
    (logic c.K bad).wp (execFile p path vm) Q a := by
  have h0 := h.beginOp
  have hsame : ∀ l, Done c p a (a.beginOp.rest a.beginOp.outstanding l).endOp := by
    intro l
    refine .of_tree h (.single ?_) rfl rfl
    exact .rest _ l (T := a.tables) rfl h0.files
  unfold execFile
  refine .bind (wp_beginOp ?_)
  refine .bind (wp_namei h0.toTidy hb.beginOp
    (.bind (wp_endOp (hQ _ _ (hsame a.cons)))) fun ip t w hip hty => ?_)
  refine .bind (wp_ilock_taken h0.toSettled hip hty fun hip => ?_)
  -- the state in which the inode is read
  set A := a.beginOp.refTo ip t none true with hA
  have hS : Settled A := (h0.toTidy.refTo hip).toSettled
  have he : A.inode ip = some ⟨t, a.beginOp.refs ip + 1, none, true⟩ := View.refTo_inode ..
  have hlock : ∀ l, (a.beginOp.rest a.beginOp.outstanding l).refTo ip t (some p) true =
      (A.rest A.outstanding l).lockAt ip ⟨t, a.beginOp.refs ip + 1, none, true⟩ p := by
    intro l
    rw [View.lockAt]
    exact (View.set_set (a.beginOp.rest a.beginOp.outstanding l) ip _ _).symm
  have hput : ∀ r l, (logic c.K bad).wp (do
      iunlockput p ip
      Op.endOp.perform
      return r) Q ((A.rest A.outstanding l).lockAt ip ⟨t, a.beginOp.refs ip + 1, none, true⟩ p) := by
    intro r l
    rw [← hlock]
    refine .bind (wp_iunlockput_spare ?_ (h0.dirty t) ?_)
    · exact h0.spare h0.orphan hip.can hip.type
    · exact .bind (wp_endOp (hQ _ _ (hsame l)))
  refine .bind ?_
  change (logic c.K bad).wp (execImage p ip vm) _
    ((a.beginOp.rest a.beginOp.outstanding a.cons).refTo ip t (some p) true)
  rw [hlock a.cons]
  unfold execImage
  refine .bind (wp_readi_held (hS.rest _ _) he fun r l => ?_)
  cases r with
  | none => exact hput false l
  | some elf =>
    change (logic c.K bad).wp (if elf.length ≠ 52 then _ else _) _ _
    split
    · exact hput false l
    split
    · exact hput false l
    split
    · exact hput false l
    exact wp_execLoad hS he hput

/-! ### `fork` and `exit` -/

/-- `fork` gives the child a file. -/
theorem wp_forkFile {o : Option FileId} (h : Wf a)
    (ho : ∀ f, o = some f → a.tables.Refers f (p, fd)) (hfd : (a.proc q).ofile fd = none)
    (hQ : ∀ b, Done c q a b → (∀ fd', fd' ≠ fd → (b.proc q).ofile fd' = (a.proc q).ofile fd') →
      Q () b) :
    (logic c.K bad).wp (forkFile q fd o) Q a := by
  cases o with
  | none => exact hQ a (.refl c q a) fun _ _ => rfl
  | some f =>
    have hx := ho f rfl
    unfold forkFile
    refine .bind (wp_filedup (h.files.ok.one_le_ref hx) ?_)
    refine wp_setOfile (hQ _ ?_ fun fd' hne => ?_)
    · refine .of_alike h ((Alike.setRef a.tables f _).setFd q fd (some f))
        (h.files.ok.dup hx hfd) a.cons fun r hr => Tables.setFd_proc_of_ne hr
    · exact Tables.setFd_ofile_of_ne fun hc => hne (congrArg Prod.snd hc)

/-- **The loop of `fork`** over the descriptors. -/
theorem wp_forkFiles :
    ∀ {fds : List Fd} {a : View Pid}, fds.Nodup → Wf a →
      (∀ fd ∈ fds, (a.proc q).ofile fd = none) → (∀ b, Done c q a b → Q () b) →
      (logic c.K bad).wp (forkFiles p q fds) Q a := by
  intro fds
  induction fds with
  | nil => exact fun {a} _ _ _ hQ => hQ a (.refl c q a)
  | cons fd fds ih =>
    intro a hnodup h hfree hQ
    obtain ⟨hmem, hnodup⟩ := List.nodup_cons.mp hnodup
    rw [forkFiles]
    change (logic c.K bad).wp _ Q (a.hold a.tables)
    refine .bind (wp_ofile ?_)
    refine .bind (wp_forkFile (p := p) (a := a) h (fun f hf => hf)
      (hfree fd List.mem_cons_self) fun b hb hsame => ?_)
    refine ih hnodup (h.steps hb.steps) (fun fd' hfd' => ?_) fun b' hb' => hQ b' (hb.trans hb')
    rw [hsame fd' fun hc => hmem (hc ▸ hfd')]
    exact hfree fd' (List.mem_cons_of_mem _ hfd')

/-- **`fork`**, as far as files go. -/
theorem wp_fork {o : Option Pid} (h : Wf a) (hidle : Idle a) (hQ : ∀ b, Called c a b → Q () b) :
    (logic c.K bad).wp (fork p o) Q a := by
  cases o with
  | none => exact hQ a ⟨.refl, rfl, hidle⟩
  | some q =>
    unfold fork
    refine .bind fun _ => ⟨trivial, ?_⟩
    change (logic c.K bad).Outcome _ (Effect.map _ (if (a.proc q).cwd = none then _ else _))
    split
    swap
    · trivial
    rename_i hq
    refine .bind (wp_forkFiles (List.nodup_finRange _) h
      (fun fd _ => hidle q hq fd) fun b hb => ?_)
    have hbq : (b.proc q).cwd = none := hb.cwd.mpr hq
    have hwf : Wf b := h.steps hb.steps
    refine .bind (wp_cwd (.inl trivial) fun j hj => ?_)
    obtain ⟨e, he⟩ := hwf.cwd p j hj
    refine .bind (wp_idup he ?_)
    have heq : b.set j (some { e with ref := e.ref + 1 }) = b.refTo j e.inum none true := by
      rw [View.refTo, View.refs_some he, hwf.entry he]
    rw [heq]
    refine wp_op (o := .setCwd q (some j)) trivial rfl fun _ => hQ _ ⟨?_, hb.outstanding, ?_⟩
    · have hj' : b.Taken j e.inum true :=
        ⟨.inl ⟨e, he, rfl⟩, fun _ => rfl, fun _ => hwf.type j e he⟩
      have hok : (b.tables.setCwd q (some j)).Ok := hwf.files.ok.setCwd q (some j)
      refine hb.steps.tail (.take (x := .inl q) (T := b.tables.setCwd q (some j)) hj' hbq
        (Tables.setCwd_cwd ..) (fun y hy => Tables.holds_setCwd_of_ne hy) ?_)
      exact (FilesOk.refTo hwf hj').hold hok fun f hf => ⟨hf, rfl, rfl⟩
    · exact hidle.of_others (fun r hr => (Tables.setCwd_proc_of_ne hr).trans (hb.others r hr))
        fun hc => absurd ((Tables.setCwd_cwd b.tables q (some j)).symm.trans hc) (by simp)

/-- `exit` closes a file. -/
theorem wp_exitFile {o : Option FileId} (h : Wf a) (ho : (a.proc p).ofile fd = o)
    (hQ : ∀ b, Done c p a b → (b.proc p).ofile fd = none →
      (∀ fd', fd' ≠ fd → (b.proc p).ofile fd' = (a.proc p).ofile fd') → Q () b) :
    (logic c.K bad).wp (exitFile p fd o) Q a := by
  cases o with
  | none => exact hQ a (.refl c p a) ho fun _ _ => rfl
  | some f =>
    have hx : a.tables.Refers f (p, fd) := ho
    unfold exitFile
    refine .bind (wp_fileclose (h.files.ok.one_le_ref hx)
      (fun hty => ⟨h.toSettled, h.entry_of_file hty⟩) fun b hb => ?_)
    refine wp_setOfile (hQ _ (hb.done h hx) (Tables.setFd_ofile ..) fun fd' hne => ?_)
    refine (Tables.setFd_ofile_of_ne fun hc => hne (congrArg Prod.snd hc)).trans ?_
    rw [hb.proc]

/-- **The loop of `exit`** over the descriptors. -/
theorem wp_exitFiles :
    ∀ {fds : List Fd} {a : View Pid}, Wf a →
      (∀ b, Done c p a b → (∀ fd, fd ∈ fds ∨ (a.proc p).ofile fd = none →
        (b.proc p).ofile fd = none) → Q () b) →
      (logic c.K bad).wp (exitFiles p fds) Q a := by
  intro fds
  induction fds with
  | nil => exact fun {a} _ hQ => hQ a (.refl c p a) fun fd hfd => hfd.resolve_left List.not_mem_nil
  | cons fd fds ih =>
    intro a h hQ
    rw [exitFiles]
    change (logic c.K bad).wp _ Q (a.hold a.tables)
    refine .bind (wp_ofile ?_)
    refine .bind (wp_exitFile (a := a) h rfl fun b hb hnone hsame => ?_)
    refine ih (h.steps hb.steps) fun b' hb' hall => hQ b' (hb.trans hb') fun fd' hfd' => hall fd' ?_
    by_cases hfd : fd' = fd
    · subst hfd
      exact .inr hnone
    · rw [hsame fd' hfd]
      exact hfd'.imp_left fun hmem => (List.mem_cons.mp hmem).resolve_left hfd

/-- **`exit`**, as far as files go. -/
theorem wp_exit (h : Wf a) (hidle : Idle a) (hQ : ∀ b, Called c a b → Q () b) :
    (logic c.K bad).wp (exit p) Q a := by
  unfold exit
  refine .bind (wp_exitFiles h fun b hb hall => ?_)
  have hwf : Wf b := h.steps hb.steps
  have h0 := hwf.beginOp
  refine .bind (wp_beginOp ?_)
  refine .bind (wp_cwd (.inl trivial) fun j hj => ?_)
  obtain ⟨e, he⟩ := h0.cwd p j hj
  refine .bind (wp_iput_drop h0.toSettled he fun b' hr => ?_)
  refine .bind (wp_endOp ?_)
  refine wp_op (o := .setCwd p none) trivial rfl fun _ => hQ _ ?_
  have hbt : b'.tables = b.tables := hr.tables
  set T := b.tables.setCwd p none with hT
  have hok : T.Ok := hwf.files.ok.setCwd p none
  have hch : Change c b.beginOp (b'.hold T) :=
    .give (x := .inl p) he hj (Tables.setCwd_cwd ..) (fun y hy => Tables.holds_setCwd_of_ne hy)
      (h0.files.hold hok fun f hf => ⟨hf, rfl, rfl⟩) (hr.hold T)
  have hcalled : Called c a (b'.hold T).endOp := by
    refine ⟨((hb.steps.tail hwf.change_beginOp).tail hch).tail (hch.wf h0).change_endOp, ?_, ?_⟩
    · change b'.outstanding - 1 = a.outstanding
      rw [hr.outstanding, ← hb.outstanding]
      exact add_sub_cancel_right ..
    · refine hidle.of_others (fun r hr => (Tables.setCwd_proc_of_ne hr).trans (hb.others r hr))
        fun _ fd => ?_
      change (T.proc p).ofile fd = none
      rw [hT, Tables.setCwd_ofile]
      exact hall fd (.inl (List.mem_finRange fd))
  have heq : T = b'.tables.setCwd p none := by rw [hT, hbt]
  rwa [heq] at hcalled

/-! ### All calls -/

/-- **Every system call** of a process that runs. -/
theorem wp_call {o : Call Pid} (h : Wf a) (hidle : Idle a) (hb : Allows bad a)
    (hp : (a.proc p).cwd ≠ none) : (logic c.K bad).wp (o.prog p) (fun _ b => Called c a b) a := by
  have hdone : ∀ b, Done c p a b → Called c a b := fun b hd => hd.called hidle hp
  have hsame := hdone a (.refl c p a)
  cases o with
  | «open» path omode => exact .bind (wp_sysOpen h hb fun _ b hd _ => hdone b hd)
  | mkdir path => exact .bind (wp_sysCreate h hb (by decide) hsame hdone)
  | mknod path major minor => exact .bind (wp_sysCreate h hb (by decide) hsame hdone)
  | link old new => exact .bind (wp_sysLink_done h hb fun _ b hd => hdone b hd)
  | unlink path => exact .bind (wp_sysUnlink_done h hb fun _ b hd => hdone b hd)
  | chdir path => exact .bind (wp_sysChdir h hb hsame hdone)
  | dup fd => exact .bind (wp_sysDup h fun _ b hd => hdone b hd)
  | fstat fd => exact .bind (wp_argfd hsame fun f _ => wp_filestat h fun _ b hd => hdone b hd)
  | read fd n => exact .bind (wp_argfd hsame fun f hf => wp_fileread h hf fun _ b hd => hdone b hd)
  | write fd src =>
    exact .bind (wp_argfd hsame fun f hf => wp_filewrite h hf fun _ b hd => hdone b hd)
  | close fd => exact .bind (wp_sysClose h fun _ b hd => hdone b hd)
  | exec path vm => exact .bind (wp_execFile h hb fun _ b hd => hdone b hd)
  | pipe page => exact .bind (wp_sysPipe h fun _ b hd => hdone b hd)
  | fork q => exact wp_fork h hidle fun b hd => hd
  | wait => exact hsame
  | exit => exact wp_exit h hidle fun b hd => hd

end Rules

end Xv6.Fs
