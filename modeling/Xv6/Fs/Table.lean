import Xv6.Fs.Change

/-!
# Opening and closing files

What the functions of `file.c` and `pipe.c` do to the tables of open files, pipes and
processes, and that they keep the reference counts right (`Xv6.Fs.Tables.Ok`): a
file is opened (`Xv6.Fs.Tables.Ok.opens`), gets another descriptor, loses a
descriptor, or loses its last one and is closed, and a pipe is made.
-/

namespace Xv6.Fs

open Lib Function

variable {Pid : Type}

theorem FileOk.keep {F : File} {P P' : Pid × Fd → Prop} (h : FileOk F P) (hP : ∀ x, P' x ↔ P x) :
    FileOk F P' :=
  ⟨h.refs.keep hP, h.unset, h.ends⟩

theorem PipeEnds.isOpen_close (E : PipeEnds) (w w' : Bool) :
    (E.close w).isOpen w' = (w' != w && E.isOpen w') := by
  obtain ⟨r, o, n⟩ := E
  cases r <;> cases o <;> cases w <;> cases w' <;> rfl

/-- The page of a pipe is freed when both ends are closed. -/
theorem PipeEnds.close_owned {E : PipeEnds} (h : E.owned = 1) {w : Bool} : (E.close w).owned =
    if (E.close w).readopen = true ∨ (E.close w).writeopen = true then 1 else 0 := by
  obtain ⟨r, o, n⟩ := E
  obtain rfl : n = 1 := h
  cases r <;> cases o <;> cases w <;> rfl

namespace PipeOk

variable {E : PipeEnds} {P P' : Bool → FileId → Prop} {w : Bool} {f : FileId}

theorem keep (h : PipeOk E P) (hP : ∀ w f, P' w f ↔ P w f) : PipeOk E P' := by
  obtain rfl : P' = P := funext₂ fun w f => propext (hP w f)
  exact h

theorem owned_of_end (h : PipeOk E P) (hf : P w f) : E.owned = 1 := by
  have hopen := (h.isOpen w).mpr ⟨f, hf⟩
  rw [h.owned, if_pos]
  cases w with
  | false => exact .inl hopen
  | true => exact .inr hopen

/-- A file that is one end of a pipe is closed. -/
theorem close (h : PipeOk E P) (hf : P w f) (hw : ∀ w', P w' f → w' = w) :
    PipeOk (E.close w) fun w' g => g ≠ f ∧ P w' g := by
  refine ⟨fun w' g g' hg hg' => h.unique w' g g' hg.2 hg'.2, fun w' => ?_,
    PipeEnds.close_owned (h.owned_of_end hf)⟩
  rw [PipeEnds.isOpen_close]
  rcases eq_or_ne w' w with rfl | hne
  · exact iff_of_false (by simp) fun ⟨g, hg, hP⟩ => hg (h.unique _ g f hP hf)
  · rw [bne_iff_ne.mpr hne, Bool.true_and, h.isOpen]
    refine exists_congr fun g => (and_iff_right_of_imp fun hg => ?_).symm
    rintro rfl
    exact hne (hw w' hg)

end PipeOk

variable [DecidableEq Pid]

namespace Tables

variable {T T' : Tables Pid} {p : Pid} {fd : Fd} {f g : FileId} {F : File} {o : Option FileId}

theorem setFd_ofile (T : Tables Pid) (p : Pid) (fd : Fd) (o : Option FileId) :
    ((T.setFd p fd o).proc p).ofile fd = o := by
  simp [setFd]

theorem setFd_ofile_of_ne {q : Pid} {fd' : Fd} (h : (q, fd') ≠ (p, fd)) :
    ((T.setFd p fd o).proc q).ofile fd' = (T.proc q).ofile fd' := by
  by_cases hq : q = p
  · subst hq
    have hfd : fd' ≠ fd := fun hc => h (by rw [hc])
    simp [setFd, hfd]
  · simp [setFd, hq]

theorem setFd_cwd (T : Tables Pid) (p : Pid) (fd : Fd) (o : Option FileId) (q : Pid) :
    ((T.setFd p fd o).proc q).cwd = (T.proc q).cwd := by
  by_cases hq : q = p
  · subst hq
    simp [setFd]
  · simp [setFd, hq]

theorem setFd_proc_of_ne {q : Pid} (h : q ≠ p) :
    (T.setFd p fd o).proc q = T.proc q := update_of_ne h ..

omit [DecidableEq Pid] in
@[simp] theorem setFile_file (T : Tables Pid) (f : FileId) (F : File) :
    (T.setFile f F).file f = F := update_self ..

omit [DecidableEq Pid] in
theorem setFile_file_of_ne (h : g ≠ f) : (T.setFile f F).file g = T.file g :=
  update_of_ne h ..

omit [DecidableEq Pid] in
@[simp] theorem setFile_setFile (T : Tables Pid) (f : FileId) (F G : File) :
    (T.setFile f F).setFile f G = T.setFile f G := by
  simp [setFile]

omit [DecidableEq Pid] in
theorem setFile_comm (h : f ≠ g) (T : Tables Pid) (F G : File) :
    (T.setFile f F).setFile g G = (T.setFile g G).setFile f F := by
  simp [setFile, update_comm h]

theorem setCwd_ofile (T : Tables Pid) (p : Pid) (i : Option Slot) (q : Pid) :
    ((T.setCwd p i).proc q).ofile = (T.proc q).ofile := by
  by_cases hq : q = p
  · subst hq
    simp [setCwd]
  · simp [setCwd, hq]

/-! ### Who refers to a file -/

/-- A descriptor of `f` comes in. -/
theorem counts_setFd {n : ℤ} (h : Counts (T.Refers f) n) (hfd : (T.proc p).ofile fd = none) :
    Counts ((T.setFd p fd (some f)).Refers f) (n + 1) := by
  refine h.enter (p := (p, fd)) ?_ ?_ fun x hx => ?_
  · rw [Refers, hfd]
    exact nofun
  · exact setFd_ofile ..
  · unfold Refers
    rw [setFd_ofile_of_ne (by exact hx)]

/-- A descriptor of `f` goes out. -/
theorem counts_setFd_none {n : ℤ} (h : Counts (T.Refers f) n) (hfd : T.Refers f (p, fd)) :
    Counts ((T.setFd p fd none).Refers f) (n - 1) := by
  refine h.leave (p := (p, fd)) hfd ?_ fun x hx => ?_
  · rw [Refers, setFd_ofile]
    exact nofun
  · unfold Refers
    rw [setFd_ofile_of_ne (by exact hx)]

/-- The descriptors of another file are what they were. -/
theorem refers_setFd (ho : o ≠ some g) (hfd : (T.proc p).ofile fd ≠ some g) (x : Pid × Fd) :
    (T.setFd p fd o).Refers g x ↔ T.Refers g x := by
  unfold Refers
  by_cases hx : x = (p, fd)
  · subst hx
    rw [setFd_ofile]
    exact iff_of_false ho hfd
  · rw [setFd_ofile_of_ne (by exact hx)]

/-- **One file changes, and one descriptor**, which is for this file. -/
theorem files_setFd (h : ∀ g, FileOk (T.file g) (T.Refers g))
    (hF : FileOk F ((T.setFd p fd o).Refers f)) (ho : ∀ g, o = some g → g = f)
    (hfd : ∀ g, (T.proc p).ofile fd = some g → g = f) (g : FileId) :
    FileOk (((T.setFile f F).setFd p fd o).file g) (((T.setFile f F).setFd p fd o).Refers g) := by
  change FileOk (update T.file f F g) ((T.setFd p fd o).Refers g)
  by_cases hgf : g = f
  · subst hgf
    rwa [update_self]
  · rw [update_of_ne hgf]
    exact (h g).keep (refers_setFd (fun hc => hgf (ho g hc)) fun hc => hgf (hfd g hc))

/-- A file that is not in use gets a descriptor. -/
theorem files_open (h : ∀ g, FileOk (T.file g) (T.Refers g)) (hf : (T.file f).ref = 0)
    (hfd : (T.proc p).ofile fd = none) (href : F.ref = 1) (hty : F.type ≠ .none)
    (hends : F.type = .pipe → F.readable = !F.writable) (g : FileId) :
    FileOk (((T.setFile f F).setFd p fd (some f)).file g)
      (((T.setFile f F).setFd p fd (some f)).Refers g) := by
  refine files_setFd h ⟨?_, iff_of_false (by omega) hty, hends⟩
    (fun g hg => (Option.some.inj hg).symm) (fun g hg => absurd (hfd.symm.trans hg) nofun) g
  have hc := counts_setFd (h f).refs hfd
  rw [hf] at hc
  rwa [href]

omit [DecidableEq Pid] in
/-- One file changes, but not whether it is an end of a pipe. -/
theorem pipes_setFile (h : ∀ q, PipeOk (T.pipe q) (T.IsEnd q))
    (hend : ∀ q w, F.IsEnd q w ↔ T.IsEnd q w f) (q : PipeId) :
    PipeOk ((T.setFile f F).pipe q) ((T.setFile f F).IsEnd q) := by
  refine (h q).keep fun w g => ?_
  change (update T.file f F g).IsEnd q w ↔ _
  by_cases hgf : g = f
  · subst hgf
    rw [update_self]
    exact hend q w
  · rw [update_of_ne hgf]
    exact Iff.rfl

namespace Ok

section

omit [DecidableEq Pid]

variable (h : T.Ok)
include h

theorem idle (f : FileId) (hf : (T.file f).ref = 0) : (T.file f).type = .none :=
  (h.files f).unset.mp hf

theorem one_le_ref {x : Pid × Fd} (hx : T.Refers f x) : 1 ≤ (T.file f).ref :=
  (h.files f).refs.pos hx

theorem opened (f : FileId) (x : Pid × Fd) (hx : T.Refers f x) : (T.file f).type ≠ .none := by
  intro hty
  have := h.one_le_ref hx
  have := (h.files f).unset.mpr hty
  omega

theorem ref_of_type (hf : (T.file f).type ≠ .none) : 1 ≤ (T.file f).ref := by
  have h0 := (h.files f).refs.nonneg
  have h1 : (T.file f).ref ≠ 0 := fun hc => hf (h.idle f hc)
  omega

theorem not_isEnd (hf : (T.file f).ref = 0) (q : PipeId) (w : Bool) : ¬T.IsEnd q w f :=
  fun hc => absurd ((h.idle f hf).symm.trans hc.1) (by decide)

/-- One file changes, and no descriptor. -/
theorem setFile (hF : FileOk F (T.Refers f)) (hend : ∀ q w, F.IsEnd q w ↔ T.IsEnd q w f) :
    (T.setFile f F).Ok := by
  refine ⟨fun g => ?_, pipes_setFile h.pipes hend⟩
  change FileOk (update T.file f F g) _
  by_cases hgf : g = f
  · subst hgf
    rwa [update_self]
  · rw [update_of_ne hgf]
    exact h.files g

/-- A file is read or written. -/
theorem setOff (f : FileId) (off : UInt32) : (T.setFile f ((T.file f).setOff off)).Ok :=
  have hf := h.files f
  h.setFile ⟨hf.refs, hf.unset, hf.ends⟩ fun _ _ => Iff.rfl

/-- What a file that is not in use is left with does not matter. -/
theorem stale (hf : (T.file f).ref = 0) (href : F.ref = 0) (hty : F.type = .none) :
    (T.setFile f F).Ok := by
  refine h.setFile ⟨?_, iff_of_true href hty, fun hc => absurd (hty.symm.trans hc) (by decide)⟩
    fun q w => iff_of_false (fun hc => absurd (hty.symm.trans hc.1) (by decide)) (h.not_isEnd hf q w)
  rw [href, ← hf]
  exact (h.files f).refs

end

variable (h : T.Ok)
include h

/-- **A file is opened**: it has one descriptor. -/
theorem opens (hf : (T.file f).ref = 0) (hfd : (T.proc p).ofile fd = none)
    (href : F.ref = 1) (hty : F.type = .inode) : ((T.setFile f F).setFd p fd (some f)).Ok :=
  have hpipe : F.type ≠ .pipe := by rw [hty]; decide
  ⟨files_open h.files hf hfd href (by rw [hty]; decide) fun hc => absurd hc hpipe,
    pipes_setFile h.pipes fun q w => iff_of_false (fun hc => hpipe hc.1) (h.not_isEnd hf q w)⟩

/-- **A file gets another descriptor.** -/
theorem dup {x : Pid × Fd} (hx : T.Refers f x) (hfd : (T.proc p).ofile fd = none) :
    ((T.setFile f ((T.file f).setRef ((T.file f).ref + 1))).setFd p fd (some f)).Ok := by
  have hpos := h.one_le_ref hx
  refine ⟨files_setFd h.files ⟨counts_setFd (h.files f).refs hfd, ?_, (h.files f).ends⟩
    (fun g hg => (Option.some.inj hg).symm) fun g hg => absurd (hfd.symm.trans hg) nofun,
    pipes_setFile h.pipes fun _ _ => Iff.rfl⟩
  exact iff_of_false (by rw [File.setRef_ref]; omega) (h.opened f x hx)

section

variable (hx : T.Refers f (p, fd))
include hx

omit h [DecidableEq Pid] in
theorem eq_of_refers (g : FileId) (hg : (T.proc p).ofile fd = some g) : g = f :=
  Option.some.inj (hg.symm.trans hx)

/-- **A file loses one of its descriptors.** -/
theorem close (href : 0 < (T.file f).ref - 1) :
    ((T.setFile f ((T.file f).setRef ((T.file f).ref - 1))).setFd p fd none).Ok := by
  refine ⟨files_setFd h.files ⟨counts_setFd_none (h.files f).refs hx, ?_, (h.files f).ends⟩
    nofun (eq_of_refers hx), pipes_setFile h.pipes fun _ _ => Iff.rfl⟩
  exact iff_of_false (by rw [File.setRef_ref]; omega) (h.opened f _ hx)

variable (href : (T.file f).ref = 1)
include href

theorem files_close (g : FileId) :
    FileOk (((T.setFile f (T.file f).closed).setFd p fd none).file g)
      (((T.setFile f (T.file f).closed).setFd p fd none).Refers g) := by
  refine files_setFd (F := (T.file f).closed) (o := none) h.files ⟨?_, iff_of_true rfl rfl, nofun⟩
    nofun (eq_of_refers hx) g
  have hc := counts_setFd_none (h.files f).refs hx
  rwa [href] at hc

/-- **A file that is not a pipe loses its last descriptor.** -/
theorem closeLast (hty : (T.file f).type ≠ .pipe) :
    ((T.setFile f (T.file f).closed).setFd p fd none).Ok :=
  ⟨h.files_close hx href,
    pipes_setFile h.pipes fun _ _ => iff_of_false (fun hc => nomatch hc.1) fun hc => hty hc.1⟩

/-- **The end of a pipe loses its last descriptor**: it is closed, and the page is freed
if this was the last end. -/
theorem closePipe (hty : (T.file f).type = .pipe) :
    (((T.setFile f (T.file f).closed).setEnds (T.file f).pipe
      ((T.pipe (T.file f).pipe).close (T.file f).writable)).setFd p fd none).Ok := by
  refine ⟨h.files_close hx href, fun q => ?_⟩
  set E := (T.pipe (T.file f).pipe).close (T.file f).writable
  have hend : ∀ w g, (update T.file f (T.file f).closed g).IsEnd q w ↔ g ≠ f ∧ T.IsEnd q w g := by
    intro w g
    by_cases hgf : g = f
    · subst hgf
      rw [update_self]
      exact iff_of_false (fun hc => nomatch hc.1) fun hc => hc.1 rfl
    · rw [update_of_ne hgf]
      exact (and_iff_right hgf).symm
  change PipeOk (update T.pipe (T.file f).pipe E q) _
  by_cases hq : q = (T.file f).pipe
  · subst hq
    rw [update_self]
    exact ((h.pipes _).close ⟨hty, rfl, rfl⟩ fun w' hw => hw.2.2.symm).keep hend
  · -- the file is no end of another pipe
    rw [update_of_ne hq]
    refine (h.pipes q).keep fun w g => (hend w g).trans (and_iff_right_of_imp ?_)
    rintro hg rfl
    exact hq hg.2.1.symm

end

/-- **A pipe is made**: each of its two files has one descriptor. -/
theorem newPipe {f0 f1 : FileId} {fd0 fd1 : Fd} {F0 F1 : File} {q : PipeId}
    (hne : f0 ≠ f1) (hf0 : (T.file f0).ref = 0) (hf1 : (T.file f1).ref = 0) (hfd : fd0 ≠ fd1)
    (hfd0 : (T.proc p).ofile fd0 = none) (hfd1 : (T.proc p).ofile fd1 = none)
    (hq : (T.pipe q).owned = 0) (hF0 : F0.ref = 1) (hF1 : F1.ref = 1) :
    (((((T.setFile f0 (F0.asPipe q true false)).setFile f1 (F1.asPipe q false true)).setEnds q
      ⟨true, true, 1⟩).setFd p fd0 (some f0)).setFd p fd1 (some f1)).Ok := by
  have hfree : (((T.setFile f0 (F0.asPipe q true false)).setFd p fd0 (some f0)).proc p).ofile fd1 =
      none := by
    rwa [setFd_ofile_of_ne (by simpa using Ne.symm hfd)]
  refine ⟨files_open (T := (T.setFile f0 (F0.asPipe q true false)).setFd p fd0 (some f0))
    (files_open h.files hf0 hfd0 hF0 nofun fun _ => rfl)
    ((congrArg File.ref (setFile_file_of_ne hne.symm)).trans hf1) hfree hF1 nofun fun _ => rfl,
    fun q' => ?_⟩
  have hend : ∀ w g, (update (update T.file f0 (F0.asPipe q true false)) f1
      (F1.asPipe q false true) g).IsEnd q' w ↔
      q' = q ∧ g = (if w then f1 else f0) ∨ T.IsEnd q' w g := by
    intro w g
    by_cases h1 : g = f1
    · subst h1
      rw [update_self, or_iff_left (h.not_isEnd hf1 q' w)]
      cases w <;> simp [File.IsEnd, File.asPipe, hne.symm, eq_comm]
    · rw [update_of_ne h1]
      by_cases h0 : g = f0
      · subst h0
        rw [update_self, or_iff_left (h.not_isEnd hf0 q' w)]
        cases w <;> simp [File.IsEnd, File.asPipe, hne, eq_comm]
      · rw [update_of_ne h0]
        cases w <;> simp [h0, h1, IsEnd]
  change PipeOk (update T.pipe q ⟨true, true, 1⟩ q') _
  by_cases hq' : q' = q
  · subst hq'
    rw [update_self]
    -- the page is new, so that there are no other ends of it
    have hnew : ∀ w g, ¬T.IsEnd q' w g := fun w g hg =>
      absurd ((h.pipes q').owned_of_end hg) (by omega)
    refine PipeOk.keep (P := fun w g => g = if w then f1 else f0)
      ⟨fun w g g' hg hg' => hg.trans hg'.symm, fun w => iff_of_true ?_ ⟨_, rfl⟩, rfl⟩ fun w g =>
      (hend w g).trans ((or_iff_left (hnew w g)).trans (and_iff_right rfl))
    cases w <;> rfl
  · rw [update_of_ne hq']
    exact (h.pipes q').keep fun w g => (hend w g).trans (or_iff_right fun hc => hq' hc.1)

end Ok

end Tables

end Xv6.Fs
