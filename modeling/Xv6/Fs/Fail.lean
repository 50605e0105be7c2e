import Xv6.Fs.Balance
import Xv6.Fs.DirLink

/-!
# System calls that fail

The system calls that are about names return `-1` at many points, some of them after
part of the work has been done: `link` has counted the link already, `open` has found
or created the file. What they leave behind is compared with what was there before
(`Xv6.Fs.View.Same`): the inodes that are allocated with their contents, among them
the directories with their entries, and the descriptors and the working directory of
the process that has made the call.

All of them undo what they have done, with one exception. A call of `open` that makes
a new file does so before it looks for a `struct file` and for a descriptor; where there
is none of one or the other it returns `-1`, and the new file stays
(`Xv6.Fs.same_iff_of_failed`).
-/

namespace Xv6.Fs

open Lib

variable {Pid : Type}

/-- The system calls that are about names, with their arguments. -/
inductive NameCall where
  | «open» (path : Str) (omode : UInt32)
  | mkdir (path : Str)
  | mknod (path : Str) (major minor : Int16)
  | link (old new : Str)
  | unlink (path : Str)
  | chdir (path : Str)

namespace NameCall

/-- The program of a call, which answers whether the call succeeds: `false` is the
result `-1`. -/
def prog (p : Pid) : NameCall → FsM Pid Bool
  | .open path omode => do
    let r ← sysOpen p path omode
    return r.isSome
  | .mkdir path => do
    let r ← sysMkdir p path
    return r.isSome
  | .mknod path major minor => do
    let r ← sysMknod p path major minor
    return r.isSome
  | .link old new => do
    let r ← sysLink p old new
    return r.isSome
  | .unlink path => do
    let r ← sysUnlink p path
    return r.isSome
  | .chdir path => do
    let r ← sysChdir p path
    return r.isSome

/-- **What a call needs in order to leave nothing behind**: if it makes a new file, there
is a `struct file` and a descriptor for it. -/
def Fits (p : Pid) (a : View Pid) : NameCall → Prop
  | .open path omode => a.Makes p path omode → a.tables.Room p
  | _ => True

end NameCall

/-- The abstract file system of a state between two system calls. -/
theorem Rel.view_eq {s : State Pid} {a : View Pid} (h : Rel s a) (hd : ∀ t, a.dirty t = false) :
    s.view = a := by
  have hdisk : s.disk = a.disk := funext fun t => h.disk t (hd t)
  have hdirty : a.dirty = fun _ => false := funext hd
  have hinode : s.view.inode = a.inode := by
    funext i
    change (if (s.inode i).ref = 0 then none else _) = _
    cases hi : a.inode i with
    | none => rw [if_pos (h.empty i hi).1]
    | some e =>
      have hpos := h.one_le_ref i e hi
      have hne : e.ref ≠ 0 := by omega
      rw [h.entry hi, if_neg (by exact hne)]
  cases a
  simp only [State.view, h.data, h.ninodes, h.tables, h.outstanding, h.cons] at *
  simp only [hdisk, hdirty, hinode]

section Failed

variable [DecidableEq Pid] {s t : State Pid} {a : View Pid} {p : Pid} {o : NameCall}

/-- What a call that fails has done. -/
theorem wp_nameCall (h : Wf a) : (logic Cond.any.K fun _ => False).wp (o.prog p)
    (fun ok b => ok = false → Wf b ∧ (View.Same p a b ↔ o.Fits p a)) a := by
  have hb : Allows (fun _ => False) a := ⟨fun _ _ => id, False.elim⟩
  have hsame : Wf a ∧ (View.Same p a a ↔ True) := ⟨h, iff_of_true (.refl p a) trivial⟩
  cases o with
  | «open» path omode =>
    refine .bind (wp_sysOpen h hb fun r b hd hr hfail => ⟨h.steps hd.steps, hr ?_⟩)
    exact Option.isNone_iff_eq_none.mp (Option.isSome_eq_false_iff.mp hfail)
  | mkdir path => exact .bind (wp_sysCreate h hb (by decide) (fun _ => hsame) nofun)
  | mknod path major minor =>
    exact .bind (wp_sysCreate h hb (by decide) (fun _ => hsame) nofun)
  | link old new => exact .bind (wp_sysLink h.toTidy hb (fun _ => hsame) nofun)
  | unlink path => exact .bind (wp_sysUnlink h.toTidy hb (fun _ => hsame) nofun)
  | chdir path => exact .bind (wp_sysChdir h hb (fun _ => hsame) nofun)

theorem Between.same_iff (h : Between s a) (hfail : (o.prog p).exec handle s = .ok (false, t)) :
    View.Same p s.view t.view ↔ o.Fits p s.view := by
  obtain ⟨b, hb, hrel⟩ := h.rel.exec_ok (wp_nameCall h.wf) (Prog.meets_of_forall Cond.any_K _ _)
    hfail
  obtain ⟨hwf, hsame⟩ := hb rfl
  rwa [h.rel.view_eq h.wf.dirty, hrel.view_eq hwf.dirty]

/-- **A call that fails leaves everything as it was**, unless it is a call of `open`
that has made a new file and does not find a `struct file` or a descriptor for it. -/
theorem same_iff_of_failed (h : Between s a) (hfail : (o.prog p).exec handle s = .ok (false, t)) :
    View.Same p s.view t.view ↔ o.Fits p s.view :=
  h.same_iff hfail

/-- The state that a call that has returned `-1` leaves. -/
def failed : Effect (Bool × State Pid) → Option (State Pid)
  | .ok (false, t) => some t
  | _ => none

omit [DecidableEq Pid] in
theorem eq_of_failed {x : Effect (Bool × State Pid)} (h : failed x = some t) :
    x = .ok (false, t) := by
  cases x with
  | ok y =>
    obtain ⟨ok, u⟩ := y
    cases ok with
    | false => rw [Option.some.inj h]
    | true => cases h
  | disabled => cases h
  | panic msg => cases h

/-- A file is to be removed that there is not. -/
theorem same_iff_of_failed_unlink : ∃ t,
    ((NameCall.unlink initPath).prog 0).exec handle (bootState.read 0) = .ok (false, t) ∧
      View.Same 0 (bootState.read 0).view t.view := by
  have hfails : (failed (((NameCall.unlink initPath).prog 0).exec handle
      (bootState.read 0))).isSome = true := by decide +kernel
  obtain ⟨t, ht⟩ := Option.isSome_iff_exists.mp hfails
  have hfail := eq_of_failed ht
  exact ⟨t, hfail, (same_iff_of_failed booted_bootState.between hfail).mpr trivial⟩

/-- The first process opens the root directory as often as it can. -/
def openAll : List (ℕ × Call ℕ) :=
  (0, .exec initPath ⟨true, fun _ => true⟩) :: List.replicate NOFILE (0, .open [slash] O_RDONLY)

/-- **A file that stays**: there is no descriptor for it, the call fails, and there is a
new inode. -/
theorem failed_open_leaves_file : ∃ s t, Starts 0 openAll ∧
    run Fs.step bootState openAll = some s ∧
    ((NameCall.open initPath O_CREATE).prog 0).exec handle s = .ok (false, t) ∧
    ¬View.Same 0 s.view t.view := by
  have hcall : ((run Fs.step bootState openAll).bind fun s =>
      (failed (((NameCall.open initPath O_CREATE).prog 0).exec handle s)).map fun t =>
        decide ((s.disk 2).type = 0 ∧ (t.disk 2).type ≠ 0)) = some true := by decide +kernel
  obtain ⟨s, hs, hcall⟩ := Option.bind_eq_some_iff.mp hcall
  obtain ⟨t, ht, hnew⟩ := Option.map_eq_some_iff.mp hcall
  obtain ⟨hfree, hnew⟩ := of_decide_eq_true hnew
  exact ⟨s, t, fun x hx => ⟨_, (Option.some.inj hx).symm⟩, hs, eq_of_failed ht,
    View.not_same (t := 2) hfree hnew⟩

/-! ### A full directory -/

end Failed

end Xv6.Fs
