import Xv6.Fs.Boot
import Xv6.Fs.Bytes

/-!
# Writing to an open file

`filewrite` writes a long string in pieces, each in a transaction of its own with the
inode locked. One such piece (`Xv6.Fs.exec_writePiece`) writes at the offset of the file
and moves the offset, or fails and changes nothing (`Xv6.Fs.State.write`); what it does to
the file is said in terms of its contents as an array (`Xv6.Fs.State.contents`).
-/

namespace Xv6.Fs

open Lib Function List UInt32

variable {Pid : Type}

/-- The inode of an open file. -/
def State.inumOf (s : State Pid) (f : FileId) : UInt32 := (s.inode (s.file f).ip).inum

/-- The contents of an open file, as the disk has them. -/
def State.contents (s : State Pid) (f : FileId) : Str :=
  bytes (s.data (s.inumOf f)) 0 (s.disk (s.inumOf f)).size.toNat

/-- **An open regular file** that nobody is using at the moment: its inode has been
referenced and is not locked, and the copy in the cache is current. -/
structure Ready (s : State Pid) (f : FileId) : Prop where
  inode : (s.file f).type = .inode
  ref : 1 ≤ (s.inode (s.file f).ip).ref
  lock : (s.inode (s.file f).ip).lock = none
  type : (s.disk (s.inumOf f)).type = T_FILE
  copy : (s.inode (s.file f).ip).valid = true →
    (s.inode (s.file f).ip).d = s.disk (s.inumOf f)

/-- Move the offset of a file. -/
def State.setOff (s : State Pid) (f : FileId) (off : UInt32) : State Pid :=
  { s with file := update s.file f ((s.file f).setOff off) }

/-- `advance` -/
def State.advance (s : State Pid) (f : FileId) (off r : UInt32) : State Pid :=
  if 0 < r then s.setOff f (off + r) else s

/-- **One locked section of `filewrite`**: `writei` at the offset of the file, and the
offset moves when something has been written. -/
def State.write (s : State Pid) (f : FileId) (src : Str) : Option UInt32 × State Pid :=
  let r := (s.read (s.file f).ip).writei (s.file f).ip (s.file f).off src
  (r.1, r.2.advance f (s.file f).off (r.1.getD 0))

/-- The part of `filewrite` for one piece. -/
def writePiece (p : Pid) (f : FileId) (ip : Slot) (src : Str) : FsM Pid (Option UInt32) := do
  Op.beginOp.perform
  ilock p ip
  let file : File ← (Op.file f).perform
  let r ← writei p ip file.off src
  advance f file.off (r.getD 0)
  iunlock p ip
  Op.endOp.perform
  return r

/-- What `filewrite` makes of the result of the piece `q`, with the rest of the loop to follow. -/
def afterPiece (q : Str) (rest : FsM Pid Bool) : Option UInt32 → FsM Pid Bool
  | none => return false
  | some m => do
    panicIf (m.toNat ≠ q.length) "short filewrite"
    rest

/-! ### A locked section -/

/-- The state with the sleep-lock of an inode in the hands of a process. -/
def State.lockBy (s : State Pid) (p : Pid) (i : Slot) : State Pid :=
  s.set i { s.inode i with lock := some p }

section Locked

variable {s : State Pid} {f : FileId} {src : Str} {p : Pid} {i : Slot} {off : UInt32}

theorem State.read_inode (s : State Pid) (i : Slot) : (s.read i).inode i =
    { s.inode i with d := s.disk (s.inode i).inum, valid := true } := State.set_inode ..

theorem State.lockBy_inode (s : State Pid) (p : Pid) (i : Slot) :
    (s.lockBy p i).inode i = { s.inode i with lock := some p } := State.set_inode ..

theorem State.set_eq_self {x : Inode Pid Fields} (h : x = s.inode i) : s.set i x = s := by
  rw [State.set, h, update_eq_self]

/-- Taking the lock and giving it back. -/
theorem State.lockBy_release (h : (s.inode i).lock = none) :
    (s.lockBy p i).set i { (s.lockBy p i).inode i with lock := none } = s := by
  rw [State.lockBy_inode, State.lockBy, State.set_set]
  refine State.set_eq_self ?_
  rw [← h]

/-- The state with other contents of an inode. -/
def State.setData (s : State Pid) (inum : UInt32) (c : ℕ → UInt8) : State Pid :=
  { s with data := update s.data inum c }

/-- The state with another size of an inode, in the cache and on the disk. -/
def State.resize (s : State Pid) (i : Slot) (size : UInt32) : State Pid :=
  (s.setFields i ((s.inode i).d.setSize size)).iupdate i

/-- `writei` fails. -/
theorem State.writei_none (h : ¬writeiOk (s.inode i).d.size off (UInt32.ofNat src.length) = true) :
    s.writei i off src = (none, s) := if_neg h

variable (h : writeiOk (s.inode i).d.size off (UInt32.ofNat src.length) = true)
include h

/-- `writei` does not go beyond the end of the file. -/
theorem State.writei_inside
    (hg : ¬(0 < UInt32.ofNat src.length ∧ (s.inode i).d.size < off + UInt32.ofNat src.length)) :
    s.writei i off src = (some (UInt32.ofNat src.length), s.setData (s.inode i).inum
      (overwrite (s.data (s.inode i).inum) off.toNat src)) :=
  (if_pos h).trans (congrArg _ (if_neg hg))

/-- `writei` extends the file. -/
theorem State.writei_grows
    (hg : 0 < UInt32.ofNat src.length ∧ (s.inode i).d.size < off + UInt32.ofNat src.length) :
    s.writei i off src = (some (UInt32.ofNat src.length), (s.setData (s.inode i).inum
      (overwrite (s.data (s.inode i).inum) off.toNat src)).resize i
        (off + UInt32.ofNat src.length)) :=
  (if_pos h).trans (congrArg _ (if_pos hg))

omit h

/-- `writei` does not depend on who has the lock, nor on the transactions that are
open. -/
theorem State.writei_lockBy (s : State Pid) (p : Pid) (i : Slot) (off : UInt32) (src : Str)
    (n : ℤ) : State.writei { s.lockBy p i with outstanding := n } i off src =
      ((s.writei i off src).1,
        { (s.writei i off src).2.lockBy p i with outstanding := n }) := by
  have hin : (s.lockBy p i).inode i = { s.inode i with lock := some p } := s.lockBy_inode p i
  by_cases hok : writeiOk (s.inode i).d.size off (UInt32.ofNat src.length) = true
  · by_cases hg : 0 < UInt32.ofNat src.length ∧
      (s.inode i).d.size < off + UInt32.ofNat src.length
    · rw [State.writei_grows hok hg, State.writei_grows (by rw [hin]; exact hok)
        (by rw [hin]; exact hg)]
      simp [State.lockBy, State.resize, State.setFields, State.iupdate, State.set, State.setData]
    · rw [State.writei_inside hok hg, State.writei_inside (by rw [hin]; exact hok)
        (by rw [hin]; exact hg)]
      simp [State.lockBy, State.set, State.setData]
  · rw [State.writei_none hok, State.writei_none (by rw [hin]; exact hok)]

/-- `writei` does not change the lock, the references and the transactions. -/
theorem State.writei_held (s : State Pid) (i : Slot) (off : UInt32) (src : Str) :
    ((s.writei i off src).2.inode i).lock = (s.inode i).lock ∧
      ((s.writei i off src).2.inode i).ref = (s.inode i).ref ∧
      (s.writei i off src).2.outstanding = s.outstanding := by
  by_cases hok : writeiOk (s.inode i).d.size off (UInt32.ofNat src.length) = true
  · by_cases hg : 0 < UInt32.ofNat src.length ∧
      (s.inode i).d.size < off + UInt32.ofNat src.length
    · rw [State.writei_grows hok hg]
      simp [State.resize, State.setFields, State.iupdate, State.set, State.setData]
    · rw [State.writei_inside hok hg]
      exact ⟨rfl, rfl, rfl⟩
  · rw [State.writei_none hok]
    exact ⟨rfl, rfl, rfl⟩

/-- `advance` changes the offset only. -/
theorem State.advance_eq (s : State Pid) (f : FileId) (off r : UInt32) :
    s.advance f off r = { s with file := (s.advance f off r).file } := by
  unfold State.advance
  split <;> rfl

theorem State.advance_lockBy (s : State Pid) (p : Pid) (i : Slot) (n : ℤ) (f : FileId)
    (off r : UInt32) : State.advance { s.lockBy p i with outstanding := n } f off r =
      { (s.advance f off r).lockBy p i with outstanding := n } := by
  unfold State.advance
  split <;> rfl

/-- A locked section leaves the inode unlocked. -/
theorem Ready.write_held (h : Ready s f) (src : Str) :
    ((s.write f src).2.inode (s.file f).ip).lock = none ∧
      1 ≤ ((s.write f src).2.inode (s.file f).ip).ref ∧
      (s.write f src).2.outstanding = s.outstanding := by
  obtain ⟨hl, hr, ho⟩ := (s.read (s.file f).ip).writei_held (s.file f).ip (s.file f).off src
  rw [State.read_inode] at hl hr
  rw [State.write, State.advance_eq]
  exact ⟨hl.trans h.lock, hr ▸ h.ref, ho⟩

variable [DecidableEq Pid]

/-- **`ilock`** of the inode of an open file. -/
theorem Ready.exec_ilock (h : Ready s f) (hip : (s.file f).ip = i) :
    (ilock p i).exec handle s = .ok ((), (s.read i).lockBy p i) := by
  subst hip
  rw [Fs.exec_ilock h.ref h.lock (by rw [← State.inumOf, h.type]; decide), State.lockBy,
    State.read_inode, State.read, State.set_set]
  split
  · rename_i hv
    rw [← State.inumOf, ← h.copy hv]
    exact congrArg (fun v => Effect.ok ((), s.set (s.file f).ip ⟨_, _, _, some p, v, _⟩)) hv
  · rfl

/-- **`iunlock`** by the holder of the lock. -/
theorem exec_iunlock (hl : (s.inode i).lock = some p) (href : 1 ≤ (s.inode i).ref) :
    (iunlock p i).exec handle s = .ok ((), s.set i { s.inode i with lock := none }) := by
  have hhold : handle (.holdingsleep p i) s = .ok (true, s) := by
    change Effect.ok (decide ((s.inode i).lock = some p), s) = _
    rw [decide_eq_true hl]
  unfold iunlock
  rw [exec_op hhold, panicIf, if_neg (by decide), Prog.bind_ret, exec_op (o := .ref i) rfl,
    panicIf, if_neg (not_lt.mpr href), Prog.bind_ret]
  rfl

/-- The lock is given back. -/
theorem exec_unlockBy (hl : (s.inode i).lock = none) (href : 1 ≤ (s.inode i).ref) :
    (iunlock p i).exec handle (s.lockBy p i) = .ok ((), s) := by
  rw [exec_iunlock, State.lockBy_release hl]
  · rw [State.lockBy_inode]
  · rwa [State.lockBy_inode]

/-- `writei` of an inode that is not a device. -/
theorem exec_writei {off : UInt32} (h : (s.inode i).d.type ≠ T_DEV) :
    (writei p i off src).exec handle s = .ok (s.writei i off src) := by
  unfold writei
  rw [exec_op (o := .fields i) rfl, if_neg h]
  exact Prog.exec_perform rfl

theorem exec_advance {off r : UInt32} : (advance f off r).exec handle s =
    .ok ((), s.advance f off r) := by
  unfold advance onlyIf State.advance
  split
  · exact Prog.exec_perform rfl
  · rfl

/-- `ilock` in a transaction. -/
theorem Ready.exec_ilock_op (h : Ready s f) (hip : (s.file f).ip = i) (p : Pid) (n : ℤ) :
    (ilock p i).exec handle { s with outstanding := n } =
      .ok ((), { (s.read i).lockBy p i with outstanding := n }) :=
  Ready.exec_ilock ⟨h.inode, h.ref, h.lock, h.type, h.copy⟩ hip

/-- What comes after `writei` in the locked section. -/
def endWrite (p : Pid) (f : FileId) (ip : Slot) (off : UInt32) (r : Option UInt32) :
    FsM Pid Unit := do
  advance f off (r.getD 0)
  iunlock p ip

theorem Ready.exec_endWrite (h : Ready s f) (hip : (s.file f).ip = i) (p : Pid) (src : Str)
    (n : ℤ) : (endWrite p f i (s.file f).off (s.write f src).1).exec handle
      { ((s.read i).writei i (s.file f).off src).2.lockBy p i with outstanding := n } =
      .ok ((), { (s.write f src).2 with outstanding := n }) := by
  obtain ⟨hl, hr, -⟩ := h.write_held src
  unfold endWrite
  rw [Prog.exec_bind_ok exec_advance, State.advance_lockBy]
  subst hip
  exact exec_unlockBy (s := { (s.write f src).2 with outstanding := n }) hl hr

omit [DecidableEq Pid] in
theorem writePiece_eq (p : Pid) (f : FileId) (i : Slot) (src : Str) :
    writePiece p f i src = (do
      Op.beginOp.perform
      ilock p i
      let file : File ← (Op.file f).perform
      let r ← writei p i file.off src
      endWrite p f i file.off r
      Op.endOp.perform
      return r) := by
  simp only [writePiece, endWrite, Prog.bind_assoc]

omit [DecidableEq Pid] in
/-- The copy of the inode in memory is not that of a device. -/
theorem Ready.type_locked (h : Ready s f) (hip : (s.file f).ip = i) :
    (((s.read i).lockBy p i).inode i).d.type ≠ T_DEV := by
  subst hip
  rw [State.lockBy_inode, State.read_inode, ← State.inumOf, h.type]
  decide

/-- **One piece of `filewrite`.** -/
theorem Ready.exec_writePiece (h : Ready s f) (hip : (s.file f).ip = i) (p : Pid) (src : Str) :
    (writePiece p f i src).exec handle s = .ok (s.write f src) := by
  set n := s.outstanding + 1
  have hn : n - 1 = s.outstanding := add_sub_cancel_right ..
  have hwrite : (writei p i (s.file f).off src).exec handle
      { (s.read i).lockBy p i with outstanding := n } =
      .ok (((s.read i).writei i (s.file f).off src).1,
        { ((s.read i).writei i (s.file f).off src).2.lockBy p i with outstanding := n }) := by
    rw [← State.writei_lockBy]
    exact exec_writei (h.type_locked hip)
  have hfst : ((s.read i).writei i (s.file f).off src).1 = (s.write f src).1 := by
    rw [State.write, hip]
  have hfile : handle (.file f) { (s.read i).lockBy p i with outstanding := n } =
      .ok (s.file f, { (s.read i).lockBy p i with outstanding := n }) := rfl
  rw [writePiece_eq, exec_op (o := .beginOp) rfl, Prog.exec_bind_ok (h.exec_ilock_op hip p n),
    exec_op hfile, Prog.exec_bind_ok hwrite, hfst, Prog.exec_bind_ok (h.exec_endWrite hip p src n),
    exec_op (o := .endOp) rfl]
  change Effect.ok (_, { (s.write f src).2 with outstanding := n - 1 }) = _
  rw [hn, ← (h.write_held src).2.2]

end Locked

/-! ### What a piece does to the contents -/

/-- **What has been written to an open file** from one state to another. -/
structure Written (s t : State Pid) (f : FileId) (src : Str) : Prop where
  ready : Ready t f
  file : t.file f = (s.file f).setOff (t.file f).off
  inum : t.inumOf f = s.inumOf f
  disk : t.disk (t.inumOf f) = (s.disk (s.inumOf f)).setSize (t.disk (t.inumOf f)).size
  contents : t.contents f = splice (s.contents f) (s.file f).off.toNat src
  off : (t.file f).off.toNat = (s.file f).off.toNat + src.length

/-- The tests of `writei` for an open file, in numbers. -/
def Fits (s : State Pid) (f : FileId) (n : ℕ) : Prop :=
  (s.file f).off.toNat ≤ (s.contents f).length ∧ (s.file f).off.toNat + n ≤ MAXFILE * BSIZE

instance (s : State Pid) (f : FileId) (n : ℕ) : Decidable (Fits s f n) :=
  inferInstanceAs (Decidable (_ ∧ _))

section Written

variable {s t u : State Pid} {f : FileId} {src : Str}

theorem State.length_contents (s : State Pid) (f : FileId) :
    (s.contents f).length = (s.disk (s.inumOf f)).size.toNat := length_bytes ..

theorem writeiOk_iff_fits (hsrc : src.length < 2 ^ 32) :
    writeiOk (s.disk (s.inumOf f)).size (s.file f).off (UInt32.ofNat src.length) = true ↔
      Fits s f src.length := by
  rw [writeiOk_iff hsrc, Fits, State.length_contents, le_iff_toNat_le]

theorem State.inumOf_read (s : State Pid) (f : FileId) :
    (s.read (s.file f).ip).inumOf f = s.inumOf f :=
  (congrArg Inode.inum (s.read_inode (s.file f).ip)).trans rfl

theorem Ready.read (h : Ready s f) : Ready (s.read (s.file f).ip) f := by
  have hin := s.read_inode (s.file f).ip
  refine ⟨h.inode, ?_, ?_, ?_, fun _ => ?_⟩
  · exact hin ▸ h.ref
  · exact hin ▸ h.lock
  · rw [s.inumOf_read]
    exact h.type
  · rw [s.inumOf_read]
    exact congrArg Inode.d hin

theorem State.inumOf_setOff (s : State Pid) (f : FileId) (off : UInt32) :
    (s.setOff f off).inumOf f = s.inumOf f := by
  have hfile : (s.setOff f off).file f = (s.file f).setOff off := update_self ..
  rw [State.inumOf, hfile]
  rfl

theorem Ready.setOff (h : Ready s f) (off : UInt32) : Ready (s.setOff f off) f := by
  have hfile : (s.setOff f off).file f = (s.file f).setOff off := update_self ..
  have hnum := s.inumOf_setOff f off
  refine ⟨?_, ?_, ?_, ?_, ?_⟩
  · rw [hfile]
    exact h.inode
  · rw [hfile]
    exact h.ref
  · rw [hfile]
    exact h.lock
  · rw [hnum]
    exact h.type
  · rw [hnum, hfile]
    exact h.copy

/-- Nothing has been written. -/
theorem Ready.written_read (h : Ready s f) : Written s (s.read (s.file f).ip) f [] := by
  refine ⟨h.read, rfl, s.inumOf_read f, ?_, ?_, rfl⟩
  · rw [State.inumOf_read]
    rfl
  · rw [splice_nil, State.contents, State.inumOf_read]
    rfl

theorem Ready.written_refl (h : Ready s f) : Written s s f [] :=
  ⟨h, rfl, rfl, rfl, (splice_nil ..).symm, rfl⟩

theorem Written.advance {m : UInt32} (h : Ready t f) (hfile : t.file f = s.file f)
    (hinum : t.inumOf f = s.inumOf f)
    (hdisk : t.disk (t.inumOf f) = (s.disk (s.inumOf f)).setSize (t.disk (t.inumOf f)).size)
    (hc : t.contents f = splice (s.contents f) (s.file f).off.toNat src)
    (hm : m.toNat = src.length)
    (hend : ((s.file f).off + m).toNat = (s.file f).off.toNat + src.length) :
    Written s (t.advance f (s.file f).off m) f src := by
  have hf : (t.setOff f ((s.file f).off + m)).file f = (t.file f).setOff _ := update_self ..
  unfold State.advance
  split
  · refine ⟨h.setOff _, ?_, (t.inumOf_setOff f _).trans hinum, ?_, ?_, ?_⟩
    · rw [hf, hfile]
      rfl
    · rw [State.inumOf_setOff]
      exact hdisk
    · rw [← hc]
      exact (congrArg (fun x : File => bytes (t.data (t.inode x.ip).inum) 0
        (t.disk (t.inode x.ip).inum).size.toNat) hf).trans rfl
    · rw [hf, ← hend]
      rfl
  next hz =>
    have hz' : src.length = 0 := hm ▸ Nat.eq_zero_of_not_pos hz
    refine ⟨h, ?_, hinum, hdisk, hc, ?_⟩ <;> rw [hfile]
    · rfl
    · rw [hz']
      rfl

theorem Written.trans {q r : Str} (h : Written s t f q) (h' : Written t u f r)
    (hoff : (s.file f).off.toNat ≤ (s.contents f).length) : Written s u f (q ++ r) := by
  refine ⟨h'.ready, ?_, h'.inum.trans h.inum, ?_, ?_, ?_⟩
  · rw [h'.file, h.file]
    rfl
  · rw [h'.disk, h.disk]
    rfl
  · rw [h'.contents, h.contents, h.off, splice_append hoff]
  · rw [h'.off, h.off, length_append, Nat.add_assoc]

theorem fits_read (f : FileId) (n : ℕ) : Fits (s.read (s.file f).ip) f n ↔ Fits s f n := by
  rw [Fits, State.contents, State.inumOf_read]
  exact Iff.rfl

/-- A piece that does not fit changes nothing. -/
theorem State.write_none (hsrc : src.length < 2 ^ 32)
    (hno : ¬Fits s f src.length) : s.write f src = (none, s.read (s.file f).ip) := by
  have hbad : ¬writeiOk ((s.read (s.file f).ip).inode (s.file f).ip).d.size (s.file f).off
      (UInt32.ofNat src.length) = true := by
    rw [State.read_inode]
    exact mt (writeiOk_iff_fits hsrc).mp hno
  unfold State.write
  rw [State.writei_none hbad]
  rfl

theorem Ready.setData (h : Ready s f) (inum : UInt32) (c : ℕ → UInt8) :
    Ready (s.setData inum c) f := ⟨h.inode, h.ref, h.lock, h.type, h.copy⟩

theorem State.contents_setData (s : State Pid) (f : FileId) (c : ℕ → UInt8) :
    (s.setData (s.inumOf f) c).contents f = bytes c 0 (s.disk (s.inumOf f)).size.toNat :=
  congrArg (bytes · 0 (s.disk (s.inumOf f)).size.toNat) (update_self ..)

theorem State.resize_inode (s : State Pid) (i : Slot) (size : UInt32) :
    (s.resize i size).inode i = { s.inode i with d := (s.inode i).d.setSize size } :=
  State.set_inode ..

theorem State.resize_disk (s : State Pid) (i : Slot) (size : UInt32) :
    (s.resize i size).disk = update s.disk (s.inode i).inum ((s.inode i).d.setSize size) := by
  change update s.disk ((s.resize i size).inode i).inum
    ((s.resize i size).inode i).d = _
  rw [State.resize_inode]

theorem State.inumOf_resize (s : State Pid) (f : FileId) (size : UInt32) :
    (s.resize (s.file f).ip size).inumOf f = s.inumOf f :=
  (congrArg Inode.inum (s.resize_inode (s.file f).ip size)).trans rfl

theorem State.disk_resize (s : State Pid) (f : FileId) (size : UInt32) :
    (s.resize (s.file f).ip size).disk ((s.resize (s.file f).ip size).inumOf f) =
      (s.inode (s.file f).ip).d.setSize
        ((s.resize (s.file f).ip size).disk ((s.resize (s.file f).ip size).inumOf f)).size := by
  rw [State.inumOf_resize, State.resize_disk, ← State.inumOf, update_self]
  rfl

theorem Ready.resize (h : Ready s f) (hv : (s.inode (s.file f).ip).valid = true)
    (size : UInt32) : Ready (s.resize (s.file f).ip size) f := by
  have hin := s.resize_inode (s.file f).ip size
  refine ⟨h.inode, ?_, ?_, ?_, fun _ => ?_⟩
  · exact hin ▸ h.ref
  · exact hin ▸ h.lock
  · rw [State.inumOf_resize, State.resize_disk, ← State.inumOf, update_self, h.copy hv]
    exact h.type
  · rw [State.inumOf_resize, State.resize_disk, ← State.inumOf, update_self]
    exact congrArg Inode.d hin

theorem State.contents_resize (s : State Pid) (f : FileId) (size : UInt32) :
    (s.resize (s.file f).ip size).contents f = bytes (s.data (s.inumOf f)) 0 size.toNat := by
  rw [State.contents, State.inumOf_resize, State.resize_disk, ← State.inumOf,
    update_self]
  rfl

/-- **A piece that fits** is written. -/
theorem Ready.write_some (h : Ready s f) (hsrc : src.length < 2 ^ 32)
    (hfits : Fits s f src.length) :
    ∃ t, s.write f src = (some (UInt32.ofNat src.length), t) ∧ Written s t f src := by
  set u := s.read (s.file f).ip with hu
  set n := UInt32.ofNat src.length with hn
  have hlen : n.toNat = src.length := toNat_ofNat_of_lt' hsrc
  have hend := toNat_end hsrc hfits.2
  have hsize := s.length_contents f
  have hdata : u.data (u.inumOf f) = s.data (s.inumOf f) := by rw [hu, State.inumOf_read]; rfl
  have hdisk : u.disk (u.inumOf f) = s.disk (s.inumOf f) := by rw [hu, State.inumOf_read]; rfl
  have hd : (u.inode (s.file f).ip).d = s.disk (s.inumOf f) :=
    congrArg Inode.d (s.read_inode (s.file f).ip)
  have hok : writeiOk (u.inode (s.file f).ip).d.size (s.file f).off n = true := by
    rw [hd]
    exact (writeiOk_iff_fits hsrc).mpr hfits
  -- the contents, whichever way the size goes
  have hsplice : bytes (overwrite (s.data (s.inumOf f)) (s.file f).off.toNat src) 0
      (max (s.disk (s.inumOf f)).size.toNat ((s.file f).off.toNat + src.length)) =
        splice (s.contents f) (s.file f).off.toNat src :=
    bytes_overwrite (hfits.1.trans hsize.le)
  unfold State.write
  by_cases hg : 0 < n ∧ (u.inode (s.file f).ip).d.size < (s.file f).off + n
  · refine ⟨_, congrArg₂ Prod.mk ?_ rfl, ?_⟩
    · rw [← hu, State.writei_grows hok hg]
    rw [← hu, State.writei_grows hok hg]
    refine .advance (t := (u.setData (u.inumOf f) _).resize (s.file f).ip _)
      ((h.read.setData _ _).resize ?_ _) rfl
      ((State.inumOf_resize (u.setData _ _) f _).trans (s.inumOf_read f))
      ((State.disk_resize (u.setData _ _) f _).trans (congrArg (Fields.setSize · _) hd)) ?_ hlen hend
    · exact congrArg Inode.valid (s.read_inode (s.file f).ip)
    · have hlt : (s.disk (s.inumOf f)).size.toNat < (s.file f).off.toNat + src.length := by
        rw [← hend, ← hd]
        exact hg.2
      refine (State.contents_resize (u.setData _ _) f _).trans ?_
      rw [hend, ← hsplice, max_eq_right hlt.le, ← hdata]
      exact congrArg (bytes · 0 _) (update_self ..)
  · refine ⟨_, congrArg₂ Prod.mk ?_ rfl, ?_⟩
    · rw [← hu, State.writei_inside hok hg]
    rw [← hu, State.writei_inside hok hg]
    refine .advance (t := u.setData (u.inumOf f) _) (h.read.setData _ _) rfl (s.inumOf_read f)
      ?_ ?_ hlen hend
    · exact (congrArg s.disk (s.inumOf_read f)).trans
        (congrArg (fun t => (s.disk (s.inumOf f)).setSize (s.disk t).size) (s.inumOf_read f).symm)
    have hle : (s.file f).off.toNat + src.length ≤ (s.disk (s.inumOf f)).size.toNat := by
      rcases Nat.eq_zero_or_pos src.length with hz | hpos
      · rw [hz]
        exact hfits.1.trans hsize.le
      · rw [← hend, ← hd]
        exact not_lt.mp fun hlt => hg
          ⟨lt_iff_toNat_lt.mpr (hpos.trans_eq hlen.symm), hlt⟩
    rw [State.contents_setData, hdisk, ← hsplice, max_eq_left hle, ← hdata]
    rfl

end Written

/-! ### Reading -/

section Read

variable {s : State Pid} {f : FileId} {p : Pid} {n : UInt32}

/-- **The locked section of `fileread`**: `readi` at the offset of the file, and the offset
moves by what has been read. -/
def State.fetch (s : State Pid) (f : FileId) (n : UInt32) : Option Str × State Pid :=
  let r := (readiLen (s.disk (s.inumOf f)).size (s.file f).off n).map fun m =>
    bytes (s.data (s.inumOf f)) (s.file f).off.toNat m.toNat
  (r, (s.read (s.file f).ip).advance f (s.file f).off (UInt32.ofNat (r.getD []).length))

theorem State.fetch_fst (s : State Pid) (f : FileId) (n : UInt32) : ∃ k, (s.fetch f n).1.getD [] =
    ((s.contents f).drop (s.file f).off.toNat).take k := by
  by_cases h : (s.disk (s.inumOf f)).size < (s.file f).off ∨ (s.file f).off + n < (s.file f).off
  · refine ⟨0, ?_⟩
    rw [State.fetch, readiLen, if_pos h]
    rfl
  · refine ⟨n.toNat, ?_⟩
    rw [State.fetch, readiLen_map h]
    rfl

/-- **What is read** comes next in the file. -/
theorem Ready.written_fetch (h : Ready s f) (hoff : (s.file f).off.toNat ≤ (s.contents f).length) :
    Written s (s.fetch f n).2 f ((s.fetch f n).1.getD []) := by
  obtain ⟨k, hk⟩ := s.fetch_fst f n
  set d := (s.fetch f n).1.getD []
  have hd : (s.file f).off.toNat + d.length ≤ (s.contents f).length := by
    rw [hk, length_take, length_drop]
    omega
  have hsize : (s.contents f).length < 2 ^ 32 := by
    rw [State.length_contents]
    exact toNat_lt _
  have hlen : (UInt32.ofNat d.length).toNat = d.length :=
    toNat_ofNat_of_lt' (by change d.length < 2 ^ 32; omega)
  have hc : (s.read (s.file f).ip).contents f =
      splice (s.contents f) (s.file f).off.toNat d := by
    rw [h.written_read.contents, splice_nil, hk, splice_self]
  have hend : ((s.file f).off + UInt32.ofNat d.length).toNat =
      (s.file f).off.toNat + d.length := by
    rw [UInt32.toNat_add, hlen]
    exact Nat.mod_eq_of_lt (by omega)
  exact .advance (s := s) h.read rfl h.written_read.inum h.written_read.disk hc hlen hend

variable [DecidableEq Pid]

/-- **`fileread`** of an open file. -/
theorem Ready.exec_fileread (h : Ready s f) (hr : (s.file f).readable = true) :
    (fileread p f n).exec handle s = .ok (s.fetch f n) := by
  have hin := s.read_inode (s.file f).ip
  have hread : (readi p (s.file f).ip (s.file f).off n).exec handle
      ((s.read (s.file f).ip).lockBy p (s.file f).ip) =
      .ok ((s.fetch f n).1, (s.read (s.file f).ip).lockBy p (s.file f).ip) := by
    unfold readi
    rw [exec_op (o := .fields (s.file f).ip) rfl, State.lockBy_inode, hin, if_neg]
    · refine Prog.exec_perform ?_
      change Effect.ok ((readiLen (((s.read (s.file f).ip).lockBy p _).inode _).d.size _ _).map _,
        _) = _
      rw [State.lockBy_inode, hin]
      rfl
    · rw [← State.inumOf, h.type]
      decide
  have hadv : (advance f (s.file f).off
      (UInt32.ofNat ((s.fetch f n).1.getD []).length)).exec handle
      ((s.read (s.file f).ip).lockBy p (s.file f).ip) =
      .ok ((), (s.fetch f n).2.lockBy p (s.file f).ip) := by
    rw [exec_advance, State.fetch, State.advance, State.advance]
    split <;> rfl
  have hinode : (s.fetch f n).2.inode (s.file f).ip = _ :=
    (congrFun (congrArg State.inode (State.advance_eq ..)) _).trans hin
  have hunlock : (iunlock p (s.file f).ip).exec handle ((s.fetch f n).2.lockBy p (s.file f).ip) =
      .ok ((), (s.fetch f n).2) :=
    exec_unlockBy (hinode ▸ h.lock) (hinode ▸ h.ref)
  have hfile : handle (.file f) ((s.read (s.file f).ip).lockBy p (s.file f).ip) =
      .ok (s.file f, (s.read (s.file f).ip).lockBy p (s.file f).ip) := rfl
  unfold fileread
  rw [exec_op (o := .file f) rfl, if_neg (by rw [hr]; decide), if_pos h.inode,
    Prog.exec_bind_ok (h.exec_ilock rfl), exec_op hfile, Prog.exec_bind_ok hread,
    Prog.exec_bind_ok hadv, Prog.exec_bind_ok hunlock]
  rfl

end Read

/-! ### A file -/

/-- A file system with one open file of a given size, with the offset at its end. -/
def fileAtEnd (size : UInt32) : State ℕ := { bootState with
  disk := update bootState.disk 2 ⟨T_FILE, 0, 0, 1, size⟩
  inode := update bootState.inode 1 ⟨ROOTDEV, 2, 1, none, true, ⟨T_FILE, 0, 0, 1, size⟩⟩
  file := update bootState.file 0 ⟨.inode, 1, true, true, 0, 1, size⟩ }

theorem ready_fileAtEnd (size : UInt32) : Ready (fileAtEnd size) 0 :=
  ⟨rfl, le_rfl, rfl, rfl, fun _ => rfl⟩

end Xv6.Fs
