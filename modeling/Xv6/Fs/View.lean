import Xv6.Fs.State

/-!
# The file system without its copies

A more abstract machine for the same programs. It has what the system calls are
about – the inodes with their contents, who refers to them and who has them locked
– and leaves out how the inode cache does it: an inode in memory has no copy of the
fields of the inode on the disk, a change to such a field is a change of the inode
itself, and an entry of the cache that is not in use holds nothing.

`Xv6.Fs.State` simulates it (`Xv6.Fs.simulates_view`) as long as the operations are
performed as they should be (`Xv6.Fs.Needed`): an inode is used by a process that
has a reference to it, and its fields are used after it has been read. What is
missing in between is `iupdate`. The record `dirty` keeps the inodes that have been
changed in memory and not on the disk; where it is empty, the inodes on the disk
are those of the abstract machine, and so are the copies in the cache.
-/

namespace Xv6.Fs

open Lib Function

/-- An entry of the inode cache that is in use. -/
structure Entry (Pid : Type) where
  inum : UInt32
  ref : ℤ
  lock : Option Pid
  valid : Bool

/-- The file system as the system calls see it. -/
structure View (Pid : Type) extends tables : Tables Pid where
  disk : UInt32 → Fields
  data : UInt32 → ℕ → UInt8
  ninodes : UInt32
  inode : Slot → Option (Entry Pid)
  outstanding : ℤ
  cons : List (Option Str)
  /-- The inodes that `iupdate` is to be called for. -/
  dirty : UInt32 → Bool

variable {Pid : Type}

/-- An entry of the inode cache of which the copy is forgotten. -/
def Entry.toInode : Option (Entry Pid) → Inode Pid Unit
  | none => ⟨0, 0, 0, none, false, ()⟩
  | some e => ⟨ROOTDEV, e.inum, e.ref, e.lock, e.valid, ()⟩

namespace View

def set (a : View Pid) (i : Slot) (e : Option (Entry Pid)) : View Pid :=
  { a with inode := update a.inode i e }

/-- The number of references to an entry. -/
def refs (a : View Pid) (i : Slot) : ℤ := match a.inode i with
  | none => 0
  | some e => e.ref

/-- One more reference to inode `t`, at entry `i`. -/
def grab (a : View Pid) (i : Slot) (t : UInt32) : View Pid :=
  a.set i (match a.inode i with
    | none => some ⟨t, 1, none, false⟩
    | some e => some { e with ref := e.ref + 1 })

/-- `iget` may return entry `i` for inode `t`. -/
def CanGrab (a : View Pid) (i : Slot) (t : UInt32) : Prop :=
  (∃ e, a.inode i = some e ∧ e.inum = t) ∨
    a.inode i = none ∧ ∀ j e, a.inode j = some e → e.inum ≠ t

/-- Change an inode. -/
def putDisk (a : View Pid) (t : UInt32) (d : Fields) : View Pid :=
  { a with disk := update a.disk t d }

/-- Mark an inode as changed in memory only, or not. -/
def mark (a : View Pid) (t : UInt32) (b : Bool) : View Pid :=
  { a with dirty := update a.dirty t b }

/-- Change the contents of an inode. -/
def putData (a : View Pid) (t : UInt32) (f : ℕ → UInt8) : View Pid :=
  { a with data := update a.data t f }

/-- `writei` for an inode that is not a device. -/
def writei (a : View Pid) (t : UInt32) (off : UInt32) (src : Str) : Option UInt32 × View Pid :=
  let n := UInt32.ofNat src.length
  if writeiOk (a.disk t).size off n then
    let b := a.putData t (overwrite (a.data t) off.toNat src)
    (some n, if 0 < n ∧ (a.disk t).size < off + n then
      (b.putDisk t ((a.disk t).setSize (off + n))).mark t false else b)
  else
    (none, a)

/-- Do something with an entry that is in use. -/
def use {α : Type} (a : View Pid) (i : Slot) (f : Entry Pid → Effect (α × View Pid)) :
    Effect (α × View Pid) := match a.inode i with
  | none => .disabled
  | some e => f e

/-- Change a field of the inode of an entry. -/
def setFields (a : View Pid) (i : Slot) (g : Fields → Fields) : Effect (Unit × View Pid) :=
  a.use i fun e => .ok ((), (a.putDisk e.inum (g (a.disk e.inum))).mark e.inum true)

def iget (a : View Pid) (inum : UInt32) : Effect (Slot × View Pid) :=
  match igetLoop (fun i => Entry.toInode (a.inode i)) ROOTDEV inum (List.finRange NINODE) none with
  | .hit i => .ok (i, a.grab i inum)
  | .empty i => .ok (i, a.grab i inum)
  | .full => .panic "iget: no inodes"

variable [DecidableEq Pid]

/-- What an operation does. -/
def handle : (o : Op Pid) → View Pid → Effect (o.Res × View Pid)
  | .panic msg, _ => .panic msg
  | .iget _ inum, a => a.iget inum
  | .idup i, a => a.use i fun e => .ok ((), a.set i (some { e with ref := e.ref + 1 }))
  | .ref i, a => a.use i fun e => .ok (e.ref, a)
  | .decref i, a => a.use i fun e =>
    .ok ((), a.set i (if e.ref = 1 then none else some { e with ref := e.ref - 1 }))
  | .acquiresleep p i, a => a.use i fun e =>
    if e.lock = none then .ok ((), a.set i (some { e with lock := some p })) else .disabled
  | .releasesleep i, a => a.use i fun e => .ok ((), a.set i (some { e with lock := none }))
  | .holdingsleep p i, a => a.use i fun e => .ok (decide (e.lock = some p), a)
  | .ids i, a => a.use i fun e => .ok ((ROOTDEV, e.inum), a)
  | .valid i, a => a.use i fun e => .ok (e.valid, a)
  | .fields i, a => a.use i fun e => .ok (a.disk e.inum, a)
  | .load i, a => a.use i fun e => .ok ((), a.set i (some { e with valid := true }))
  | .setType i type, a => a.setFields i fun d => d.setType type
  | .setDev i major minor, a => a.setFields i fun d => d.setDev major minor
  | .setNlink i nlink, a => a.setFields i fun d => d.setNlink nlink
  | .invalidate i, a => a.use i fun e => .ok ((), a.set i (some { e with valid := false }))
  | .iupdate i, a => a.use i fun e => .ok ((), a.mark e.inum false)
  | .itrunc i, a => a.use i fun e =>
    .ok ((), (a.putDisk e.inum ((a.disk e.inum).setSize 0)).mark e.inum false)
  | .readi i off n, a => a.use i fun e =>
    .ok ((readiLen (a.disk e.inum).size off n).map fun m =>
      bytes (a.data e.inum) off.toNat m.toNat, a)
  | .writei i off src, a => a.use i fun e => .ok (a.writei e.inum off src)
  | .ninodes, a => .ok (a.ninodes, a)
  | .ialloc inum type, a =>
    if (a.disk inum).type = 0 then
      .ok (true, a.putDisk inum ⟨type, 0, 0, 0, 0⟩)
    else
      .ok (false, a)
  | .consoleread n, a => match a.cons with
    | [] => .disabled
    | c :: cs => .ok (c.map (·.take n.toNat), { a with cons := cs })
  | .beginOp, a => .ok ((), { a with outstanding := a.outstanding + 1 })
  | .endOp, a => .ok ((), { a with outstanding := a.outstanding - 1 })
  | o, a => (Tables.handle o a.tables).map fun x => (x.1, { a with tables := x.2 })

end View

end Xv6.Fs
