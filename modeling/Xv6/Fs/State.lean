import Xv6.Fs.Sys

/-!
# The state of the file system

What the operations of `Xv6.Fs.Op` do to a file system whose inodes have contents:
`data inum` are the bytes of inode `inum`, the first `size` of which count. The
block layer, which keeps them in the blocks of the disk, is left to
`Xv6.Blk`; a run of this file system does not stop for lack of blocks.

A state has both the inodes on the disk, as the log has them, and the inode cache
with its copies. There is one device. The state also has the table of open files,
what the processes have open and where they are, the number of transactions that
are open, and what will be typed at the console.

`Xv6.Fs.step` is a whole system call, performed by one process with no other one
running.
-/

namespace Xv6.Fs

open Lib Function

/-- What a process has to do with the file system. A process that does not run has
neither a working directory nor open files. -/
structure Proc where
  cwd : Option Slot
  ofile : Fd → Option FileId

/-- The open files, the pipes and the processes. -/
structure Tables (Pid : Type) where
  file : FileId → File
  pipe : PipeId → PipeEnds
  proc : Pid → Proc

/-- What `pipeclose` does to the ends of a pipe. -/
def PipeEnds.close (e : PipeEnds) (writable : Bool) : PipeEnds :=
  let e := if writable then { e with writeopen := false } else { e with readopen := false }
  if e.readopen = false ∧ e.writeopen = false then { e with owned := e.owned - 1 } else e

namespace Tables

variable {Pid : Type}

def setFile (T : Tables Pid) (f : FileId) (F : File) : Tables Pid :=
  { T with file := update T.file f F }

def setEnds (T : Tables Pid) (q : PipeId) (E : PipeEnds) : Tables Pid :=
  { T with pipe := update T.pipe q E }

/-- The part of `fileclose` under `ftable.lock`. -/
def fileclose (T : Tables Pid) (f : FileId) : Effect (Option File × Tables Pid) :=
  let ff := T.file f
  if ff.ref < 1 then
    .panic "fileclose"
  else if 0 < ff.ref - 1 then
    .ok (none, T.setFile f (ff.setRef (ff.ref - 1)))
  else
    .ok (some ff, T.setFile f ff.closed)

variable [DecidableEq Pid]

/-- Set a descriptor of a process. -/
def setFd (T : Tables Pid) (p : Pid) (fd : Fd) (f : Option FileId) : Tables Pid :=
  { T with
    proc := update T.proc p
      { T.proc p with ofile := update (T.proc p).ofile fd f } }

def setCwd (T : Tables Pid) (p : Pid) (i : Option Slot) : Tables Pid :=
  { T with proc := update T.proc p { T.proc p with cwd := i } }

/-- What an operation on the tables does. -/
def handle : (o : Op Pid) → Tables Pid → Effect (o.Res × Tables Pid)
  | .filealloc, T => match (List.finRange NFILE).find? fun f => (T.file f).ref = 0 with
    | some f => .ok (some f, T.setFile f ((T.file f).setRef 1))
    | none => .ok (none, T)
  | .filedup f, T =>
    if (T.file f).ref < 1 then
      .panic "filedup"
    else
      .ok ((), T.setFile f ((T.file f).setRef ((T.file f).ref + 1)))
  | .fileclose f, T => T.fileclose f
  | .file f, T => .ok (T.file f, T)
  | .setFile f ip readable writable, T =>
    .ok ((), T.setFile f ((T.file f).asInode ip readable writable))
  | .pipeNew q, T =>
    -- `kalloc` does not hand out a page that is in use
    if (T.pipe q).owned = 0 then .ok ((), T.setEnds q ⟨true, true, 1⟩) else .disabled
  | .setPipe f q readable writable, T =>
    .ok ((), T.setFile f ((T.file f).asPipe q readable writable))
  | .pipeclose q writable, T => .ok ((), T.setEnds q ((T.pipe q).close writable))
  | .setOff f off, T => .ok ((), T.setFile f ((T.file f).setOff off))
  | .allocproc q, T => if (T.proc q).cwd = none then .ok ((), T) else .disabled
  | .ofile p fd, T => .ok ((T.proc p).ofile fd, T)
  | .setOfile p fd f, T => .ok ((), T.setFd p fd f)
  | .cwd p, T => match (T.proc p).cwd with
    | some i => .ok (i, T)
    | none => .disabled
  | .setCwd p i, T => .ok ((), T.setCwd p i)
  | _, _ => .disabled

end Tables

/-- The state of the file system. -/
structure State (Pid : Type) extends tables : Tables Pid where
  /-- The inodes on the disk. -/
  disk : UInt32 → Fields
  /-- Their contents. -/
  data : UInt32 → ℕ → UInt8
  /-- `sb.ninodes`. -/
  ninodes : UInt32
  /-- The inode cache. -/
  inode : Slot → Inode Pid Fields
  /-- `log.outstanding`. -/
  outstanding : ℤ
  /-- The results of the coming reads of the console. -/
  cons : List (Option Str)

variable {Pid : Type}

/-- Change one entry of the inode cache. -/
def State.set (s : State Pid) (i : Slot) (ip : Inode Pid Fields) : State Pid :=
  { s with inode := update s.inode i ip }

/-- Change the copy of an inode in the cache. -/
def State.setFields (s : State Pid) (i : Slot) (d : Fields) : State Pid :=
  s.set i { s.inode i with d := d }

/-- `iupdate`: copy an inode from the cache to the disk. -/
def State.iupdate (s : State Pid) (i : Slot) : State Pid :=
  { s with disk := update s.disk (s.inode i).inum (s.inode i).d }

/-- The bytes of an inode from an offset on. -/
def bytes (f : ℕ → UInt8) (off n : ℕ) : Str := (List.range n).map fun k => f (off + k)

/-- Overwrite bytes from an offset on. -/
def overwrite (f : ℕ → UInt8) (off : ℕ) (src : Str) : ℕ → UInt8 := fun k =>
  if off ≤ k ∧ k < off + src.length then src.getD (k - off) 0 else f k

/-- The tests of `readi`, and how many bytes it reads. -/
def readiLen (size off n : UInt32) : Option UInt32 :=
  if size < off ∨ off + n < off then none
  else some (if size < off + n then size - off else n)

/-- The tests of `writei`. -/
def writeiOk (size off n : UInt32) : Bool :=
  ¬(size < off ∨ off + n < off) ∧ ¬(MAXFILE * BSIZE < (off + n).toNat)

/-- `writei` for an inode that is not a device. -/
def State.writei (s : State Pid) (i : Slot) (off : UInt32) (src : Str) :
    Option UInt32 × State Pid :=
  let ip := s.inode i
  let n := UInt32.ofNat src.length
  if writeiOk ip.d.size off n then
    let s := { s with
      data := update s.data ip.inum (overwrite (s.data ip.inum) off.toNat src) }
    (some n, if 0 < n ∧ ip.d.size < off + n then
      (s.setFields i (ip.d.setSize (off + n))).iupdate i else s)
  else
    (none, s)

/-- `iget`. -/
def State.iget (s : State Pid) (dev inum : UInt32) : Effect (Slot × State Pid) :=
  match Xv6.iget s.inode dev inum with
  | some (i, c) => .ok (i, { s with inode := c })
  | none => .panic "iget: no inodes"

variable [DecidableEq Pid]

/-- What an operation does. -/
def handle : (o : Op Pid) → State Pid → Effect (o.Res × State Pid)
  | .panic msg, _ => .panic msg
  | .iget dev inum, s => s.iget dev inum
  | .idup i, s => .ok ((), s.set i { s.inode i with ref := (s.inode i).ref + 1 })
  | .ref i, s => .ok ((s.inode i).ref, s)
  | .decref i, s => .ok ((), s.set i { s.inode i with ref := (s.inode i).ref - 1 })
  | .acquiresleep p i, s =>
    if (s.inode i).lock = none then
      .ok ((), s.set i { s.inode i with lock := some p })
    else
      .disabled
  | .releasesleep i, s => .ok ((), s.set i { s.inode i with lock := none })
  | .holdingsleep p i, s => .ok (decide ((s.inode i).lock = some p), s)
  | .ids i, s => .ok (((s.inode i).dev, (s.inode i).inum), s)
  | .valid i, s => .ok ((s.inode i).valid, s)
  | .fields i, s => .ok ((s.inode i).d, s)
  | .load i, s =>
    .ok ((), s.set i { s.inode i with d := s.disk (s.inode i).inum, valid := true })
  | .setType i type, s => .ok ((), s.setFields i ((s.inode i).d.setType type))
  | .setDev i major minor, s => .ok ((), s.setFields i ((s.inode i).d.setDev major minor))
  | .setNlink i nlink, s => .ok ((), s.setFields i ((s.inode i).d.setNlink nlink))
  | .invalidate i, s => .ok ((), s.set i { s.inode i with valid := false })
  | .iupdate i, s => .ok ((), s.iupdate i)
  | .itrunc i, s => .ok ((), (s.setFields i ((s.inode i).d.setSize 0)).iupdate i)
  | .readi i off n, s =>
    .ok ((readiLen (s.inode i).d.size off n).map fun m =>
      bytes (s.data (s.inode i).inum) off.toNat m.toNat, s)
  | .writei i off src, s => .ok (s.writei i off src)
  | .ninodes, s => .ok (s.ninodes, s)
  | .ialloc inum type, s =>
    if (s.disk inum).type = 0 then
      .ok (true, { s with disk := update s.disk inum ⟨type, 0, 0, 0, 0⟩ })
    else
      .ok (false, s)
  | .consoleread n, s => match s.cons with
    | [] => .disabled
    | c :: cs => .ok (c.map (·.take n.toNat), { s with cons := cs })
  | .beginOp, s => .ok ((), { s with outstanding := s.outstanding + 1 })
  | .endOp, s => .ok ((), { s with outstanding := s.outstanding - 1 })
  | o, s => (Tables.handle o s.tables).map fun x => (x.1, { s with tables := x.2 })

/-- A system call of a process that runs: it performs the whole call. -/
def call (s : State Pid) (a : Pid × Call Pid) : Effect (State Pid) :=
  if (s.proc a.1).cwd = none then .disabled else ((a.2.prog a.1).exec handle s).map (·.2)

/-- A system call as a step. -/
def step (s : State Pid) (a : Pid × Call Pid) : Option (State Pid) := (call s a).toOption

end Xv6.Fs
