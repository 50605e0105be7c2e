import Xv6.Bio.Pool

/-!
# The disk driver

`ide.c`, with the buffers of `bio.c` that it is called for and the disk it works with. Any
number of processes use the buffers, each of which they have locked before
(`Xv6.Ide.User`), and call `iderw` for them. The queue `idequeue` is the list of its buffers.
What is done under `idelock` is one step: the part of `iderw` that enters the buffer into the
queue, each round of its loop, and the interrupt handler.

The controller of the disk (`Xv6.Ide.Ctl`) has at most one command. At some time it has carried
it out, and at some later time its interrupt is taken. The status that `idewait` sees is
whether there has been an error; a read that fails has read nothing.

A buffer has the two disks that `b->dev & 1` selects from; no other devices exist.
-/

namespace Xv6.Ide

open Lib Function Bio

/-! ### The buffers -/

/-- Where a process stands in `bget` and `brelse`. -/
inductive Pos where
  /-- Between two calls. -/
  | idle
  /-- In `bget`, about to take the sleep-lock of the buffer. -/
  | getting (i : Slot)
  /-- In `brelse`, about to decrement `refcnt`. -/
  | releasing (i : Slot)
  deriving DecidableEq

/-- The buffers, and the processes that use them. -/
structure Bufs (Pid : Type) extends Pool Pid where
  pos : Pid → Pos

/-- What a process does with the buffers, besides having them read and written. -/
inductive User (Pid : Type) where
  | bget (p : Pid) (k : Key)
  /-- Take the sleep-lock of the buffer. -/
  | acquire (p : Pid)
  /-- Change the contents of a buffer. -/
  | modify (p : Pid) (i : Slot) (f : Block → Block)
  /-- `b->flags |= B_DIRTY`, in `bwrite` and in `log_write`. -/
  | dirty (p : Pid) (i : Slot)
  | brelse (p : Pid) (i : Slot)
  /-- The end of `brelse`, under `bcache.lock`. -/
  | release (p : Pid)

variable {Pid : Type}

/-- The process that does it. -/
def User.pid : User Pid → Pid
  | .bget p _ | .acquire p | .modify p _ _ | .dirty p _ | .brelse p _ | .release p => p

variable [DecidableEq Pid]

namespace Bufs

def set (c : Bufs Pid) (i : Slot) (b : Buf Pid) : Bufs Pid :=
  { c with buf := update c.buf i b }

def goto (c : Bufs Pid) (p : Pid) (x : Pos) : Bufs Pid :=
  { c with pos := update c.pos p x }

/-- `bget`, up to the sleep-lock. -/
def bget (c : Bufs Pid) (p : Pid) (k : Key) : Effect (Bufs Pid) :=
  (c.toPool.bget k).map fun x => { c with toPool := x.2 }.goto p (.getting x.1)

/-- The end of `brelse`. -/
def release (c : Bufs Pid) (p : Pid) (i : Slot) : Bufs Pid :=
  { c with toPool := c.toPool.release i }.goto p .idle

/-- What a process does with the buffers. -/
def exec (c : Bufs Pid) : User Pid → Effect (Bufs Pid)
  | .bget p k => if c.pos p = .idle ∧ k.1 < 2 then c.bget p k else .disabled
  | .acquire p => match c.pos p with
    | .getting i =>
      if (c.buf i).lock = none then
        .ok ((c.set i { c.buf i with lock := some p }).goto p .idle)
      else .disabled
    | _ => .disabled
  | .modify p i f =>
    if c.pos p = .idle ∧ (c.buf i).lock = some p then
      .ok (c.set i { c.buf i with data := f (c.buf i).data })
    else .disabled
  | .dirty p i =>
    if c.pos p = .idle ∧ (c.buf i).lock = some p then
      .ok (c.set i { c.buf i with dirty := true })
    else .disabled
  | .brelse p i =>
    if c.pos p = .idle then
      if (c.buf i).lock = some p then
        .ok ((c.set i { c.buf i with lock := none }).goto p (.releasing i))
      else .panic "brelse"
    else .disabled
  | .release p => match c.pos p with
    | .releasing i => .ok (c.release p i)
    | _ => .disabled

/-- The buffers after `binit`. -/
def init : Bufs Pid where
  toPool := .init
  pos := fun _ => .idle

end Bufs

/-- Nothing is to be done for the buffer: `(flags & (B_VALID|B_DIRTY)) == B_VALID`. -/
def Done (b : Buf Pid) : Prop := b.valid = true ∧ b.dirty = false

instance : DecidablePred (@Done Pid) := fun _ => inferInstanceAs (Decidable (_ ∧ _))

/-! ### The driver -/

/-- The controller of the disk. -/
inductive Ctl where
  | idle
  /-- A command is running for a sector: to write what it has been given, or to read. -/
  | busy (k : Key) (out : Option Block)
  /-- The command is done, and its interrupt has been raised. -/
  | done (err : Bool) (inp : Block)

/-- Where a process stands in `iderw`. -/
inductive Drv where
  /-- After the tests, about to acquire `idelock`. -/
  | entering (i : Slot)
  /-- Asleep in the loop. -/
  | asleep (i : Slot)
  /-- Awake in the loop, about to acquire `idelock` again. -/
  | awake (i : Slot)
  deriving DecidableEq

/-- The buffer that `iderw` has been called for. -/
def Drv.slot : Drv → Slot
  | .entering i | .asleep i | .awake i => i

/-- The system. -/
structure St (Pid : Type) extends Bufs Pid where
  idequeue : List Slot
  ctl : Ctl
  disk : Key → Block
  havedisk1 : Bool
  drv : Pid → Option Drv

/-- What can happen. -/
inductive Act (Pid : Type) where
  | user (u : User Pid)
  /-- Call `iderw`. -/
  | iderw (p : Pid) (i : Slot)
  /-- Acquire `idelock` and enter the buffer into the queue. -/
  | enter (p : Pid)
  /-- A process that is asleep is made to run, for whatever reason. -/
  | rouse (p : Pid)
  /-- The next round of the loop. -/
  | loop (p : Pid)
  /-- The disk has carried out its command, with or without an error. -/
  | complete (err : Bool)
  /-- The interrupt is taken. -/
  | intr

namespace St

/-- The sector of the disk that a block is at: `b->dev & 1`, and `b->blockno`. -/
def sector (k : Key) : Key := (k.1 % 2, k.2)

/-- What `idestart` tells the controller: to write what is in a dirty buffer, or to read. -/
def command (b : Buf Pid) : Ctl :=
  .busy (sector b.key) (if b.dirty then some b.data else none)

/-- `idestart`. It waits while the disk is busy. -/
def idestart (s : St Pid) (i : Slot) : Effect (St Pid) :=
  if (s.buf i).key.2 ≥ FSSIZE then .panic "incorrect blockno"
  else match s.ctl with
    | .busy _ _ => .disabled
    | _ => .ok { s with ctl := command (s.buf i) }

/-- `wakeup`. -/
def wakeup (drv : Pid → Option Drv) (i : Slot) : Pid → Option Drv := fun p =>
  if drv p = some (.asleep i) then some (.awake i) else drv p

/-- What `ideintr` makes of the buffer: `idewait(1)` returns -1 if there has been an error. -/
def finish (b : Buf Pid) (err : Bool) (inp : Block) : Buf Pid :=
  let b := if b.dirty = false ∧ err = false then { b with data := inp } else b
  { b with valid := true, dirty := false }

/-- `if(idequeue != 0) idestart(idequeue)`. -/
def startNext (s : St Pid) : Effect (St Pid) :=
  match s.idequeue with
  | [] => .ok s
  | i :: _ => s.idestart i

/-- `ideintr`, with what the disk has answered. -/
def ideintr (s : St Pid) (err : Bool) (inp : Block) : Effect (St Pid) :=
  match s.idequeue with
  | [] => .ok { s with ctl := .idle }
  | i :: q => startNext { s with
      toBufs := s.toBufs.set i (finish (s.buf i) err inp)
      idequeue := q
      ctl := .idle
      drv := wakeup s.drv i }

/-- One round of the loop of `iderw`: return, or go to sleep. -/
def round (s : St Pid) (p : Pid) (i : Slot) : St Pid :=
  { s with
    drv := update s.drv p (if Done (s.buf i) then none else some (.asleep i)) }

/-- `if(idequeue == b) idestart(b)`. -/
def startFirst (s : St Pid) (i : Slot) : Effect (St Pid) :=
  if s.idequeue.head? = some i then s.idestart i else .ok s

/-- What the disk does when it carries out a command. -/
def serve (s : St Pid) (k : Key) (err : Bool) : Option Block → St Pid
  | some out => { s with disk := update s.disk k out, ctl := .done err (s.disk k) }
  | none => { s with ctl := .done err (s.disk k) }

/-- What an action does. -/
def exec (s : St Pid) : Act Pid → Effect (St Pid)
  | .user u =>
    if s.drv u.pid = none then
      (s.toBufs.exec u).map fun c => { s with toBufs := c }
    else .disabled
  | .iderw p i =>
    if s.drv p = none ∧ s.pos p = .idle then
      if (s.buf i).lock ≠ some p then .panic "iderw: buf not locked"
      else if Done (s.buf i) then .panic "iderw: nothing to do"
      else if (s.buf i).key.1 ≠ 0 ∧ s.havedisk1 = false then
        .panic "iderw: ide disk 1 not present"
      else .ok { s with drv := update s.drv p (some (.entering i)) }
    else .disabled
  | .enter p => match s.drv p with
    | some (.entering i) =>
      (startFirst { s with idequeue := s.idequeue ++ [i] } i).map fun s => s.round p i
    | _ => .disabled
  | .rouse p => match s.drv p with
    | some (.asleep i) => .ok { s with drv := update s.drv p (some (.awake i)) }
    | _ => .disabled
  | .loop p => match s.drv p with
    | some (.awake i) => .ok (s.round p i)
    | _ => .disabled
  | .complete err => match s.ctl with
    | .busy k out => .ok (s.serve k err out)
    | _ => .disabled
  | .intr => match s.ctl with
    | .done err inp => s.ideintr err inp
    | _ => .disabled

def step (s : St Pid) (a : Act Pid) : Option (St Pid) := (s.exec a).toOption

/-- The system after `binit` and `ideinit`, with disks of some contents. -/
def init (disk : Key → Block) (havedisk1 : Bool) : St Pid where
  toBufs := Bufs.init
  idequeue := []
  ctl := .idle
  disk := disk
  havedisk1 := havedisk1
  drv := fun _ => none

end St

/-! ### Runs -/

/-- Contents of the disks. -/
def numbered : Key → Block := fun k _ => UInt8.ofNat k.2

/-- Process 0 reads block 5 of disk 1. While the disk is at it, process 1 has block 6 written, and
the disk reports an error for that or not. -/
def twoRequests (err : Bool) : List (Act ℕ) :=
  [.user (.bget 0 (1, 5)), .user (.acquire 0), .user (.bget 1 (1, 6)), .user (.acquire 1),
    .user (.modify 1 1 fun _ _ => 7), .user (.dirty 1 1), .iderw 0 0, .enter 0, .iderw 1 1, .enter 1,
    .complete false, .intr, .complete err, .loop 0, .intr, .loop 1]

end Xv6.Ide
