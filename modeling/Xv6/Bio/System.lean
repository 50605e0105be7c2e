import Xv6.Bio.Cache
import Xv6.Log.Commit
import Xv6.Log.Protocol

/-!
# The buffer cache and the log together

The buffer cache with the processes that use it as the file system does. Any
process may read blocks. One that is between `begin_op` and `end_op` may also
change a buffer it has read, and then hands it to `log_write` before it gives it
back. The last `end_op` runs `commit()`, which goes through the same cache as
everybody else: `write_log` copies the changed buffers to the blocks of the log,
`write_head` writes the header, `install_trans` copies the blocks of the log to
their home locations.

The protocol of the log is that of `Xv6.Log`; a step of the system that is a step
of the log does what `Xv6.Log.exec` does. Its steps of `commit()` are single
actions there, and consist of several calls to the cache here; how far the current
one is is `Xv6.Bio.Sub`.
-/

namespace Xv6.Bio

open Lib Log

/-- The number of log blocks, as `mkfs` lays out the disk. -/
def nlog : ℕ := LOGSIZE

/-- How far the process in `commit()` is with the current block. -/
inductive Sub where
  /-- About to read the first buffer. -/
  | pre
  /-- The first buffer has been read. -/
  | one (i : Slot)
  /-- Both buffers have been read, in this order. -/
  | two (i j : Slot)
  /-- The one has been copied to the other, or the header has been filled in. -/
  | copied (src dst : Slot)
  /-- The copy has been written to the disk. -/
  | written (src dst : Slot)
  /-- One buffer is left to be given back. -/
  | last (dst : Slot)
  /-- Both buffers have been given back. -/
  | done
  deriving DecidableEq

/-- The buffer cache, `struct log`, and the local variables of `commit()`. -/
structure Sys (Pid : Type) where
  cache : Cache Pid
  log : Log.St Pid
  /-- `log.dev`. -/
  dev : ℕ
  /-- `log.start`. -/
  start : ℕ
  sub : Sub

/-- What can happen. -/
inductive Act (Pid : Type) where
  | bread (p : Pid) (k : Key)
  | brelse (p : Pid) (i : Slot)
  /-- The next step of a call to the cache. -/
  | next (p : Pid)
  /-- A process in an operation changes a buffer for block `k`. -/
  | modify (p : Pid) (i : Slot) (k : Key) (x : Block)
  | beginOp (p : Pid)
  /-- The tests of `log_write`. -/
  | logWrite (p : Pid) (i : Slot)
  /-- The critical section of `log_write`. -/
  | logAppend (p : Pid) (i : Slot)
  | endOp (p : Pid)
  /-- The next step of `commit()` that is not inside a call to the cache. -/
  | commit (p : Pid)
  | wake (p : Pid)

/-- A block of the log, its header included. -/
def Sys.InLog {Pid : Type} (s : Sys Pid) (k : Key) : Prop :=
  k.1 = s.dev ∧ s.start ≤ k.2 ∧ k.2 < s.start + nlog

instance {Pid : Type} (s : Sys Pid) (k : Key) : Decidable (s.InLog k) :=
  inferInstanceAs (Decidable (_ ∧ _))

/-- A block that operations change: on the device of the log and outside of the
log. -/
def Sys.Home {Pid : Type} (s : Sys Pid) (k : Key) : Prop :=
  k.1 = s.dev ∧ (k.2 < s.start ∨ s.start + nlog ≤ k.2)

instance {Pid : Type} (s : Sys Pid) (k : Key) : Decidable (s.Home k) :=
  inferInstanceAs (Decidable (_ ∧ _))

variable {Pid : Type} [DecidableEq Pid]

/-- The process may call the cache: it is in no other call and not in
`commit()`. -/
def Sys.Ready (s : Sys Pid) (p : Pid) : Prop :=
  s.cache.pc p = .idle ∧ (s.log.pc p = .idle ∨ s.log.pc p = .inOp)

instance (s : Sys Pid) (p : Pid) : Decidable (s.Ready p) :=
  inferInstanceAs (Decidable (_ ∧ _))

/-- What a call of `commit()` to the cache returns to: `bread` the buffer it has
locked, `brelse` nothing. -/
def Sub.ret (sub : Sub) : Pc → Sub
  | .reading _ i => match sub with
    | .pre => .one i
    | .one j => .two j i
    | sub => sub
  | .releasing _ => match sub with
    | .written _ dst => .last dst
    | .last _ => .done
    | sub => sub
  | _ => sub

/-- `commit()` is done with the current step. -/
def Sys.advance (s : Sys Pid) (p : Pid) (ph : Phase) : Sys Pid :=
  { s with log := Log.commit s.log p ph, sub := .pre }

/-- The body of the loops of `write_log` and `install_trans`: block `a` is read
first, and then block `b`; `toLog` says that the copy goes from the second to the
first. -/
def copyStep (s : Sys Pid) (p : Pid) (ph : Phase) (a b : ℕ) (toLog : Bool) : Effect (Sys Pid) :=
  match s.sub with
  | .pre => (bget s.cache p (s.dev, a)).map fun c => { s with cache := c }
  | .one _ => (bget s.cache p (s.dev, b)).map fun c => { s with cache := c }
  | .two i j =>
    let src := if toLog then j else i
    let dst := if toLog then i else j
    .ok { s with
      cache := modify s.cache dst (s.cache.buf src).data
      sub := .copied src dst }
  | .copied src dst =>
    (bwrite s.cache p dst).map fun c => { s with cache := c, sub := .written src dst }
  | .written src _ => (brelse s.cache p src).map fun c => { s with cache := c }
  | .last dst => (brelse s.cache p dst).map fun c => { s with cache := c }
  | .done => .ok (s.advance p ph)

/-- `write_head`. -/
def headStep (s : Sys Pid) (p : Pid) (ph : Phase) : Effect (Sys Pid) :=
  match s.sub with
  | .pre => (bget s.cache p (s.dev, s.start)).map fun c => { s with cache := c }
  | .one i =>
    .ok { s with
      cache := modify s.cache i
        (Redo.putHeader (s.cache.buf i).data (s.log.lh.map UInt32.ofNat))
      sub := .copied i i }
  | .copied _ i => (bwrite s.cache p i).map fun c => { s with cache := c, sub := .last i }
  | .last i => (brelse s.cache p i).map fun c => { s with cache := c }
  | .done => .ok (s.advance p ph)
  | _ => .disabled

/-- The next step of `commit()`. -/
def commitStep (s : Sys Pid) (p : Pid) (ph : Phase) : Effect (Sys Pid) :=
  match ph with
  | .writeLog tail => match s.log.lh[tail]? with
    | some b => copyStep s p ph (s.start + tail + 1) b true
    | none => .ok (s.advance p ph)
  | .installTrans tail => match s.log.lh[tail]? with
    | some b => copyStep s p ph (s.start + tail + 1) b false
    | none => .ok (s.advance p ph)
  | .writeHead => headStep s p ph
  | .eraseHead => headStep s p ph
  | _ => .ok (s.advance p ph)

/-- What an action does. -/
def exec (s : Sys Pid) : Act Pid → Effect (Sys Pid)
  | .bread p k =>
    if s.Ready p then (bget s.cache p k).map fun c => { s with cache := c } else .disabled
  | .brelse p i =>
    if s.Ready p ∧ s.cache.pending i = false then
      (brelse s.cache p i).map fun c => { s with cache := c }
    else .disabled
  | .next p => (next s.cache p).map fun c => { s with
      cache := c
      sub := match s.log.pc p with
        | .commit _ => s.sub.ret (s.cache.pc p)
        | _ => s.sub }
  | .modify p i k x =>
    if s.cache.pc p = .idle ∧ s.log.pc p = .inOp ∧ (s.cache.buf i).lock = some p ∧
        (s.cache.buf i).key = k ∧ s.Home k then
      .ok { s with cache := modify s.cache i x }
    else .disabled
  | .beginOp p =>
    if s.cache.pc p = .idle then
      (Log.exec s.log (.beginOp p)).map fun l => { s with log := l }
    else .disabled
  | .logWrite p i =>
    if s.cache.pc p = .idle ∧ (s.cache.buf i).lock = some p ∧ s.Home (s.cache.buf i).key then
      (Log.exec s.log (.logWrite p (s.cache.buf i).key.2)).map fun l => { s with log := l }
    else .disabled
  | .logAppend p i =>
    if s.cache.pc p = .idle ∧ (s.cache.buf i).lock = some p ∧ s.Home (s.cache.buf i).key then
      (Log.exec s.log (.logAppend p (s.cache.buf i).key.2)).map fun l => { s with
        log := l
        cache := { s.cache.set i { s.cache.buf i with dirty := true } with
          pending := Function.update s.cache.pending i false } }
    else .disabled
  | .endOp p =>
    if s.cache.pc p = .idle ∧
        ∀ i, (s.cache.buf i).lock = some p → s.cache.pending i = false then
      (Log.exec s.log (.endOp p)).map fun l => { s with log := l }
    else .disabled
  | .commit p => match s.log.pc p with
    | .commit ph => if s.cache.pc p = .idle then commitStep s p ph else .disabled
    | _ => .disabled
  | .wake p => (Log.exec s.log (.wake p)).map fun l => { s with log := l }

/-- The steps of the system: the actions that are possible and do not stop the
kernel. -/
def step (s : Sys Pid) (a : Act Pid) : Option (Sys Pid) := (exec s a).toOption

/-- The system after `binit` and `initlog`, with the log of device `dev` at block
`start`. -/
def boot (dev start : ℕ) (disk : Key → Block) : Sys Pid where
  cache := init disk
  log := Log.init nlog
  dev := dev
  start := start
  sub := .pre

end Xv6.Bio
