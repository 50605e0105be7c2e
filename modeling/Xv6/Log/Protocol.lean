import Mathlib.Data.Finset.Card
import Mathlib.Data.Finset.Dedup
import Xv6.Lib.Run
import Xv6.Param

/-!
# The protocol of the log: `begin_op`, `log_write`, `end_op`

The part of `log.c` that says who may write and when: the counters of
`struct log`, the header in memory, and for each process where it stands. The
critical sections under `log.lock` are single actions, and so are the steps of
`commit()`, which runs without the lock; the two tests with which `log_write`
starts are made *before* it takes the lock, so they are an action of their own
(`Xv6.Log.Act.logWrite`) and the append is another
(`Xv6.Log.Act.logAppend`).

`sleep(&log, &log.lock)` gives up the lock and the processor in one step, and a
process that is woken takes the lock again and goes round the loop of `begin_op`,
so between the two it is in `Xv6.Log.Pc.woken`. A process may also be woken by
nobody in the log – `kill` makes a sleeping process runnable – which is
`Xv6.Log.Act.wake`.

What the protocol guarantees is one invariant, `Xv6.Log.Inv`, and everything
else is read off it: an operation in progress keeps `outstanding` positive, a
commit keeps `committing` set, and the two exclude each other.
-/

namespace Xv6.Log

open Lib

/-- The steps of `commit()`, in order; the two loops carry their index `tail`. -/
inductive Phase where
  /-- About to test whether there is anything to commit. -/
  | start
  /-- In `write_log`, about to copy the block `tail` of the header. -/
  | writeLog (tail : ℕ)
  /-- About to write the header, which commits. -/
  | writeHead
  /-- In `install_trans`, about to copy the block `tail` home. -/
  | installTrans (tail : ℕ)
  /-- About to set `log.lh.n` to zero. -/
  | clear
  /-- About to write the empty header. -/
  | eraseHead
  /-- Back in `end_op`, about to clear `log.committing`. -/
  | finish
  deriving DecidableEq, Repr

/-- Where a process stands in the log. -/
inductive Pc where
  /-- Outside any operation. -/
  | idle
  /-- Asleep in `begin_op`. -/
  | sleeping
  /-- Awake in `begin_op`, about to test again. -/
  | woken
  /-- Between `begin_op` and `end_op`. -/
  | inOp
  /-- In `log_write`, past its tests, about to take the lock for block `b`. -/
  | logging (b : ℕ)
  /-- In the `commit()` of its `end_op`. -/
  | commit (ph : Phase)
  deriving DecidableEq, Repr

/-- The process is between its `begin_op` and its `end_op`. -/
def Pc.InOp : Pc → Prop
  | .inOp | .logging _ => True
  | _ => False

/-- The process is running `commit()`. -/
def Pc.InCommit : Pc → Prop
  | .commit _ => True
  | _ => False

instance : DecidablePred Pc.InOp := fun pc => by
  cases pc <;> unfold Pc.InOp <;> infer_instance

/-- `struct log` and the processes. The header in memory is the list of its first
`n` entries, so that `log.lh.n` is its length. -/
structure St (Pid : Type) where
  /-- `log.size`, the number of log blocks, the header's included. -/
  size : ℤ
  /-- How many operations are executing. -/
  outstanding : ℤ
  /-- In `commit()`, please wait. -/
  committing : Bool
  /-- The block numbers of the header in memory. -/
  lh : List ℕ
  /-- Where each process stands. -/
  pc : Pid → Pc

/-- What can happen in the log. -/
inductive Act (Pid : Type) where
  /-- One turn of the loop of `begin_op`. -/
  | beginOp (p : Pid)
  /-- The tests of `log_write` for block `b`. -/
  | logWrite (p : Pid) (b : ℕ)
  /-- The critical section of `log_write` for block `b`. -/
  | logAppend (p : Pid) (b : ℕ)
  /-- The critical section of `end_op`. -/
  | endOp (p : Pid)
  /-- One step of `commit()`. -/
  | commit (p : Pid) (ph : Phase)
  /-- A sleeping process is made runnable from outside the log. -/
  | wake (p : Pid)
  deriving DecidableEq

/-- The loop of `log_write`: the first entry equal to `b` is overwritten by `b`,
and if there is none, `b` is stored after the last entry. -/
def absorb (b : ℕ) : List ℕ → List ℕ
  | [] => [b]
  | x :: xs => if x = b then b :: xs else x :: absorb b xs

/-- The step of `commit()` that follows, with `n` entries in the header. -/
def Phase.next (n : ℕ) : Phase → Phase
  | .start => if 0 < n then .writeLog 0 else .finish
  | .writeLog tail => if tail < n then .writeLog (tail + 1) else .writeHead
  | .writeHead => .installTrans 0
  | .installTrans tail => if tail < n then .installTrans (tail + 1) else .clear
  | .clear => .eraseHead
  | .eraseHead => .finish
  | .finish => .finish

variable {Pid : Type} [DecidableEq Pid]

/-- Move one process. -/
def St.goto (s : St Pid) (p : Pid) (pc : Pc) : St Pid :=
  { s with pc := Function.update s.pc p pc }

/-- `wakeup(&log)`: every process asleep in `begin_op` is made runnable. -/
def St.wakeup (s : St Pid) : St Pid :=
  { s with pc := fun q => if s.pc q = .sleeping then .woken else s.pc q }

/-- One turn of the loop of `begin_op`, under the lock. -/
def beginOp (s : St Pid) (p : Pid) : St Pid :=
  if s.committing then
    s.goto p .sleeping
  else if (s.lh.length : ℤ) + (s.outstanding + 1) * MAXOPBLOCKS > LOGSIZE then
    -- this operation might exhaust the log space
    s.goto p .sleeping
  else
    { s with outstanding := s.outstanding + 1 }.goto p .inOp

/-- The tests of `log_write`, made without the lock. -/
def logWrite (s : St Pid) (p : Pid) (b : ℕ) : Effect (St Pid) :=
  if (LOGSIZE : ℤ) ≤ s.lh.length ∨ s.size - 1 ≤ s.lh.length then
    .panic "too big a transaction"
  else if s.outstanding < 1 then
    .panic "log_write outside of trans"
  else
    .ok (s.goto p (.logging b))

/-- The critical section of `log_write`. -/
def logAppend (s : St Pid) (p : Pid) (b : ℕ) : St Pid :=
  { s with lh := absorb b s.lh }.goto p .inOp

/-- The first critical section of `end_op`. -/
def endOp (s : St Pid) (p : Pid) : Effect (St Pid) :=
  let s := { s with outstanding := s.outstanding - 1 }
  if s.committing then
    .panic "log.committing"
  else if s.outstanding = 0 then
    .ok ({ s with committing := true }.goto p (.commit .start))
  else
    -- `begin_op` may be waiting for log space
    .ok (s.wakeup.goto p .idle)

/-- One step of `commit()`; the last one is the second critical section of
`end_op`. What the steps do to the disk is not the protocol's business. -/
def commit (s : St Pid) (p : Pid) (ph : Phase) : St Pid :=
  match ph with
  | .clear => { s with lh := [] }.goto p (.commit .eraseHead)
  | .finish => { s with committing := false }.wakeup.goto p .idle
  | ph => s.goto p (.commit (ph.next s.lh.length))

/-- What an action does. -/
def exec (s : St Pid) : Act Pid → Effect (St Pid)
  | .beginOp p =>
      if s.pc p = .idle ∨ s.pc p = .woken then .ok (beginOp s p) else .disabled
  | .logWrite p b => if s.pc p = .inOp then logWrite s p b else .disabled
  | .logAppend p b => if s.pc p = .logging b then .ok (logAppend s p b) else .disabled
  | .endOp p => if s.pc p = .inOp then endOp s p else .disabled
  | .commit p ph => if s.pc p = .commit ph then .ok (commit s p ph) else .disabled
  | .wake p => if s.pc p = .sleeping then .ok (s.goto p .woken) else .disabled

/-- The steps of the protocol: the actions that are possible and do not stop the
kernel. -/
def step (s : St Pid) (a : Act Pid) : Option (St Pid) := (exec s a).toOption

/-- The log after `initlog`, with `log.size` as the superblock has it: nothing
logged and nobody in an operation. -/
def init (size : ℤ) : St Pid where
  size := size
  outstanding := 0
  committing := false
  lh := []
  pc := fun _ => .idle

end Xv6.Log
