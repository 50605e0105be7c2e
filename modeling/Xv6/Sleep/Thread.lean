import Mathlib.Logic.Function.Basic
import Xv6.Lib.Run

/-!
# `sleep` and `wakeup`

`sleep(chan, lk)` and `wakeup(chan)` of `proc.c`, for processes that share some data
protected by one spinlock `lk`. Taking and releasing a lock – `lk` or `ptable.lock` –
is one action each, so everything that can happen between two of them does happen in
some run: a process that is in `sleep` and has released `lk` but is not yet
`SLEEPING`, a `wakeup` that waits for `ptable.lock`, a process that has been woken up
and waits for `lk`.

What a process does between two such points is given by its code, a function from
locations to instructions (`Xv6.Sleep.Code`). An instruction takes or releases `lk`,
changes the data, or calls `wakeup` or `sleep`; changing the data may depend on
whether the process has been killed, which any process may be at any time. A process
at `Xv6.Sleep.Instr.rest` is outside of the code, until it calls one of its entry
points.
-/

namespace Xv6.Sleep

open Lib Function

/-- One instruction; `k` is where the code goes on. -/
inductive Instr (Chan D L : Type) where
  /-- `acquire(lk)` -/
  | acquire (k : L)
  /-- `release(lk)` -/
  | release (k : L)
  /-- Read and change the data, given whether `killed` is set. -/
  | update (f : Bool → D → D × L)
  /-- `wakeup(chan)` -/
  | wakeup (ch : Chan) (k : L)
  /-- `sleep(chan, lk)` -/
  | sleep (ch : Chan) (k : L)
  /-- Nothing to do until the next call. -/
  | rest

/-- The code of the processes, and the calls that a process at rest may make. -/
structure Code (Pid Chan D L : Type) where
  instr : Pid → L → Instr Chan D L
  calls : Pid → L → L → Bool

/-- Where a process stands in the instruction at its location. -/
inductive Stage where
  /-- Before it. -/
  | run
  /-- In `wakeup`, with `ptable.lock`, about to call `wakeup1`. -/
  | wakeup
  /-- In `wakeup`, about to release `ptable.lock`. -/
  | woke
  /-- In `sleep`, with both locks, about to release `lk`. -/
  | unlock
  /-- In `sleep`, about to become `SLEEPING`. -/
  | doze
  /-- In `sched`; the scheduler is about to release `ptable.lock`. -/
  | sched
  /-- Not running: `SLEEPING`, or `RUNNABLE` after it has been woken up. -/
  | asleep
  /-- Returned from `sched`, about to release `ptable.lock`. -/
  | resume
  /-- At the end of `sleep`, about to take `lk` again. -/
  | relock
  deriving DecidableEq

/-- The data, the two locks and the processes. -/
structure State (Pid Chan D L : Type) where
  data : D
  /-- The process that holds `lk`. -/
  lk : Option Pid
  /-- The process that holds `ptable.lock`, or on behalf of which the scheduler
  holds it. -/
  ptable : Option Pid
  stage : Pid → Stage
  loc : Pid → L
  /-- The channel on which a process is `SLEEPING`. -/
  sleeping : Pid → Option Chan
  killed : Pid → Bool

/-- What can happen. -/
inductive Act (Pid L : Type) where
  /-- A process makes a call. -/
  | call (p : Pid) (l : L)
  /-- A process does the next step. -/
  | next (p : Pid)
  /-- Somebody kills the process. -/
  | kill (p : Pid)

variable {Pid Chan D L : Type} [DecidableEq Pid] [DecidableEq Chan]

/-- Move a process to another location. -/
def State.goto (s : State Pid Chan D L) (p : Pid) (l : L) : State Pid Chan D L :=
  { s with stage := update s.stage p .run, loc := update s.loc p l }

/-- Move a process inside an instruction. -/
def State.enter (s : State Pid Chan D L) (p : Pid) (st : Stage) : State Pid Chan D L :=
  { s with stage := update s.stage p st }

/-- `acquire(lk)`, after which the process goes to `k`. -/
def State.acquire (s : State Pid Chan D L) (p : Pid) (k : L) : Effect (State Pid Chan D L) :=
  match s.lk with
  | none => .ok ({ s with lk := some p }.goto p k)
  | some q => if q = p then .panic "acquire" else .disabled

/-- `acquire(&ptable.lock)`, after which the process is at the next stage. -/
def State.acquirePtable (s : State Pid Chan D L) (p : Pid) (st : Stage) :
    Effect (State Pid Chan D L) :=
  match s.ptable with
  | none => .ok ({ s with ptable := some p }.enter p st)
  | some q => if q = p then .panic "acquire" else .disabled

/-- `release(lk)` -/
def State.release (s : State Pid Chan D L) (p : Pid) : Effect (State Pid Chan D L) :=
  if s.lk = some p then .ok { s with lk := none } else .panic "release"

/-- `release(&ptable.lock)` -/
def State.releasePtable (s : State Pid Chan D L) (p : Pid) : Effect (State Pid Chan D L) :=
  if s.ptable = some p then .ok { s with ptable := none } else .panic "release"

/-- `wakeup1` -/
def State.wakeup1 (s : State Pid Chan D L) (ch : Chan) : State Pid Chan D L :=
  { s with sleeping := fun q => if s.sleeping q = some ch then none else s.sleeping q }

/-- The next step of a process inside `wakeup(ch)`, after which the code goes on at
`k`. -/
def State.inWakeup (s : State Pid Chan D L) (p : Pid) (ch : Chan) (k : L) :
    Effect (State Pid Chan D L) :=
  match s.stage p with
  | .run => s.acquirePtable p .wakeup
  | .wakeup => .ok ((s.wakeup1 ch).enter p .woke)
  | .woke => (s.releasePtable p).map fun s => s.goto p k
  | _ => .disabled

/-- The next step of a process inside `sleep(ch, lk)`. -/
def State.inSleep (s : State Pid Chan D L) (p : Pid) (ch : Chan) (k : L) :
    Effect (State Pid Chan D L) :=
  match s.stage p with
  | .run => s.acquirePtable p .unlock
  | .unlock => (s.release p).map fun s => s.enter p .doze
  | .doze => .ok ({ s with sleeping := update s.sleeping p (some ch) }.enter p .sched)
  | .sched => (s.releasePtable p).map fun s => s.enter p .asleep
  | .asleep => if s.sleeping p = none then s.acquirePtable p .resume else .disabled
  | .resume => (s.releasePtable p).map fun s => s.enter p .relock
  | .relock => s.acquire p k
  | .wakeup | .woke => .disabled

/-- What the actions do. -/
def effect (c : Code Pid Chan D L) (s : State Pid Chan D L) : Act Pid L → Effect (State Pid Chan D L)
  | .call p l => match c.instr p (s.loc p) with
    | .rest => if c.calls p (s.loc p) l then .ok (s.goto p l) else .disabled
    | _ => .disabled
  | .next p => match c.instr p (s.loc p) with
    | .acquire k => s.acquire p k
    | .release k => (s.release p).map fun s => s.goto p k
    | .update f =>
      .ok ({ s with data := (f (s.killed p) s.data).1 }.goto p (f (s.killed p) s.data).2)
    | .wakeup ch k => s.inWakeup p ch k
    | .sleep ch k => s.inSleep p ch k
    | .rest => .disabled
  | .kill p => if s.ptable = none then
      .ok { s with
        killed := update s.killed p true
        sleeping := update s.sleeping p none }
    else .disabled

/-- The system as a partial step function. -/
def step (c : Code Pid Chan D L) (s : State Pid Chan D L) (a : Act Pid L) :
    Option (State Pid Chan D L) :=
  (effect c s a).toOption

/-- The initial state: every process is at rest, and both locks are free. -/
def State.init (d : D) (l : Pid → L) : State Pid Chan D L where
  data := d
  lk := none
  ptable := none
  stage := fun _ => .run
  loc := l
  sleeping := fun _ => none
  killed := fun _ => false

end Xv6.Sleep
