import Mathlib.Data.Int.Notation
import Mathlib.Logic.Function.Basic
import Xv6.Lib.Run

/-!
# Spin locks and the CPUs

`spinlock.c` turns the interrupts of a CPU off while a lock is held: every `acquire` is
a `pushcli` and every `release` a `popcli`, which count on the CPU they run on (`ncli`), and
`intena` keeps whether interrupts were on before the first of them. The lock of the process
table goes further: a process acquires it, calls `sched`, and the scheduler of the
CPU releases it, or switches to another process that does; later the first process goes on
in `sched`, often on another CPU.

Each CPU runs a thread, which is its scheduler or a process. Between its calls of
`pushcli`, `popcli`, `acquire`, `release` and `sched` a thread is at `Xv6.Spin.Pc.code`, and may
make any call next. It can be interrupted whenever interrupts are on, and also between the
instruction of `pushcli` that reads the flags and the one that turns interrupts off. From there
until it returns, what a function does with the CPU's own variables cannot be seen by another
thread, so that it is done in one step here; `locked` and `cpu` of a lock are read and written one at
a time.

`popcli` is called by a thread that called `pushcli` and has not undone it, and an interrupt handler
returns when it has undone whatever it did. Everything else that could go wrong is checked by the
code, and is a `Xv6.Spin.Panic` here. A context that has been saved is resumed once: that a
`RUNNABLE` process does not run is a matter of the process table, where it is proved
(`Xv6.Ptable.Scheduled`).
-/

namespace Xv6.Spin

open Lib Function

/-! ### `pushcli` and `popcli` -/

/-- The messages of the panics. -/
inductive Panic where
  /-- `"popcli - interruptible"` -/
  | popcliInterruptible
  /-- `"popcli"` -/
  | popcli
  /-- `"mycpu called with interrupts enabled\n"` -/
  | mycpu
  /-- `"acquire"` -/
  | acquire
  /-- `"release"` -/
  | release
  /-- `"sched ptable.lock"` -/
  | schedPtable
  /-- `"sched locks"` -/
  | schedLocks
  /-- `"sched interruptible"` -/
  | schedInterruptible
  deriving DecidableEq

/-- The variables of a CPU that are about interrupts; `iff` is the flag `FL_IF` of its flags. -/
structure Core where
  ncli : ℤ
  intena : Bool
  iff : Bool
  deriving DecidableEq

namespace Core

/-- **`pushcli`** from the `cli` on, when it has read the flags. -/
def pushcli (k : Core) (eflags : Bool) : Core where
  ncli := k.ncli + 1
  intena := if k.ncli = 0 then eflags else k.intena
  iff := false

/-- **`popcli`** -/
def popcli (k : Core) : Except Panic Core :=
  if k.iff then .error .popcliInterruptible
  else if k.ncli - 1 < 0 then .error .popcli
  else .ok { k with ncli := k.ncli - 1, iff := decide (k.ncli - 1 = 0) && k.intena }

/-- `mycpu` panics if interrupts are on. -/
def mycpu (k : Core) : Except Panic Core := if k.iff then .error .mycpu else .ok k

/-- What `holding`, `myproc` and `switchuvm` do to the variables: a `pushcli` and a `popcli`. -/
def pair (k : Core) (eflags : Bool) : Except Panic Core := (k.pushcli eflags).popcli

end Core

/-! ### Threads -/

variable {Cpu Pid Lock : Type}

/-- `struct spinlock` -/
structure Spinlock (Cpu : Type) where
  locked : Bool
  cpu : Option Cpu

/-- What the `cli` of a `pushcli` is part of. -/
inductive Call (Lock : Type) where
  | pushcli
  | acquire (l : Lock)
  | release (l : Lock)
  /-- `myproc` in `sched` -/
  | myproc (entry : Bool)
  /-- `holding(&ptable.lock)` in `sched` -/
  | holding (entry : Bool)
  deriving DecidableEq

/-- Where a thread is. In a call of `sched`, `entry` is the value of `intena` when it was
entered, which is not a variable of the code. -/
inductive Pc (Lock : Type) where
  /-- Between the calls. -/
  | code
  /-- The flags have been read, and `cli` comes next. -/
  | cli (eflags : Bool) (k : Call Lock)
  /-- The loop of `acquire`. -/
  | spin (l : Lock)
  /-- The loop is over, and `lk->cpu` is to be set. -/
  | took (l : Lock)
  /-- `lk->cpu` is to be cleared. -/
  | drop (l : Lock)
  /-- `lk->locked` is to be cleared. -/
  | unlock (l : Lock)
  /-- The `popcli` of `release`. -/
  | pop
  /-- `sched` after the call of `myproc`. -/
  | sched (entry : Bool)
  /-- `sched` after the call of `holding`. -/
  | check (entry : Bool)
  /-- In `swtch`, with the variable `intena` of `sched`. -/
  | parked (intena : Bool) (entry : Bool)
  /-- A process that has not run yet and is to start in `forkret`. -/
  | fresh
  /-- Back from `swtch`. -/
  | resumed (intena : Bool) (entry : Bool)
  /-- `sched` is about to return. -/
  | returned (entry : Bool)
  deriving DecidableEq

/-- A thread: where it is, where it has been interrupted, and how often it has called
`pushcli` without having undone it. -/
structure Thread (Lock : Type) where
  pc : Pc Lock
  frames : List (Pc Lock)
  pushed : ℕ

/-- Where the scheduler is between its calls, or where its call is to return to. -/
inductive Pos where
  /-- The beginning of the loop. -/
  | top
  /-- Interrupts have been turned on. -/
  | locking
  /-- In the loop over the process table. -/
  | scanning
  deriving DecidableEq

/-- A CPU: the thread that it runs, and the context of its scheduler. -/
structure CpuState (Pid Lock : Type) where
  core : Core
  proc : Option Pid
  thread : Thread Lock
  scheduler : Thread Lock
  pos : Pos

/-- The CPUs, the locks, and the contexts of the processes that do not run. -/
structure State (Cpu Pid Lock : Type) where
  cpu : Cpu → CpuState Pid Lock
  lock : Lock → Spinlock Cpu
  pool : Pid → Option (Thread Lock)

/-- The functions that are called. -/
inductive Fn (Lock : Type) where
  | pushcli
  | acquire (l : Lock)
  | release (l : Lock)
  | sched

/-- What a CPU does. -/
inductive Act (Cpu Pid Lock : Type) where
  /-- The thread calls a function, which reads the flags in `pushcli`. -/
  | call (c : Cpu) (f : Fn Lock)
  /-- The thread undoes a `pushcli` of its own. -/
  | popcli (c : Cpu)
  /-- The thread goes on in the function that it has called. -/
  | go (c : Cpu)
  | interrupt (c : Cpu)
  /-- An interrupt handler returns. -/
  | iret (c : Cpu)
  /-- The scheduler turns interrupts on. -/
  | sti (c : Cpu)
  /-- The scheduler acquires `ptable.lock`. -/
  | lock (c : Cpu)
  /-- The scheduler switches to a process. -/
  | pick (c : Cpu) (p : Pid)
  /-- The scheduler releases `ptable.lock`. -/
  | unlock (c : Cpu)

/-! ### The CPUs -/

section Steps

variable [DecidableEq Cpu] [DecidableEq Pid] [DecidableEq Lock]

/-- A thread at `code` that is not the scheduler itself: a process, or an interrupt handler. -/
def CpuState.Plain (x : CpuState Pid Lock) : Prop :=
  x.thread.pc = .code ∧ (x.proc ≠ none ∨ x.thread.frames ≠ [])

/-- The scheduler between its calls. -/
def CpuState.Base (x : CpuState Pid Lock) (pos : Pos) : Prop :=
  x.thread.pc = .code ∧ x.proc = none ∧ x.thread.frames = [] ∧ x.pos = pos

instance (x : CpuState Pid Lock) : Decidable x.Plain := inferInstanceAs (Decidable (_ ∧ _))

instance (x : CpuState Pid Lock) (pos : Pos) : Decidable (x.Base pos) :=
  inferInstanceAs (Decidable (_ ∧ _))

/-- The thread of a CPU goes on. -/
def CpuState.goto (x : CpuState Pid Lock) (k : Core) (pc : Pc Lock) : CpuState Pid Lock :=
  { x with core := k, thread := { x.thread with pc := pc } }

namespace State

variable (s : State Cpu Pid Lock) (c : Cpu)

def set (x : CpuState Pid Lock) : State Cpu Pid Lock :=
  { s with cpu := update s.cpu c x }

def setLock (l : Lock) (y : Spinlock Cpu) : State Cpu Pid Lock :=
  { s with lock := update s.lock l y }

omit [DecidableEq Pid] [DecidableEq Lock] in
@[simp] theorem set_cpu_self (x : CpuState Pid Lock) : (s.set c x).cpu c = x :=
  update_self ..

omit [DecidableEq Pid] [DecidableEq Lock] in
theorem set_cpu_of_ne (x : CpuState Pid Lock) {d : Cpu} (h : d ≠ c) : (s.set c x).cpu d = s.cpu d :=
  update_of_ne h ..

/-- What `holding` returns. -/
def holding (l : Lock) : Bool := (s.lock l).locked && decide ((s.lock l).cpu = some c)

/-- The thread of a CPU goes on in the function that it has called. -/
def go (ptable : Lock) : Option (Except Panic (State Cpu Pid Lock)) :=
  let x := s.cpu c
  match x.thread.pc with
  | .code | .parked _ _ | .fresh => none
  | .cli e .pushcli =>
    some (.ok (s.set c { x with
      core := x.core.pushcli e
      thread := { x.thread with pc := .code, pushed := x.thread.pushed + 1 } }))
  | .cli e (.acquire l) =>
    some (((x.core.pushcli e).pair false).bind fun k =>
      if s.holding c l then .error .acquire else .ok (s.set c (x.goto k (.spin l))))
  | .spin l =>
    some (.ok (if (s.lock l).locked then s
      else (s.setLock l { s.lock l with locked := true }).set c (x.goto x.core (.took l))))
  | .took l =>
    some (x.core.mycpu.map fun k =>
      (s.setLock l { s.lock l with cpu := some c }).set c (x.goto k .code))
  | .cli e (.release l) =>
    some ((x.core.pair e).bind fun k =>
      if s.holding c l then .ok (s.set c (x.goto k (.drop l))) else .error .release)
  | .drop l =>
    some (.ok ((s.setLock l { s.lock l with cpu := none }).set c (x.goto x.core (.unlock l))))
  | .unlock l =>
    some (.ok ((s.setLock l { s.lock l with locked := false }).set c (x.goto x.core .pop)))
  | .pop => some (x.core.popcli.map fun k => s.set c (x.goto k .code))
  | .cli e (.myproc v) => some ((x.core.pair e).map fun k => s.set c (x.goto k (.sched v)))
  | .sched v => some (.ok (s.set c (x.goto x.core (.cli x.core.iff (.holding v)))))
  | .cli e (.holding v) =>
    some ((x.core.pair e).bind fun k =>
      if s.holding c ptable then .ok (s.set c (x.goto k (.check v))) else .error .schedPtable)
  | .check v =>
    x.proc.map fun p => x.core.mycpu.bind fun k =>
      if k.ncli ≠ 1 then .error .schedLocks
      else if k.iff then .error .schedInterruptible
      else .ok { s.set c { x with proc := none, thread := x.scheduler } with
        pool := update s.pool p (some { x.thread with pc := .parked k.intena v }) }
  | .resumed i v =>
    some (x.core.mycpu.map fun k => s.set c (x.goto { k with intena := i } (.returned v)))
  | .returned _ => some (.ok (s.set c (x.goto x.core .code)))

/-- A thread calls a function. -/
def call (f : Fn Lock) : Option (State Cpu Pid Lock) :=
  let x := s.cpu c
  if x.Plain then
    match f with
    | .pushcli => some (s.set c (x.goto x.core (.cli x.core.iff .pushcli)))
    | .acquire l => some (s.set c (x.goto x.core (.cli x.core.iff (.acquire l))))
    | .release l => some (s.set c (x.goto x.core (.cli x.core.iff (.release l))))
    | .sched =>
      if x.proc = none then none
      else some (s.set c (x.goto x.core (.cli x.core.iff (.myproc x.core.intena))))
  else none

end State

/-- The context of a process is loaded. -/
def Thread.resume (t : Thread Lock) : Option (Thread Lock) :=
  match t.pc with
  | .parked i v => some { t with pc := .resumed i v }
  | .fresh => some { t with pc := .code }
  | _ => none

/-- What a CPU does, which may be a panic. -/
def effect (ptable : Lock) (s : State Cpu Pid Lock) :
    Act Cpu Pid Lock → Option (Except Panic (State Cpu Pid Lock))
  | .call c f => (s.call c f).map .ok
  | .popcli c =>
    let x := s.cpu c
    if x.Plain ∧ 0 < x.thread.pushed then
      some (x.core.popcli.map fun k => s.set c { x with
        core := k
        thread := { x.thread with pushed := x.thread.pushed - 1 } })
    else none
  | .go c => s.go c ptable
  | .interrupt c =>
    let x := s.cpu c
    if x.core.iff then
      some (.ok (s.set c { x with
        core := { x.core with iff := false }
        thread := { x.thread with pc := .code, frames := x.thread.pc :: x.thread.frames } }))
    else none
  | .iret c =>
    let x := s.cpu c
    match x.thread.frames with
    | [] => none
    | f :: fs =>
      if x.thread.pc = .code ∧ x.core.ncli = 0 then
        some (.ok (s.set c { x with
          core := { x.core with iff := true }
          thread := { x.thread with pc := f, frames := fs } }))
      else none
  | .sti c =>
    let x := s.cpu c
    if x.Base .top then
      some (.ok (s.set c { x with core := { x.core with iff := true }, pos := .locking }))
    else none
  | .lock c =>
    let x := s.cpu c
    if x.Base .locking then
      some (.ok (s.set c
        { x.goto x.core (.cli x.core.iff (.acquire ptable)) with pos := .scanning }))
    else none
  | .pick c p =>
    let x := s.cpu c
    if x.Base .scanning then
      ((s.pool p).bind Thread.resume).map fun t => (x.core.pair x.core.iff).map fun k =>
        { s.set c { x with core := k, proc := some p, thread := t, scheduler := x.thread } with
          pool := update s.pool p none }
    else none
  | .unlock c =>
    let x := s.cpu c
    if x.Base .scanning then
      some (.ok (s.set c { x.goto x.core (.cli x.core.iff (.release ptable)) with pos := .top }))
    else none

/-- A step that does not panic. -/
def step (ptable : Lock) (s : State Cpu Pid Lock) (a : Act Cpu Pid Lock) :
    Option (State Cpu Pid Lock) :=
  (effect ptable s a).bind Except.toOption

omit [DecidableEq Cpu] [DecidableEq Pid] [DecidableEq Lock] in
/-- When the CPUs start, each is about to enter the loop of its scheduler with interrupts
off, and the processes are to start in `forkret`, from where they return to user mode. -/
def start (intena : Cpu → Bool) : State Cpu Pid Lock where
  cpu c := ⟨⟨0, intena c, false⟩, none, ⟨.code, [], 0⟩, ⟨.code, [], 0⟩, .top⟩
  lock _ := ⟨false, none⟩
  pool _ := some ⟨.fresh, [.code], 0⟩

end Steps

end Xv6.Spin
