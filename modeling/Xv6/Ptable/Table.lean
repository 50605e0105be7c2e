import Mathlib.Data.List.FinRange
import Mathlib.Logic.Function.Basic
import Xv6.Lib.Run
import Xv6.Param

/-!
# The process table

`proc.c` as a concurrent system: the table `ptable`, the CPUs, and the threads
that run on them. A critical section under `ptable.lock` is one action, and so is
what a process does between two of them.

The lock is not always released by the thread that took it. A process that gives
the CPU up takes it, changes its own state and switches to the scheduler of its
CPU; the scheduler goes on with its loop over the table, still holding the lock,
switches to the next runnable process, and that one releases it. So the state has
the owner of the lock (`Xv6.Ptable.State.lock`), the thread a CPU is running
(`Xv6.Ptable.State.on`) beside its `c->proc` (`Xv6.Ptable.State.cur`), and where the
loop of its scheduler stands (`Xv6.Ptable.State.scan`). A process that does not run
remembers in which call of `sched` it is (`Xv6.Ptable.Ctx`), and the first thing it
does when it is switched to is to return from there (`Xv6.Ptable.Act.resume`).

`fork` and `exit` do much of their work without the lock: `fork` on a slot that is
`EMBRYO`, `exit` on the files of the process. They can be interrupted there, so
where the process stands is a part of its state (`Xv6.Ptable.Pc`). The same holds
for the loops that sleep: between the test of `killed` and the moment at which
`sleep` has `ptable.lock` other processes may run (`Xv6.Ptable.Stage`).

Two fields are not in the code. Every slot that `allocproc` hands out gets a
number of its own (`Xv6.Ptable.Proc.birth`), which, unlike `pid`, never wraps
around; and the values that `fork` and `wait` return are recorded
(`Xv6.Ptable.State.hist`).
-/

namespace Xv6.Ptable

open Lib
open Function (update)

/-- A slot of the process table, which is what a `struct proc *` points to. -/
abbrev Slot := Fin NPROC

/-- The slot of the first process: `userinit` runs when the table is empty. -/
def initproc : Slot := ⟨0, by decide⟩

/-- `enum procstate`. -/
inductive Status where
  | unused | embryo | sleeping | runnable | running | zombie
  deriving DecidableEq

/-- What a process sleeps on. -/
inductive Chan where
  /-- `wait` sleeps on the process itself. -/
  | proc (p : Slot)
  /-- The two channels of a pipe. -/
  | nread (pipe : ℕ)
  | nwrite (pipe : ℕ)
  /-- `&input.r` -/
  | input
  /-- `&ticks` -/
  | ticks
  /-- A buffer, the log, a sleep-lock. -/
  | other (n : ℕ)
  deriving DecidableEq

/-- The spinlocks that are handed to `sleep`. -/
inductive Lock where
  | pipe (pipe : ℕ)
  | cons
  | ticks
  | other (n : ℕ)
  deriving DecidableEq

/-- The loops that call `sleep` with a lock other than `ptable.lock`. -/
inductive Loop where
  | piperead (pipe : ℕ)
  | pipewrite (pipe : ℕ)
  | consoleread
  | sysSleep
  /-- `acquiresleep`, `begin_op` and `iderw`, which do not look at `killed`. -/
  | other (lk ch : ℕ)
  deriving DecidableEq

/-- The channel of the loop. -/
def Loop.chan : Loop → Chan
  | piperead q => .nread q
  | pipewrite q => .nwrite q
  | consoleread => .input
  | sysSleep => .ticks
  | other _ ch => .other ch

/-- The lock of the loop. -/
def Loop.lock : Loop → Lock
  | piperead q => .pipe q
  | pipewrite q => .pipe q
  | consoleread => .cons
  | sysSleep => .ticks
  | other lk _ => .other lk

/-- The loop returns when it finds `killed` set. -/
def Loop.Tests : Loop → Prop
  | other _ _ => False
  | _ => True

instance : DecidablePred Loop.Tests
  | .other _ _ => .isFalse not_false
  | .piperead _ | .pipewrite _ | .consoleread | .sysSleep => .isTrue trivial

/-- Where a process stands in such a loop. -/
inductive Stage where
  /-- Before the test, with the lock of the loop. -/
  | top
  /-- After `killed` has been found to be zero. -/
  | tested
  /-- In `pipewrite`, after `wakeup(&p->nread)`. -/
  | woken
  /-- In `sched`, called by `sleep`. -/
  | asleep
  /-- At the end of `sleep`, about to take the lock of the loop again. -/
  | relock
  deriving DecidableEq

/-- What comes next is the call of `sleep`. -/
def Loop.Ready : Loop → Stage → Prop
  | pipewrite _, .woken => True
  | pipewrite _, _ => False
  | other _ _, st => st = .top
  | _, st => st = .tested

instance (l : Loop) (st : Stage) : Decidable (l.Ready st) :=
  match l, st with
  | .pipewrite _, .woken => .isTrue trivial
  | .pipewrite _, .top | .pipewrite _, .tested | .pipewrite _, .asleep
  | .pipewrite _, .relock => .isFalse not_false
  | .other _ _, st => inferInstanceAs (Decidable (st = .top))
  | .piperead _, st | .consoleread, st | .sysSleep, st =>
    inferInstanceAs (Decidable (st = .tested))

/-- Where a process stands in `fork`, once it has a slot for the child. -/
inductive ForkStage where
  /-- In `allocproc`, about to allocate the kernel stack. -/
  | alloced
  /-- About to copy the memory. -/
  | stacked
  /-- About to set the state back to `UNUSED`. -/
  | freed
  /-- About to copy the files. -/
  | copied
  /-- About to set the state to `RUNNABLE`. -/
  | filled
  deriving DecidableEq

/-- Where a process stands. -/
inductive Pc where
  /-- In user space, or in a system call that is none of the others. -/
  | user
  | fork (st : ForkStage) (np : Slot)
  /-- In `exit`, about to close the files from this one on. -/
  | exiting (fd : ℕ)
  /-- In `exit`, about to take `ptable.lock`. -/
  | leaving
  deriving DecidableEq

/-- The call of `sched` from which a process returns when it is switched to. A new
process returns to `forkret` instead. -/
inductive Ctx where
  | forkret
  | yield
  | wait
  | sleep
  deriving DecidableEq

/-- `struct proc`, and the thread of the process. -/
structure Proc where
  state : Status
  pid : ℤ
  parent : Option Slot
  chan : Option Chan
  killed : Bool
  /-- Whether there is a kernel stack. -/
  kstack : Bool
  /-- Whether there is a page directory. -/
  pgdir : Bool
  /-- Which files are open. -/
  ofile : Fin NOFILE → Bool
  /-- Whether there is a current directory. -/
  cwd : Bool
  pc : Pc
  /-- The loop that sleeps the process is in. -/
  loop : Option (Stage × Loop)
  /-- Set unless the process has returned from `sched`. -/
  ctx : Option Ctx
  /-- How many slots `allocproc` had handed out before this one. -/
  birth : ℕ

/-- What `fork`, `exit` and `wait` have done. -/
inductive Event where
  /-- `fork`, called by `p`, returned `pid` for the child in slot `i`. -/
  | forked (p i : Slot) (birth : ℕ) (pid : ℤ)
  | exited (birth : ℕ)
  /-- `wait`, called by `p`, returned `pid` for the child in slot `i`. -/
  | waited (p i : Slot) (birth : ℕ) (pid : ℤ)
  /-- `wait`, called by `p`, returned `-1`. -/
  | waitFailed (p : Slot)
  deriving DecidableEq

/-- The process table and the CPUs. -/
structure State (Cpu : Type) where
  proc : Slot → Proc
  nextpid : ℤ
  /-- The CPU that holds `ptable.lock`. -/
  lock : Option Cpu
  /-- `c->proc` -/
  cur : Cpu → Option Slot
  /-- The process whose thread the CPU runs; none if it is its scheduler. -/
  on : Cpu → Option Slot
  /-- The variable `p` of `scheduler`. -/
  scan : Cpu → ℕ
  /-- Which of the other locks are held. -/
  locks : Lock → Bool
  /-- How many slots `allocproc` has handed out. -/
  handed : ℕ
  hist : List Event

/-- What can happen. All but the last are done by the thread that the CPU runs. -/
inductive Act (Cpu : Type) where
  /-- The scheduler takes `ptable.lock` and starts its loop. -/
  | acquire (c : Cpu)
  /-- The scheduler looks at the next slot and switches to its process if that is
  runnable; after the last slot it releases the lock. -/
  | look (c : Cpu)
  /-- The scheduler returns from `swtch`. -/
  | back (c : Cpu)
  /-- A process returns from `sched`. -/
  | resume (c : Cpu)
  | yield (c : Cpu)
  /-- `trap` sets `killed` because the process misbehaved in user space. -/
  | fault (c : Cpu)
  /-- A system call opens or closes a file. -/
  | ofile (c : Cpu) (fd : Fin NOFILE) (o : Bool)
  /-- The critical section of `allocproc`. -/
  | fork (c : Cpu)
  /-- `kalloc` in `allocproc`. -/
  | kalloc (c : Cpu) (ok : Bool)
  | copyuvm (c : Cpu) (ok : Bool)
  /-- The assignment `state = UNUSED` when one of the two failed. -/
  | unalloc (c : Cpu)
  /-- What `fork` copies without the lock. -/
  | fill (c : Cpu)
  /-- The critical section of `fork`. -/
  | start (c : Cpu)
  /-- The beginning of `exit`. -/
  | exit (c : Cpu)
  /-- `exit` closes the next file or, after the last one, drops `cwd`. -/
  | close (c : Cpu)
  /-- The critical section of `exit`. -/
  | leave (c : Cpu)
  /-- The critical section of `wait`, up to its return or its call of `sched`. -/
  | wait (c : Cpu)
  | kill (c : Cpu) (pid : ℤ)
  /-- A process takes the lock of a loop. -/
  | enter (c : Cpu) (l : Loop)
  /-- The process leaves the loop and releases the lock. -/
  | done (c : Cpu)
  /-- The process finds that it has to wait and looks at `killed`. -/
  | test (c : Cpu)
  /-- `wakeup(&p->nread)` in `pipewrite`. -/
  | wake (c : Cpu)
  /-- `sleep`, up to its call of `sched`. -/
  | sleep (c : Cpu)
  /-- The end of `sleep`. -/
  | relock (c : Cpu)
  /-- Some code, possibly an interrupt handler, calls `wakeup`. -/
  | wakeup (ch : Chan)
  deriving DecidableEq

/-! ### The functions of `proc.c` -/

/-- One turn of the loop of `wakeup1`. -/
def Proc.wakeup1 (ch : Option Chan) (q : Proc) : Proc :=
  if q.state = .sleeping ∧ q.chan = ch then { q with state := .runnable } else q

/-- Change the state of a process. -/
def Proc.become (q : Proc) (st : Status) : Proc := { q with state := st }

/-- Move a process. -/
def Proc.goto (q : Proc) (pc : Pc) : Proc := { q with pc := pc }

/-- Move a process in a loop that sleeps. -/
def Proc.setLoop (q : Proc) (r : Stage × Loop) : Proc := { q with loop := some r }

/-- A process calls `sched`. -/
def Proc.switch (q : Proc) (ctx : Ctx) : Proc := { q with ctx := some ctx }

/-- A process goes to sleep. -/
def Proc.sleep (q : Proc) (ch : Chan) : Proc := { q with chan := some ch, state := .sleeping }

/-- `allocproc` takes a slot. -/
def Proc.alloc (q : Proc) (pid : ℤ) (birth : ℕ) : Proc :=
  { q with state := .embryo, pid := pid, birth := birth }

/-- A new kernel stack, on which `allocproc` has set up a context that returns to
`forkret`. -/
def Proc.setStack (q : Proc) : Proc :=
  { q with kstack := true, pc := .user, loop := none, ctx := some .forkret }

/-- There is no kernel stack. -/
def Proc.noStack (q : Proc) : Proc := { q with kstack := false }

/-- The result of `copyuvm` is the page directory. -/
def Proc.setPgdir (q : Proc) (ok : Bool) : Proc := { q with pgdir := ok }

/-- `userinit` sets the current directory. -/
def Proc.setCwd (q : Proc) : Proc := { q with cwd := true }

/-- `fork` copies the parent, the files and the current directory. -/
def Proc.fill (p : Slot) (cur q : Proc) : Proc :=
  { q with
    parent := some p
    ofile := fun fd => if cur.ofile fd then true else q.ofile fd
    cwd := cur.cwd }

/-- A child is passed to the first process. -/
def Proc.adopt (q : Proc) : Proc := { q with parent := some initproc }

/-- `wait` clears the slot of a child that has exited. -/
def Proc.reap (q : Proc) : Proc :=
  { q with kstack := false, pid := 0, parent := none, killed := false, state := .unused }

/-- `kill` marks a process and wakes it up. -/
def Proc.kill (q : Proc) : Proc :=
  { q with
    killed := true
    state := if q.state = .sleeping then .runnable else q.state }

variable {Cpu : Type} [DecidableEq Cpu]

/-- Change one slot. -/
def State.set (s : State Cpu) (i : Slot) (q : Proc) : State Cpu :=
  { s with proc := update s.proc i q }

/-- Record what has happened. -/
def State.record (s : State Cpu) (e : Event) : State Cpu :=
  { s with hist := s.hist ++ [e] }

/-- `wakeup1` -/
def State.wakeup1 (s : State Cpu) (ch : Option Chan) : State Cpu :=
  { s with proc := fun i => (s.proc i).wakeup1 ch }

/-- `sched`, called on CPU `c` by process `p`, which has changed its state: the CPU
holds `ptable.lock` and runs its scheduler. -/
def State.sched (s : State Cpu) (c : Cpu) (p : Slot) (ctx : Ctx) : State Cpu :=
  { s.set p ((s.proc p).switch ctx) with
    lock := some c
    on := update s.on c none }

/-- The first slot with a property. -/
def State.find (s : State Cpu) (P : Proc → Bool) : Option Slot :=
  (List.finRange NPROC).find? fun i => P (s.proc i)

/-- The critical section of `allocproc`. -/
def State.allocproc (s : State Cpu) : Option (Slot × State Cpu) :=
  match s.find fun q => q.state = .unused with
  | none => none
  | some i => some (i,
    { s.set i ((s.proc i).alloc s.nextpid s.handed) with
      nextpid := (s.nextpid + 1).bmod (2 ^ 32)
      handed := s.handed + 1 })

/-- One turn of the loop of `exit`. -/
def State.passChild (p : Slot) (s : State Cpu) (j : Slot) : State Cpu :=
  if (s.proc j).parent = some p then
    let s := s.set j (s.proc j).adopt
    if (s.proc j).state = .zombie then s.wakeup1 (some (.proc initproc)) else s
  else s

/-- The end of `exit`: the process becomes a zombie and calls `sched`. -/
def State.die (s : State Cpu) (c : Cpu) (p : Slot) : State Cpu :=
  ((s.set p ((s.proc p).become .zombie)).record (.exited (s.proc p).birth)).sched c p .sleep

/-- The critical section of `exit`. -/
def State.leave (s : State Cpu) (c : Cpu) (p : Slot) : State Cpu :=
  ((List.finRange NPROC).foldl (State.passChild p)
    (s.wakeup1 ((s.proc p).parent.map .proc))).die c p

/-- One turn of the outer loop of `wait`, by process `p` that holds `ptable.lock`
on CPU `c`. -/
def State.wait (s : State Cpu) (c : Cpu) (p : Slot) : Effect (State Cpu) :=
  match s.find fun q => q.parent = some p ∧ q.state = .zombie with
  | some i =>
    if (s.proc i).kstack = false then .panic "kfree"
    else if (s.proc i).pgdir = false then .panic "freevm: no pgdir"
    else .ok { (s.set i (s.proc i).reap).record
      (.waited p i (s.proc i).birth (s.proc i).pid) with lock := none }
  | none =>
    if (s.find fun q => q.parent = some p) = none ∨ (s.proc p).killed then
      .ok { s.record (.waitFailed p) with lock := none }
    else
      .ok ((s.set p ((s.proc p).sleep (.proc p))).sched c p .wait)

/-- The slot that `kill` finds. -/
def State.target (s : State Cpu) (pid : ℤ) : Option Slot :=
  s.find fun q => q.pid = pid

/-- `kill` -/
def State.kill (s : State Cpu) (pid : ℤ) : ℤ × State Cpu :=
  match s.target pid with
  | some i => (0, s.set i (s.proc i).kill)
  | none => (-1, s)

/-- `userinit`, after a successful `allocproc`. -/
def State.userinit (s : State Cpu) : Option (State Cpu) :=
  match s.allocproc with
  | none => none
  | some (i, s) =>
    some (s.set i (((s.proc i).setStack.setPgdir true).setCwd.become .runnable))

/-! ### The actions -/

/-- The process whose code the CPU executes, unless it has yet to return from
`sched`. -/
def State.thread (s : State Cpu) (c : Cpu) : Option Slot :=
  match s.on c with
  | none => none
  | some p => if (s.proc p).ctx = none then some p else none

/-- An action of the process on a CPU. -/
def State.perform (s : State Cpu) (c : Cpu) (f : Slot → Proc → Effect (State Cpu)) :
    Effect (State Cpu) :=
  match s.thread c with
  | none => .disabled
  | some p => f p (s.proc p)

/-- An action that is possible only if `b` holds. -/
def guarded (b : Prop) [Decidable b] (e : Effect (State Cpu)) : Effect (State Cpu) :=
  if b then e else .disabled

/-- The process is at a point where a system call can begin. -/
def Proc.Calls (q : Proc) : Prop := q.pc = .user ∧ q.loop = none

instance (q : Proc) : Decidable q.Calls := inferInstanceAs (Decidable (_ ∧ _))

/-- The process is in the part of `exit` that closes the files. -/
def Pc.Closing : Pc → Prop
  | exiting _ => True
  | _ => False

instance : DecidablePred Pc.Closing
  | .exiting _ => .isTrue trivial
  | .user | .fork _ _ | .leaving => .isFalse not_false

/-- The process is at a point where the loop can begin. Closing a file may take a
sleep-lock or begin a transaction. -/
def Proc.Enters (q : Proc) (l : Loop) : Prop :=
  q.loop = none ∧ (q.pc = .user ∨ q.pc.Closing ∧ ¬l.Tests)

instance (q : Proc) (l : Loop) : Decidable (q.Enters l) := inferInstanceAs (Decidable (_ ∧ _))

/-- The process holds no spinlock, so that interrupts are on. -/
def Proc.Interruptible (q : Proc) : Prop := ∀ st l, q.loop = some (st, l) → st = .relock

instance (q : Proc) : Decidable q.Interruptible :=
  match h : q.loop with
  | none => .isTrue fun st l e => by rw [h] at e; cases e
  | some (st, l) => decidable_of_iff (st = .relock) (by
    constructor
    · intro e st' l' h'
      rw [h] at h'
      cases h'
      exact e
    · intro e
      exact e st l h)

/-- The process returns from `sched`. -/
def State.resume (s : State Cpu) (c : Cpu) (p : Slot) (q : Proc) : Effect (State Cpu) :=
  match q.ctx with
  | none => .disabled
  | some .forkret | some .yield => .ok { s.set p { q with ctx := none } with lock := none }
  | some .sleep =>
    match q.loop with
    | some (_, l) =>
      .ok { s.set p { q with ctx := none, chan := none, loop := some (.relock, l) } with
        lock := none }
    | none => .panic "zombie exit"
  | some .wait => (s.set p { q with ctx := none, chan := none }).wait c p

/-- A step of `fork` on the slot of the child. -/
def State.build (s : State Cpu) (p np : Slot) (st : ForkStage) (q : Proc) : Effect (State Cpu) :=
  .ok ((s.set np q).set p ((s.proc p).goto (.fork st np)))

/-- What the actions do. -/
def effect (s : State Cpu) : Act Cpu → Effect (State Cpu)
  | .acquire c => guarded (s.on c = none ∧ s.cur c = none ∧ s.lock = none)
      (.ok { s with lock := some c, scan := update s.scan c 0 })
  | .look c => guarded (s.on c = none ∧ s.cur c = none ∧ s.lock = some c)
      (if h : s.scan c < NPROC then
        let p : Slot := ⟨s.scan c, h⟩
        if (s.proc p).state = .runnable then
          .ok { s.set p ((s.proc p).become .running) with
            cur := update s.cur c (some p)
            on := update s.on c (some p) }
        else .ok { s with scan := update s.scan c (s.scan c + 1) }
      else .ok { s with lock := none })
  | .back c => guarded (s.on c = none ∧ s.cur c ≠ none ∧ s.lock = some c)
      (.ok { s with
        cur := update s.cur c none
        scan := update s.scan c (s.scan c + 1) })
  | .resume c => match s.on c with
    | none => .disabled
    | some p => guarded (s.lock = some c) (s.resume c p (s.proc p))
  | .yield c => s.perform c fun p q => guarded (q.Interruptible ∧ s.lock = none)
      (.ok ((s.set p (q.become .runnable)).sched c p .yield))
  | .fault c => s.perform c fun p q => guarded q.Calls (.ok (s.set p { q with killed := true }))
  | .ofile c fd o => s.perform c fun p q => guarded q.Calls
      (.ok (s.set p { q with ofile := update q.ofile fd o }))
  | .fork c => s.perform c fun p q => guarded (q.Calls ∧ s.lock = none)
      (match s.allocproc with
      | none => .ok s
      | some (i, s) => .ok (s.set p (q.goto (.fork .alloced i))))
  | .kalloc c ok => s.perform c fun p q => match q.pc with
    | .fork .alloced i =>
      if ok then s.build p i .stacked (s.proc i).setStack
      else s.build p i .freed (s.proc i).noStack
    | _ => .disabled
  | .copyuvm c ok => s.perform c fun p q => match q.pc with
    | .fork .stacked i =>
      if ok then s.build p i .copied ((s.proc i).setPgdir true)
      else s.build p i .freed ((s.proc i).setPgdir false).noStack
    | _ => .disabled
  | .unalloc c => s.perform c fun p q => match q.pc with
    | .fork .freed i =>
      .ok ((s.set i ((s.proc i).become .unused)).set p (q.goto .user))
    | _ => .disabled
  | .fill c => s.perform c fun p q => match q.pc with
    | .fork .copied i => s.build p i .filled (.fill p q (s.proc i))
    | _ => .disabled
  | .start c => s.perform c fun p q => match q.pc with
    | .fork .filled i => guarded (s.lock = none)
        (.ok (((s.set i ((s.proc i).become .runnable)).set p (q.goto .user)).record
          (.forked p i (s.proc i).birth (s.proc i).pid)))
    | _ => .disabled
  | .exit c => s.perform c fun p q => guarded q.Calls
      (if p = initproc then .panic "init exiting" else .ok (s.set p (q.goto (.exiting 0))))
  | .close c => s.perform c fun p q => match q.pc with
    | .exiting fd => guarded (q.loop = none)
        (if h : fd < NOFILE then
          .ok (s.set p { q with
            ofile := update q.ofile ⟨fd, h⟩ false
            pc := .exiting (fd + 1) })
        else .ok (s.set p { q with cwd := false, pc := .leaving }))
    | _ => .disabled
  | .leave c => s.perform c fun p q => guarded (q.pc = .leaving ∧ s.lock = none) (.ok (s.leave c p))
  | .wait c => s.perform c fun p q => guarded (q.Calls ∧ s.lock = none) (s.wait c p)
  | .kill c pid => s.perform c fun _ q => guarded (q.Calls ∧ s.lock = none) (.ok (s.kill pid).2)
  | .enter c l => s.perform c fun p q =>
      guarded (q.Enters l ∧ s.locks l.lock = false)
        (.ok { s.set p (q.setLoop (.top, l)) with
          locks := update s.locks l.lock true })
  | .done c => s.perform c fun p q => match q.loop with
    | some (.top, l) => .ok { s.set p { q with loop := none } with
        locks := update s.locks l.lock false }
    | _ => .disabled
  | .test c => s.perform c fun p q => match q.loop with
    | some (.top, l) => guarded l.Tests
        (if q.killed then .ok { s.set p { q with loop := none } with
          locks := update s.locks l.lock false }
        else .ok (s.set p (q.setLoop (.tested, l))))
    | _ => .disabled
  | .wake c => s.perform c fun p q => match q.loop with
    | some (.tested, .pipewrite n) => guarded (s.lock = none)
        (.ok ((s.wakeup1 (some (.nread n))).set p (q.setLoop (.woken, .pipewrite n))))
    | _ => .disabled
  | .sleep c => s.perform c fun p q => match q.loop with
    | some (st, l) => guarded (l.Ready st ∧ s.lock = none)
        (.ok ({ s.set p ((q.sleep l.chan).setLoop (.asleep, l)) with
          locks := update s.locks l.lock false }.sched c p .sleep))
    | none => .disabled
  | .relock c => s.perform c fun p q => match q.loop with
    | some (.relock, l) => guarded (s.locks l.lock = false)
        (.ok { s.set p (q.setLoop (.top, l)) with
          locks := update s.locks l.lock true })
    | _ => .disabled
  | .wakeup ch => guarded (s.lock = none) (.ok (s.wakeup1 (some ch)))

/-- The system as a partial step function; a panic is the end of a run. -/
def step (s : State Cpu) (a : Act Cpu) : Option (State Cpu) := (effect s a).toOption

/-! ### The initial state -/

/-- A slot of the table before `userinit`. -/
def Proc.zero : Proc where
  state := .unused
  pid := 0
  parent := none
  chan := none
  killed := false
  kstack := false
  pgdir := false
  ofile := fun _ => false
  cwd := false
  pc := .user
  loop := none
  ctx := none
  birth := 0

/-- The empty table; every CPU is in its scheduler. -/
def State.zero : State Cpu where
  proc := fun _ => .zero
  nextpid := 1
  lock := none
  cur := fun _ => none
  on := fun _ => none
  scan := fun _ => 0
  locks := fun _ => false
  handed := 0
  hist := []

/-- The system after `userinit`. -/
def State.boot : State Cpu := (State.zero.userinit).getD .zero

end Xv6.Ptable
