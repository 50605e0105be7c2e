import Xv6.Lib.Ring
import Xv6.Sleep.Rule

/-!
# Pipes

`pipe.c`, as code for the machine of `Xv6.Sleep.Thread`: `pipewrite`, `piperead` and
`pipeclose`, called by any process at any time. Everything a call does between taking
`p->lock` and releasing it – in `sleep`, or for good – is done in steps of one test, one byte
or one `wakeup`.

The data are the `struct pipe` and, for what is to be said about it, the bytes that have
been stored and the bytes that have been delivered, in the order in which that happened,
each with the process that did it. A process that gets the lock at the beginning of a call
notes how many bytes there are, so that `Xv6.Pipe.since` are the bytes of that call.

`pipewrite` calls `wakeup` for the readers when the pipe is full and when it is done, but not
when it gives up because the pipe is full and nobody is going to read, or because the
process has been killed. So its locations have a flag which tells whether it has stored a
byte since its last `wakeup`. The code comes in two versions: as it is in the source
(`mended` is false), and with a `wakeup` before a `pipewrite` gives up with the flag set.
-/

namespace Xv6.Pipe

open Lib Sleep

/-- The size of the buffer. -/
def PIPESIZE : ℕ := 512

instance : NeZero PIPESIZE := ⟨by decide⟩

theorem PIPESIZE_dvd : PIPESIZE ∣ 2 ^ 32 := by decide

theorem PIPESIZE_lt : PIPESIZE < 2 ^ 32 := by decide

/-- `struct pipe` without its lock, and the bytes that have been stored and delivered. -/
structure Data (Pid : Type) extends Ring UInt8 PIPESIZE 32 where
  readopen : Bool
  writeopen : Bool
  stored : List (Pid × UInt8)
  delivered : List (Pid × UInt8)

variable {Pid : Type}

/-- `pipealloc`. The page is not cleared. -/
def Data.pipealloc (junk : Fin PIPESIZE → UInt8) : Data Pid where
  data := junk
  nread := 0
  nwrite := 0
  readopen := true
  writeopen := true
  stored := []
  delivered := []

/-- `p->data[p->nwrite++ % PIPESIZE] = b` -/
def Data.store (d : Data Pid) (p : Pid) (b : UInt8) : Data Pid where
  toRing := d.toRing.push b
  readopen := d.readopen
  writeopen := d.writeopen
  stored := d.stored ++ [(p, b)]
  delivered := d.delivered

/-- `p->data[p->nread++ % PIPESIZE]` -/
def Data.deliver (d : Data Pid) (p : Pid) : Data Pid where
  toRing := d.toRing.pop
  readopen := d.readopen
  writeopen := d.writeopen
  stored := d.stored
  delivered := d.delivered ++ [(p, d.toRing.front)]

/-- `p->writeopen = 0` or `p->readopen = 0`. -/
def Data.close (d : Data Pid) (writable : Bool) : Data Pid where
  toRing := d.toRing
  readopen := d.readopen && writable
  writeopen := d.writeopen && !writable
  stored := d.stored
  delivered := d.delivered

/-- The bytes of process `p` from the position `mark` on. -/
def since [DecidableEq Pid] (bs : List (Pid × UInt8)) (p : Pid) (mark : ℕ) : List UInt8 :=
  ((bs.drop mark).filter fun x => x.1 = p).map Prod.snd

/-- `&p->nread` and `&p->nwrite` -/
inductive Chan where
  | nread
  | nwrite
  deriving DecidableEq

/-- The arguments of `pipewrite`, and the number of bytes stored when it got the lock. -/
structure Write where
  addr : ℕ → UInt8
  n : ℤ
  mark : ℕ

/-- The arguments of `piperead`, and the number of bytes delivered when it got the lock. -/
structure Read where
  n : ℤ
  mark : ℕ

/-- The first `i` bytes to be written. -/
def Write.bytes (w : Write) (i : ℕ) : List UInt8 :=
  (List.range i).map w.addr

/-- The locations. In `pipewrite`, `news` tells whether a byte has been stored since the
last `wakeup`. -/
inductive Loc where
  | idle
  /-- In `pipewrite`, about to take the lock. -/
  | pipewrite (addr : ℕ → UInt8) (n : ℤ)
  /-- With the lock, about to begin. -/
  | startWrite (addr : ℕ → UInt8) (n : ℤ)
  /-- At the head of the `for` loop. -/
  | next (w : Write) (i : ℕ) (news : Bool)
  /-- At the head of the `while` loop. -/
  | full (w : Write) (i : ℕ) (news : Bool)
  /-- The pipe is full; about to call `wakeup`. -/
  | tellReaders (w : Write) (i : ℕ)
  /-- The pipe is full; about to call `sleep`. -/
  | waitSpace (w : Write) (i : ℕ)
  /-- About to store the byte. -/
  | store (w : Write) (i : ℕ) (news : Bool)
  /-- About to call `wakeup`, and to return `r` then. -/
  | wrote (w : Write) (r : ℤ)
  /-- About to release the lock and to return `r`. -/
  | retWrite (w : Write) (r : ℤ)
  /-- In `piperead`, about to take the lock. -/
  | piperead (n : ℤ)
  /-- With the lock, about to begin. -/
  | startRead (n : ℤ)
  /-- At the head of the `while` loop. -/
  | empty (rd : Read)
  /-- The pipe is empty; about to call `sleep`. -/
  | waitData (rd : Read)
  /-- At the head of the `for` loop; `addr` is what has been copied. -/
  | copy (rd : Read) (addr : List UInt8)
  /-- About to copy a byte. -/
  | take (rd : Read) (addr : List UInt8)
  /-- About to call `wakeup`. -/
  | took (rd : Read) (addr : List UInt8)
  /-- About to release the lock and to return `r`. -/
  | retRead (rd : Read) (addr : List UInt8) (r : ℤ)
  /-- In `pipeclose`, about to take the lock. -/
  | pipeclose (writable : Bool)
  /-- About to close the end. -/
  | shut (writable : Bool)
  /-- About to call `wakeup`. -/
  | tellClosed (writable : Bool)
  /-- About to see whether both ends are closed. -/
  | bothClosed
  /-- About to release the lock and to return, after `kfree` if `last`. -/
  | retClose (last : Bool)

/-- The code of `pipe.c`. -/
def code (Pid : Type) (mended : Bool) : Code Pid Chan (Data Pid) Loc where
  instr p
    | .idle => .rest
    | .pipewrite addr n => .acquire (.startWrite addr n)
    | .startWrite addr n => .update fun _ d => (d, .next ⟨addr, n, d.stored.length⟩ 0 false)
    | .next w i news => .update fun _ d => (d, if i < w.n then .full w i news else .wrote w w.n)
    | .full w i news => .update fun killed d =>
      (d, if d.toRing.Full then
          if d.readopen = false ∨ killed = true then
            if mended && news then .wrote w (-1) else .retWrite w (-1)
          else .tellReaders w i
        else .store w i news)
    | .tellReaders w i => .wakeup .nread (.waitSpace w i)
    | .waitSpace w i => .sleep .nwrite (.full w i false)
    | .store w i _ => .update fun _ d => (d.store p (w.addr i), .next w (i + 1) true)
    | .wrote w r => .wakeup .nread (.retWrite w r)
    | .retWrite _ _ => .release .idle
    | .piperead n => .acquire (.startRead n)
    | .startRead n => .update fun _ d => (d, .empty ⟨n, d.delivered.length⟩)
    | .empty rd => .update fun killed d =>
      (d, if d.toRing.Empty ∧ d.writeopen = true then
          if killed then .retRead rd [] (-1) else .waitData rd
        else .copy rd [])
    | .waitData rd => .sleep .nread (.empty rd)
    | .copy rd addr => .update fun _ d =>
      (d, if addr.length < rd.n then if d.toRing.Empty then .took rd addr else .take rd addr
        else .took rd addr)
    | .take rd addr => .update fun _ d => (d.deliver p, .copy rd (addr ++ [d.toRing.front]))
    | .took rd addr => .wakeup .nwrite (.retRead rd addr addr.length)
    | .retRead _ _ _ => .release .idle
    | .pipeclose writable => .acquire (.shut writable)
    | .shut writable => .update fun _ d => (d.close writable, .tellClosed writable)
    | .tellClosed writable => .wakeup (if writable then .nread else .nwrite) .bothClosed
    | .bothClosed => .update fun _ d => (d, .retClose (!d.readopen && !d.writeopen))
    | .retClose _ => .release .idle
  calls _ _
    | .pipewrite _ _ | .piperead _ | .pipeclose _ => true
    | _ => false

/-- A new pipe, and processes that have not called anything yet. -/
def start (Pid : Type) (junk : Fin PIPESIZE → UInt8) : State Pid Chan (Data Pid) Loc :=
  .init (.pipealloc junk) fun _ => .idle

end Xv6.Pipe
