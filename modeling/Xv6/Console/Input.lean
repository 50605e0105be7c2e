import Xv6.Lib.Ring
import Xv6.Lib.Run

/-!
# The input of the console

`console.c` keeps what is typed in a buffer of `INPUT_BUF` bytes with three counters that wrap:
`r` for what has been read, `w` for the end of what can be read and `e` for the end of what
has been typed; what is between `w` and `e` can still be edited. The interrupt handler
`consoleintr` moves `w` and `e`, and `consoleread` moves `r`. Both hold `cons.lock`, so that a
character is handled at once, and so is everything `consoleread` does until it
sleeps or returns.

The characters are echoed to the screen, which is left out here, as is `procdump`.
-/

namespace Xv6.Console

open Lib

def INPUT_BUF : ℕ := 128

instance : NeZero INPUT_BUF := ⟨by decide⟩

theorem INPUT_BUF_dvd : INPUT_BUF ∣ 2 ^ 32 := by decide

theorem INPUT_BUF_lt : INPUT_BUF < 2 ^ 32 := by decide

/-- `C(x)`, the character typed with the control key. -/
def ctrl (x : UInt8) : UInt8 := x - 64

/-- `\n` and `\r`. -/
def newline : UInt8 := 10
def carriageReturn : UInt8 := 13

/-- The end of the file, `C('D')`. -/
def eof : UInt8 := ctrl 68

/-- The other characters that are treated in their own way: `C('P')`, `C('U')`, `C('H')`
and `\x7f`. -/
def procs : UInt8 := ctrl 80
def killLine : UInt8 := ctrl 85
def backspace : UInt8 := ctrl 72
def delete : UInt8 := 127

/-- `input`. -/
structure Input where
  buf : Fin INPUT_BUF → UInt8
  r : BitVec 32
  w : BitVec 32
  e : BitVec 32

namespace Input

/-- The buffer with the counters for what has been read and for what has been typed. -/
def ring (i : Input) : Ring UInt8 INPUT_BUF 32 := ⟨i.buf, i.r, i.e⟩

/-- `input.buf[k % INPUT_BUF]` -/
def cell (i : Input) (k : BitVec 32) : UInt8 := i.buf (Fin.ofNat INPUT_BUF k.toNat)

/-- The loop that kills the line. -/
def kill (i : Input) : Input :=
  if i.e ≠ i.w ∧ i.cell (i.e - 1) ≠ newline then kill { i with e := i.e - 1 } else i
termination_by (i.e - i.w).toNat
decreasing_by
  rename_i h
  bv_omega

/-- A character is stored. -/
def store (i : Input) (c : UInt8) : Input :=
  let i := { i with
    buf := Function.update i.buf (Fin.ofNat INPUT_BUF i.e.toNat) c
    e := i.e + 1 }
  if c = newline ∨ c = eof ∨ i.e = i.r + BitVec.ofNat 32 INPUT_BUF then
    { i with w := i.e }
  else
    i

/-- **`consoleintr`** for one character. -/
def intr (i : Input) (c : UInt8) : Input :=
  if c = procs then i
  else if c = killLine then i.kill
  else if c = backspace ∨ c = delete then
    if i.e ≠ i.w then { i with e := i.e - 1 } else i
  else if c ≠ 0 ∧ (i.e - i.r).toNat < INPUT_BUF then
    i.store (if c = carriageReturn then newline else c)
  else
    i

end Input

/-- What a call of `consoleread` has come to: it returns with some bytes, or it sleeps with `n`
bytes still to read. -/
inductive Progress where
  | returned (bs : List UInt8)
  | asleep (n : ℕ) (bs : List UInt8)
  deriving DecidableEq

/-- The loop of **`consoleread`** with `n` of `target` bytes still to read, until there is nothing
more to be read. -/
def readLoop (target : ℕ) : ℕ → List UInt8 → Input → Progress × Input
  | 0, bs, i => (.returned bs, i)
  | n + 1, bs, i =>
    if i.r = i.w then (.asleep (n + 1) bs, i)
    else
      let c := i.cell i.r
      let i := { i with r := i.r + 1 }
      if c = eof then
        -- the end of the file is kept for the next call, which is to return no bytes
        (.returned bs, if n + 1 < target then { i with r := i.r - 1 } else i)
      else if c = newline then (.returned (bs ++ [c]), i)
      else readLoop target n (bs ++ [c]) i

/-- A call of `consoleread`. -/
structure Reader where
  target : ℕ
  n : ℕ
  bs : List UInt8
  deriving DecidableEq

variable {Pid : Type}

/-- The console and the processes that are in `consoleread`. -/
structure State (Pid : Type) where
  input : Input
  reader : Pid → Option Reader

/-- What happens. -/
inductive Act (Pid : Type) where
  /-- A character is typed. -/
  | intr (c : UInt8)
  /-- A process calls `consoleread`. -/
  | read (p : Pid) (n : ℕ)
  /-- A process runs until it sleeps or returns. -/
  | run (p : Pid) (killed : Bool)

variable [DecidableEq Pid]

def State.setReader (s : State Pid) (p : Pid) (x : Option Reader) : State Pid :=
  { s with reader := Function.update s.reader p x }

/-- What a process that runs comes to, and what it returns: `none` for `-1`. -/
def State.resume (s : State Pid) (p : Pid) (killed : Bool) (x : Reader) :
    Option (Option (List UInt8)) × State Pid :=
  match readLoop x.target x.n x.bs s.input with
  | (.returned bs, i) => (some (some bs), State.setReader { s with input := i } p none)
  | (.asleep n bs, i) =>
    if killed then (some none, State.setReader { s with input := i } p none)
    else (none, State.setReader { s with input := i } p (some { x with n := n, bs := bs }))

def step (s : State Pid) : Act Pid → Option (State Pid)
  | .intr c => some { s with input := s.input.intr c }
  | .read p n => if s.reader p = none then some (s.setReader p (some ⟨n, n, []⟩)) else none
  | .run p killed => (s.reader p).map fun x => (s.resume p killed x).2

/-- The console when the system starts. -/
def start (buf : Fin INPUT_BUF → UInt8) : State Pid := ⟨⟨buf, 0, 0, 0⟩, fun _ => none⟩

end Xv6.Console
