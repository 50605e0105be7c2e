import Mathlib.Algebra.Ring.Nat
import Mathlib.Logic.Function.Basic
import Xv6.Lib.Run

/-!
# `malloc` and `free`

`umalloc.c`. The allocator keeps its free blocks in a circular list in the order of their addresses.
A block begins with a `Header` of eight bytes: a pointer to the next free block and the size of
the block, counted in headers. The list contains the static variable `base`, whose size is zero, and
`freep` points to some block of it, or is null before the first call.

Addresses are natural numbers, and the memory has a header at every address. The memory that `sbrk`
hands out lies in the address space, so that adding sizes to addresses in it does not wrap; where
the code computes with a number that its caller gives, it does so modulo `2 ^ 32`. Each call of
`sbrk` fails, or it moves the break and returns the old one: what the next calls do is
given by a list.

The loops of `free` and `malloc` follow pointers, and nothing in them says that they end. They have a
number of rounds that they may take here, and the result is `none` if that is not enough.
-/

namespace Xv6.Malloc

open Lib

/-- `union header` -/
structure Header where
  ptr : ℕ
  size : ℕ
  deriving DecidableEq

/-- The memory of the program, the variable `freep`, which is zero if it is null, and the break. -/
structure Heap where
  mem : ℕ → Header
  freep : ℕ
  brk : ℕ

namespace Heap

/-- Store a header. -/
def set (h : Heap) (a : ℕ) (x : Header) : Heap := { h with mem := Function.update h.mem a x }

@[simp] theorem set_mem_self (h : Heap) (a : ℕ) (x : Header) : (h.set a x).mem a = x :=
  Function.update_self ..

/-- The loop of **`free`**. -/
def find (h : Heap) (bp : ℕ) : (fuel : ℕ) → (p : ℕ) → Option ℕ
  | 0, _ => none
  | fuel + 1, p =>
    if bp > p ∧ bp < (h.mem p).ptr then some p
    else if p ≥ (h.mem p).ptr ∧ (bp > p ∨ bp < (h.mem p).ptr) then some p
    else find h bp fuel (h.mem p).ptr

/-- The block `bp` is joined to the free block after `p`, or linked to it. Sums are taken as `w`
says. -/
def joinUpper (h : Heap) (p bp : ℕ) (w : ℕ → ℕ := fun n => n) : Heap :=
  let q := (h.mem p).ptr
  if w (bp + 8 * (h.mem bp).size) = q then
    h.set bp ⟨(h.mem q).ptr, w ((h.mem bp).size + (h.mem q).size)⟩
  else h.set bp { h.mem bp with ptr := q }

/-- The block `bp` is joined to `p`, or linked to it. -/
def joinLower (h : Heap) (p bp : ℕ) (w : ℕ → ℕ := fun n => n) : Heap :=
  if w (p + 8 * (h.mem p).size) = bp then
    h.set p ⟨(h.mem bp).ptr, w ((h.mem p).size + (h.mem bp).size)⟩
  else h.set p { h.mem p with ptr := bp }

/-- **`free`** -/
def free (h : Heap) (fuel ap : ℕ) (w : ℕ → ℕ := fun n => n) : Option Heap :=
  let bp := ap - 8
  (h.find bp fuel h.freep).map fun p => { (h.joinUpper p bp w).joinLower p bp w with freep := p }

/-- **`morecore`**, which returns `freep`, or null. -/
def morecore (h : Heap) (fuel nu : ℕ) : List Bool → Option (Heap × List Bool × Option ℕ)
  | true :: sbrk =>
    let nu := if nu < 4096 then 4096 else nu
    let hp := h.brk
    let h := { h.set hp { h.mem hp with size := nu } with brk := hp + nu * 8 % 2 ^ 32 }
    (h.free fuel (hp + 8)).map fun h => (h, sbrk, some h.freep)
  | false :: sbrk => some (h, sbrk, none)
  | [] => some (h, [], none)

/-- What `malloc` does with a block that is large enough. -/
def take (h : Heap) (nunits prevp p : ℕ) (w : ℕ → ℕ := fun n => n) : Heap × ℕ :=
  if (h.mem p).size = nunits then
    ({ h.set prevp { h.mem prevp with ptr := (h.mem p).ptr } with freep := prevp }, p + 8)
  else
    let h := h.set p { h.mem p with size := (h.mem p).size - nunits }
    let p := w (p + 8 * (h.mem p).size)
    ({ h.set p { h.mem p with size := nunits } with freep := prevp }, p + 8)

/-- A round of the loop of `malloc`: the block is large enough, or the loop is back where it began, or
it goes on. -/
def round {β : Type} (h : Heap) (nunits p : ℕ) (found more next : β) : β :=
  if (h.mem p).size ≥ nunits then found else if p = h.freep then more else next

/-- The loop of **`malloc`**. -/
def mallocLoop (nunits : ℕ) : (fuel : ℕ) → Heap → List Bool → (prevp p : ℕ) →
    Option (Heap × Option ℕ)
  | 0, _, _, _, _ => none
  | fuel + 1, h, sbrk, prevp, p =>
    h.round nunits p (some ((h.take nunits prevp p).1, some (h.take nunits prevp p).2))
      ((h.morecore fuel nunits sbrk).bind fun x =>
        match x.2.2 with
        | none => some (x.1, none)
        | some p => mallocLoop nunits fuel x.1 x.2.1 p (x.1.mem p).ptr)
      (mallocLoop nunits fuel h sbrk p (h.mem p).ptr)

/-- The variable `base` becomes a list of its own. -/
def init (base : ℕ) (h : Heap) : Heap :=
  if h.freep = 0 then { h.set base ⟨base, 0⟩ with freep := base } else h

/-- **`malloc`**; the result is none for a null pointer. -/
def malloc (base : ℕ) (h : Heap) (fuel nbytes : ℕ) (sbrk : List Bool) :
    Option (Heap × Option ℕ) :=
  let nunits := (nbytes + 8 - 1) % 2 ^ 32 / 8 + 1
  let h := h.init base
  mallocLoop nunits fuel h sbrk h.freep (h.mem h.freep).ptr

end Heap

/-! ### Programs that use them -/

/-- A program: its heap, and the pointers that it has been given and not yet freed, with the numbers
of bytes that it has asked for. -/
structure State where
  heap : Heap
  live : List (ℕ × ℕ)

/-- What a program does. -/
inductive Act where
  /-- It calls `malloc`, with what becomes of the calls of `sbrk`. -/
  | malloc (fuel nbytes : ℕ) (sbrk : List Bool)
  /-- It calls `free`. -/
  | free (fuel ap : ℕ)
  /-- It writes to memory that it has been given. A header at the address `a` may become any other
  one if one of its bytes is among those. -/
  | store (a : ℕ) (x : Header)

/-- A program calls `malloc` for less than `2 ^ 31 - 64` bytes, and `free` for what it has been
given, and writes to no other memory. -/
def step (base : ℕ) (s : State) : Act → Option State
  | .malloc fuel n sbrk =>
    if n < 2 ^ 31 - 64 then
      (s.heap.malloc base fuel n sbrk).map fun x =>
        ⟨x.1, (x.2.map fun ap => (ap, n)).toList ++ s.live⟩
    else none
  | .free fuel ap =>
    if ap ∈ s.live.map Prod.fst then
      (s.heap.free fuel ap).map fun h => ⟨h, s.live.filter fun x => x.1 ≠ ap⟩
    else none
  | .store a x =>
    if s.live.any fun y => y.1 < a + 8 ∧ a < y.1 + y.2 then some { s with heap := s.heap.set a x }
    else none

/-- A program when it starts. -/
def start (mem : ℕ → Header) (brk : ℕ) : State := ⟨⟨mem, 0, brk⟩, []⟩

end Xv6.Malloc
