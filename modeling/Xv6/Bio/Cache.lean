import Xv6.Bio.Pool

/-!
# The buffer cache

The functions of `bio.c` as steps of a state with any number of processes: `bget`
and the end of `brelse` run under `bcache.lock`, taking the sleep-lock of a buffer
and transferring it to or from the disk are steps of their own. `iderw` moves a
whole block at once.

Two fields of `Xv6.Bio.Cache` are not in the source. `flat` is what the cache is
meant to be: the array of blocks that the processes think they work on, changed
whenever a process changes a buffer. `pending` marks the buffers that have been
changed and neither written to the disk nor handed to the log yet; a process that
gives such a buffer back breaks the rules of the cache.
-/

namespace Xv6.Bio

open Lib Function

/-- Where a process stands in the buffer cache. -/
inductive Pc where
  /-- Between two calls. -/
  | idle
  /-- In `bget` for a block, about to take the sleep-lock of the buffer. -/
  | getting (k : Key) (i : Slot)
  /-- In `bread`, with the buffer locked, about to look whether it is valid. -/
  | reading (k : Key) (i : Slot)
  /-- In `brelse`, about to decrement `refcnt`. -/
  | releasing (i : Slot)
  deriving DecidableEq

/-- The buffer cache and the disk. -/
structure Cache (Pid : Type) extends Pool Pid where
  disk : Key → Block
  pc : Pid → Pc
  /-- The array of blocks that the cache stands for. -/
  flat : Key → Block
  /-- The buffers that have been changed and not been logged or written since. -/
  pending : Slot → Bool

variable {Pid : Type} [DecidableEq Pid]

/-- Change one buffer. -/
def Cache.set (c : Cache Pid) (i : Slot) (b : Buf Pid) : Cache Pid :=
  { c with buf := update c.buf i b }

/-- Move one process. -/
def Cache.goto (c : Cache Pid) (p : Pid) (pc : Pc) : Cache Pid :=
  { c with pc := update c.pc p pc }

/-- `bget`, up to the sleep-lock. -/
def bget (c : Cache Pid) (p : Pid) (k : Key) : Effect (Cache Pid) :=
  (c.toPool.bget k).map fun x => { c with toPool := x.2 }.goto p (.getting k x.1)

/-- `iderw`: write a dirty buffer to the disk, or read one from it. -/
def iderw (c : Cache Pid) (i : Slot) : Cache Pid :=
  let b := c.buf i
  if b.dirty then
    { c.set i { b with dirty := false, valid := true } with
      disk := update c.disk b.key b.data
      pending := update c.pending i false }
  else
    c.set i { b with data := c.disk b.key, valid := true }

/-- The rest of `bread`, with the buffer locked. -/
def bread (c : Cache Pid) (p : Pid) (i : Slot) : Cache Pid :=
  (if (c.buf i).valid then c else iderw c i).goto p .idle

/-- `bwrite`. -/
def bwrite (c : Cache Pid) (p : Pid) (i : Slot) : Effect (Cache Pid) :=
  if (c.buf i).lock = some p then
    .ok (iderw (c.set i { c.buf i with dirty := true }) i)
  else
    .panic "bwrite"

/-- The beginning of `brelse`. -/
def brelse (c : Cache Pid) (p : Pid) (i : Slot) : Effect (Cache Pid) :=
  if (c.buf i).lock = some p then
    .ok ((c.set i { c.buf i with lock := none }).goto p (.releasing i))
  else
    .panic "brelse"

/-- The rest of `brelse`, under `bcache.lock`. -/
def release (c : Cache Pid) (p : Pid) (i : Slot) : Cache Pid :=
  { c with toPool := c.toPool.release i }.goto p .idle

/-- The next step of a call to the cache. -/
def next (c : Cache Pid) (p : Pid) : Effect (Cache Pid) :=
  match c.pc p with
  | .idle => .disabled
  | .getting k i =>
    if (c.buf i).lock = none then
      .ok ((c.set i { c.buf i with lock := some p }).goto p (.reading k i))
    else
      .disabled
  | .reading _ i => .ok (bread c p i)
  | .releasing i => .ok (release c p i)

/-- A process that has a buffer locked changes its contents. -/
def modify (c : Cache Pid) (i : Slot) (x : Block) : Cache Pid :=
  { c.set i { c.buf i with data := x } with
    flat := update c.flat (c.buf i).key x
    pending := update c.pending i true }

/-- The cache after `binit`, with some contents of the disk. -/
def init (disk : Key → Block) : Cache Pid where
  toPool := .init
  disk := disk
  pc := fun _ => .idle
  flat := disk
  pending := fun _ => false

theorem bget_ok {c c' : Cache Pid} {p : Pid} {k : Key} (hc : bget c p k = .ok c') :
    (∃ i, c.cached k = some i ∧
      c' = (c.set i { c.buf i with refcnt := (c.buf i).refcnt + 1 }).goto p (.getting k i)) ∨
    ∃ i, c.cached k = none ∧ c.unused = some i ∧ c' = (c.set i
      { c.buf i with key := k, valid := false, dirty := false, refcnt := 1 }).goto p
        (.getting k i) := by
  obtain ⟨⟨i, x⟩, hx, rfl⟩ := Effect.map_eq_ok.mp hc
  rcases Pool.bget_ok.mp hx with ⟨hi, rfl⟩ | ⟨hno, hi, rfl⟩
  · exact .inl ⟨i, hi, rfl⟩
  · exact .inr ⟨i, hno, hi, rfl⟩

theorem next_ok {c c' : Cache Pid} {p : Pid} (hc : next c p = .ok c') :
    (∃ k i, c.pc p = .getting k i ∧ (c.buf i).lock = none ∧
      c' = (c.set i { c.buf i with lock := some p }).goto p (.reading k i)) ∨
    (∃ k i, c.pc p = .reading k i ∧ c' = bread c p i) ∨
    ∃ i, c.pc p = .releasing i ∧ c' = release c p i := by
  unfold next at hc
  split at hc
  · cases hc
  · split at hc
    · exact .inl ⟨_, _, ‹_›, ‹_›, (Effect.ok.inj hc).symm⟩
    · cases hc
  · exact .inr (.inl ⟨_, _, ‹_›, (Effect.ok.inj hc).symm⟩)
  · exact .inr (.inr ⟨_, ‹_›, (Effect.ok.inj hc).symm⟩)

end Xv6.Bio
