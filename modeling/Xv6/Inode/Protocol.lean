import Mathlib.Data.Finset.Card
import Xv6.Inode.Cache
import Xv6.Lib.Run

/-!
# References to inodes: `iget`, `idup`, `ilock`, `iunlock`, `iput`

The inode cache as a concurrent system. A critical section under `icache.lock` or
under the sleep-lock of an entry is one action; `iput` has several of them, with
other processes running in between:

* it takes the sleep-lock (`Xv6.Inode.Pc.iput`);
* it looks at `valid` and `nlink` (`Xv6.Inode.Pc.test`), and then at `ref` under
  `icache.lock` (`Xv6.Inode.Pc.getref`);
* it frees the inode if it found the last reference (`Xv6.Inode.Pc.free`);
* it gives the sleep-lock back (`Xv6.Inode.Pc.unlock`);
* and only then it decrements `ref`, under `icache.lock`
  (`Xv6.Inode.Pc.drop`).

Between `ilock` and `iunlock` a process may change the inode as it likes, as long
as it writes it back and does not free it: `Xv6.Inode.Act.update`.

Who holds references is not the cache's business, but it matters who may drop
one. The state has a record of it that the code has not: how many references to
an entry are held outside of `iput`. A process relies on one of them from the
beginning of `ilock` to the end of `iunlock`. An open file may be shared, so
several processes may rely on the same reference; what the callers guarantee is
that it is not the last one that they hand to `iput` meanwhile.
-/

namespace Xv6.Inode

open Lib Function

/-- Where a process stands in the inode cache. -/
inductive Pc where
  /-- Between two calls, possibly with inodes locked. -/
  | idle
  /-- In `ilock`, about to take the sleep-lock. -/
  | ilock (i : Slot)
  /-- In `ilock`, about to look whether the inode has been read. -/
  | load (i : Slot)
  /-- In `iput`, about to take the sleep-lock. -/
  | iput (i : Slot)
  /-- In `iput`, about to look at `valid` and `nlink`. -/
  | test (i : Slot)
  /-- In `iput`, about to read `ref`. -/
  | getref (i : Slot)
  /-- In `iput`, about to free the inode. -/
  | free (i : Slot)
  /-- In `iput`, about to give the sleep-lock back. -/
  | unlock (i : Slot)
  /-- In `iput`, about to decrement `ref`. -/
  | drop (i : Slot)
  deriving DecidableEq

/-- The process is in an `iput` that holds the sleep-lock of `i`. -/
def Pc.Putting (i : Slot) : Pc → Prop
  | .test j | .getref j | .free j | .unlock j => j = i
  | _ => False

instance (i : Slot) : DecidablePred (Pc.Putting i)
  | .test j | .getref j | .free j | .unlock j => inferInstanceAs (Decidable (j = i))
  | .idle | .ilock _ | .load _ | .iput _ | .drop _ => .isFalse not_false

/-- The inode cache, the inodes on the disk as the log has them, the processes,
and the record of the references. -/
structure St (Pid : Type) where
  inode : Slot → Inode Pid Dinode
  disk : UInt32 → UInt32 → Dinode
  pc : Pid → Pc
  /-- How many references to an entry are held outside of `iput`. -/
  refs : Slot → ℤ
  /-- How many processes are waiting in `ilock`. -/
  waiting : Slot → ℤ
  /-- Whether the entry has been valid since `iget` set it up. -/
  loaded : Slot → Bool

/-- What can happen in the inode cache. -/
inductive Act (Pid : Type) where
  | iget (p : Pid) (dev inum : UInt32)
  | idup (p : Pid) (i : Slot)
  /-- The beginning of `ilock`. -/
  | ilock (p : Pid) (i : Slot)
  | iunlock (p : Pid) (i : Slot)
  /-- A process that has locked an inode changes it and calls `iupdate`. -/
  | update (p : Pid) (i : Slot) (d : Dinode)
  /-- The beginning of `iput`. -/
  | iput (p : Pid) (i : Slot)
  /-- A process does the next step of its call. -/
  | next (p : Pid)

variable {Pid : Type} [DecidableEq Pid]

/-- Change one entry. -/
def St.set (s : St Pid) (i : Slot) (ip : Inode Pid Dinode) : St Pid :=
  { s with inode := update s.inode i ip }

/-- Move one process. -/
def St.goto (s : St Pid) (p : Pid) (pc : Pc) : St Pid :=
  { s with pc := update s.pc p pc }

/-- The entry is locked by a process that is between `ilock` and `iunlock`. -/
def St.Locked (s : St Pid) (i : Slot) : Prop :=
  match (s.inode i).lock with
  | none => False
  | some p => ¬(s.pc p).Putting i

instance (s : St Pid) (i : Slot) : Decidable (s.Locked i) :=
  decidable_of_iff (∃ p ∈ (s.inode i).lock, ¬(s.pc p).Putting i) (by
    unfold St.Locked
    cases (s.inode i).lock <;> simp)

/-- `iupdate`: copy an entry to the disk. -/
def St.iupdate (s : St Pid) (i : Slot) : St Pid :=
  { s with
    disk := update s.disk (s.inode i).dev
      (update (s.disk (s.inode i).dev) (s.inode i).inum (s.inode i).d) }

/-- What `itrunc` makes of an inode. -/
def truncated (d : Dinode) : Dinode := { d with size := 0, addrs := fun _ => 0 }

/-- The inode has been freed: it was truncated and its type is zero. -/
def Freed (d : Dinode) : Prop := d.type = 0 ∧ d.size = 0 ∧ d.addrs = fun _ => 0

/-- `acquiresleep`, for a sleep-lock that is free. -/
def acquiresleep (s : St Pid) (p : Pid) (i : Slot) : St Pid :=
  s.set i { s.inode i with lock := some p }

/-- `releasesleep`. -/
def releasesleep (s : St Pid) (i : Slot) : St Pid :=
  s.set i { s.inode i with lock := none }

/-- The rest of `ilock`, with the sleep-lock held. -/
def load (s : St Pid) (p : Pid) (i : Slot) : Effect (St Pid) :=
  let ip := s.inode i
  if ip.valid then
    .ok (s.goto p .idle)
  else
    let d := s.disk ip.dev ip.inum
    if d.type = 0 then
      .panic "ilock: no type"
    else
      .ok ({ s.set i { ip with d := d, valid := true } with
        loaded := update s.loaded i true }.goto p .idle)

/-- The part of `iput` that frees the inode: `itrunc`, then `iupdate` with the
type zero. -/
def free (s : St Pid) (p : Pid) (i : Slot) : St Pid :=
  let ip := s.inode i
  let s := (s.set i { ip with d := { truncated ip.d with type := 0 } }).iupdate i
  (s.set i { s.inode i with valid := false }).goto p (.unlock i)

/-- The next step of a call. -/
def next (s : St Pid) (p : Pid) : Effect (St Pid) :=
  match s.pc p with
  | .idle => .disabled
  | .ilock i =>
    if (s.inode i).lock = none then
      .ok ({ acquiresleep s p i with
        waiting := update s.waiting i (s.waiting i - 1) }.goto p (.load i))
    else
      .disabled
  | .load i => load s p i
  | .iput i =>
    if (s.inode i).lock = none then
      .ok ((acquiresleep s p i).goto p (.test i))
    else
      .disabled
  | .test i =>
    if (s.inode i).valid ∧ (s.inode i).d.nlink = 0 then
      .ok (s.goto p (.getref i))
    else
      .ok (s.goto p (.unlock i))
  | .getref i => .ok (s.goto p (if (s.inode i).ref = 1 then .free i else .unlock i))
  | .free i => .ok (free s p i)
  | .unlock i => .ok ((releasesleep s i).goto p (.drop i))
  | .drop i => .ok ((s.set i { s.inode i with ref := (s.inode i).ref - 1 }).goto p .idle)

/-- What an action does. -/
def exec (s : St Pid) : Act Pid → Effect (St Pid)
  | .iget p dev inum =>
    if s.pc p = .idle then
      match Xv6.iget s.inode dev inum with
      | none => .panic "iget: no inodes"
      | some (i, c) => .ok { s with
          inode := c
          refs := update s.refs i (s.refs i + 1)
          -- an entry that is taken over starts a new life
          loaded := if (s.inode i).ref = 0 then update s.loaded i false else s.loaded }
    else .disabled
  | .idup p i =>
    if s.pc p = .idle ∧ 1 ≤ s.refs i then
      .ok { s.set i { s.inode i with ref := (s.inode i).ref + 1 } with
        refs := update s.refs i (s.refs i + 1) }
    else .disabled
  | .ilock p i =>
    if s.pc p = .idle ∧ 1 ≤ s.refs i then
      if (s.inode i).ref < 1 then .panic "ilock"
      else .ok ({ s with
        waiting := update s.waiting i (s.waiting i + 1) }.goto p (.ilock i))
    else .disabled
  | .iunlock p i =>
    if s.pc p = .idle then
      if (s.inode i).lock ≠ some p ∨ (s.inode i).ref < 1 then .panic "iunlock"
      else .ok (releasesleep s i)
    else .disabled
  | .update p i d =>
    if s.pc p = .idle ∧ (s.inode i).lock = some p ∧ d.type ≠ 0 then
      .ok ((s.set i { s.inode i with d := d }).iupdate i)
    else .disabled
  | .iput p i =>
    if s.pc p = .idle ∧ 1 ≤ s.refs i ∧ (2 ≤ s.refs i ∨ s.waiting i = 0 ∧ ¬s.Locked i) then
      .ok ({ s with refs := update s.refs i (s.refs i - 1) }.goto p (.iput i))
    else .disabled
  | .next p => next s p

/-- The steps of the cache: the actions that are possible and do not stop the
kernel. -/
def step (s : St Pid) (a : Act Pid) : Option (St Pid) := (exec s a).toOption

/-- The cache after `iinit`, with some inodes on the disk: no entry is in use and
nobody is in a call. -/
def init (disk : UInt32 → UInt32 → Dinode) : St Pid where
  inode := fun _ => ⟨0, 0, 0, none, false, ⟨0, 0, 0, 0, 0, fun _ => 0⟩⟩
  disk := disk
  pc := fun _ => .idle
  refs := fun _ => 0
  waiting := fun _ => 0
  loaded := fun _ => false

end Xv6.Inode
