import Xv6.Ide.Inv
import Xv6.Lib.Labels

/-!
# The driver refines a disk in memory

`memide.c` is a driver without interrupts: its `iderw` copies the block and returns. The driver
of `ide.c` does the same for requests that it can serve (`Xv6.Ide.ide_refines_memide`), for any
number of processes and whenever the interrupts are taken.

The request of a process takes effect when the disk has carried it out. From then on until
the interrupt is taken the buffer does not show it yet, so the mapping
(`Xv6.Ide.St.mem`) shows what `ideintr` is going to make of the first buffer in the queue
(`Xv6.Ide.St.settled`). Every other step is invisible. That a process may do what it does with
the other buffers in the meantime is `Xv6.Ide.Bufs.Step.settle`.
-/

namespace Xv6.Ide

open Lib Function Bio List

variable {Pid : Type}

/-! ### The disk in memory -/

/-- The system with `memide.c`, whose disk is an array of blocks. -/
structure Mem (Pid : Type) extends Bufs Pid where
  disksize : ℕ
  memdisk : ℕ → Block

/-- What a process does there: `iderw` is one step. -/
inductive MemAct (Pid : Type) where
  | user (u : User Pid)
  | iderw (p : Pid) (i : Slot)

/-- The request that a step is, if it is one. -/
def MemAct.request : MemAct Pid → Option (Pid × Slot)
  | .user _ => none
  | .iderw p i => some (p, i)

/-- The request of one process. -/
def MemAct.served [DecidableEq Pid] (p : Pid) : MemAct Pid → Option Slot
  | .user _ => none
  | .iderw q i => if q = p then some i else none

/-- The call of one process to the driver. -/
def Act.called [DecidableEq Pid] (p : Pid) : Act Pid → Option Slot
  | .iderw q i => if q = p then some i else none
  | _ => none

namespace Mem

/-- The block is copied. -/
def transfer (m : Mem Pid) (i : Slot) : Mem Pid :=
  let b := m.buf i
  if b.dirty then
    { m with
      toBufs := m.toBufs.set i { b with dirty := false, valid := true }
      memdisk := update m.memdisk b.key.2 b.data }
  else
    { m with toBufs := m.toBufs.set i { b with data := m.memdisk b.key.2, valid := true } }

variable [DecidableEq Pid]

/-- `iderw` of `memide.c`. -/
def iderw (m : Mem Pid) (p : Pid) (i : Slot) : Effect (Mem Pid) :=
  if (m.buf i).lock ≠ some p then .panic "iderw: buf not locked"
  else if Done (m.buf i) then .panic "iderw: nothing to do"
  else if (m.buf i).key.1 ≠ 1 then .panic "iderw: request not for disk 1"
  else if (m.buf i).key.2 ≥ m.disksize then .panic "iderw: block out of range"
  else .ok (m.transfer i)

def exec (m : Mem Pid) : MemAct Pid → Effect (Mem Pid)
  | .user u => (m.toBufs.exec u).map fun c => { m with toBufs := c }
  | .iderw p i => if m.pos p = .idle then m.iderw p i else .disabled

def step (m : Mem Pid) (a : MemAct Pid) : Option (Mem Pid) := (m.exec a).toOption

/-- The system after `binit` and `ideinit`. -/
def init (disksize : ℕ) (memdisk : ℕ → Block) : Mem Pid where
  toBufs := Bufs.init
  disksize := disksize
  memdisk := memdisk

end Mem

/-! ### A buffer that will be finished -/

namespace Bufs

/-- The buffers after `ideintr` has finished one of them. -/
def settle (c : Bufs Pid) (h : Slot) (err : Bool) (inp : Block) : Bufs Pid :=
  c.set h (St.finish (c.buf h) err inp)

section Settle

variable {c c' : Bufs Pid} {h i : Slot} {err : Bool} {inp : Block}

theorem settle_buf_of_ne (hi : i ≠ h) : (c.settle h err inp).buf i = c.buf i :=
  update_of_ne hi ..

theorem settle_buf_self : (c.settle h err inp).buf h = St.finish (c.buf h) err inp :=
  update_self ..

/-- The block, the sleep-lock and the references of a buffer stay as they are. -/
theorem settle_same (c : Bufs Pid) (h : Slot) (err : Bool) (inp : Block) (i : Slot) :
    ((c.settle h err inp).buf i).key = (c.buf i).key ∧
      ((c.settle h err inp).buf i).lock = (c.buf i).lock ∧
      ((c.settle h err inp).buf i).refcnt = (c.buf i).refcnt := by
  rcases eq_or_ne i h with rfl | hi
  · rw [settle_buf_self]
    exact St.finish_key ..
  · rw [settle_buf_of_ne hi]
    exact ⟨rfl, rfl, rfl⟩

theorem settle_cached (k : Key) : (c.settle h err inp).cached k = c.cached k := by
  have hlist : (c.settle h err inp).list = c.list := rfl
  exact Pool.cached_congr hlist (fun i => (settle_same c h err inp i).1) k

theorem settle_unused (hpos : 0 < (c.buf h).refcnt) : (c.settle h err inp).unused = c.unused := by
  unfold Pool.unused
  congr 1
  funext i
  rcases eq_or_ne i h with rfl | hi
  · rw [(settle_same ..).2.2]
    have : ¬(c.buf i).refcnt = 0 := by omega
    simp [this]
  · rw [settle_buf_of_ne hi]

theorem settle_set_of_ne (hi : i ≠ h) (b : Buf Pid) :
    (c.settle h err inp).set i b = (c.set i b).settle h err inp := by
  have hbuf : (c.set i b).buf h = c.buf h := update_of_ne hi.symm ..
  rw [settle, settle, hbuf]
  simp only [set, update_comm hi]

theorem finish_refcnt (b : Buf Pid) (n : ℕ) :
    St.finish { b with refcnt := n } err inp = { St.finish b err inp with refcnt := n } := by
  unfold St.finish
  split <;> rfl

theorem settle_set_refcnt (n : ℕ) :
    (c.settle h err inp).set i { (c.settle h err inp).buf i with refcnt := n } =
      (c.set i { c.buf i with refcnt := n }).settle h err inp := by
  rcases eq_or_ne i h with rfl | hi
  · have hbuf : (c.set i { c.buf i with refcnt := n }).buf i = { c.buf i with refcnt := n } :=
      update_self ..
    rw [settle_buf_self, settle, settle, hbuf, finish_refcnt (c.buf i) n]
    simp only [set, update_idem]
  · rw [settle_buf_of_ne hi, settle_set_of_ne hi]

variable [DecidableEq Pid]

/-- **What a process does with the buffers has nothing to do with the buffer of another process
that will be finished.** -/
theorem Step.settle {u : User Pid} {q : Pid} (hs : c.Step u c') (hc : c.Inv)
    (hl : (c.buf h).lock = some q) (hq : q ≠ u.pid) :
    (c.settle h err inp).Step u (c'.settle h err inp) := by
  have hpos := hc.refcnt_pos_of_lock hl
  have hlock : ∀ {i}, (c.buf i).lock = some u.pid → i ≠ h := fun {i} hi hih => by
    rw [hih, hl] at hi
    exact hq (Option.some.inj hi)
  cases hs with
  | @hit p k i hp hk hi =>
    have hstep := Step.hit (c := c.settle h err inp) hp hk ((settle_cached k).trans hi)
    rwa [settle_set_refcnt, (settle_same ..).2.2] at hstep
  | @recycle p k i hp hk hno hi =>
    have hih : i ≠ h := fun hih => by
      rw [← hih, (Pool.refcnt_of_unused hi).1] at hpos
      omega
    have hstep := Step.recycle (c := c.settle h err inp) hp hk ((settle_cached k).trans hno)
      ((settle_unused hpos).trans hi)
    rwa [settle_buf_of_ne hih, settle_set_of_ne hih] at hstep
  | @acquire p i hp hfree =>
    have hih : i ≠ h := fun hih => by
      rw [hih, hl] at hfree
      cases hfree
    have hstep := Step.acquire (c := c.settle h err inp) hp (by rwa [settle_buf_of_ne hih])
    rwa [settle_buf_of_ne hih, settle_set_of_ne hih] at hstep
  | @modify p i f hp hi =>
    have hih := hlock hi
    have hstep := Step.modify (c := c.settle h err inp) (f := f) hp
      (by rwa [settle_buf_of_ne hih])
    rwa [settle_buf_of_ne hih, settle_set_of_ne hih] at hstep
  | @dirty p i hp hi =>
    have hih := hlock hi
    have hstep := Step.dirty (c := c.settle h err inp) hp (by rwa [settle_buf_of_ne hih])
    rwa [settle_buf_of_ne hih, settle_set_of_ne hih] at hstep
  | @brelse p i hp hi =>
    have hih := hlock hi
    have hstep := Step.brelse (c := c.settle h err inp) hp (by rwa [settle_buf_of_ne hih])
    rwa [settle_buf_of_ne hih, settle_set_of_ne hih] at hstep
  | @release p i hp =>
    have hstep := Step.release (c := c.settle h err inp) hp
    have hrelease : (c.settle h err inp).release p i =
        Bufs.goto { (c.settle h err inp).set i { (c.settle h err inp).buf i with
            refcnt := ((c.settle h err inp).buf i).refcnt - 1 } with
          list := if ((c.settle h err inp).buf i).refcnt - 1 = 0 then i :: c.list.erase i
            else c.list } p .idle := rfl
    rwa [hrelease, settle_set_refcnt, (settle_same ..).2.2] at hstep

end Settle

end Bufs

/-! ### The mapping -/

namespace St

/-- The buffers, with the one that the disk is done with as `ideintr` will leave it. -/
def settled (c : Bufs Pid) : Ctl → List Slot → Bufs Pid
  | .done err inp, i :: _ => c.settle i err inp
  | _, _ => c

/-- **The refinement mapping.** -/
def mem (n : ℕ) (s : St Pid) : Mem Pid where
  toBufs := settled s.toBufs s.ctl s.idequeue
  disksize := n
  memdisk := fun b => s.disk (1, b)

/-- The buffers in the queue that the disk is not done with. -/
def pending : Ctl → List Slot → List Slot
  | .done _ _, q => q.tail
  | _, q => q

/-- The request for a buffer is that of the process that has it locked. -/
def request (s : St Pid) (i : Slot) : Option (Pid × Slot) := (s.buf i).lock.map fun p => (p, i)

/-- What a step does to the disk in memory: the request is served when the disk is done with
it. -/
def label (s : St Pid) : Act Pid → Option (MemAct Pid)
  | .user u => some (.user u)
  | .complete _ => (s.idequeue.head?.bind s.request).map fun r => .iderw r.1 r.2
  | _ => none

variable [DecidableEq Pid]

/-- The steps of the disk in memory for a run of the driver. -/
def trace (s : St Pid) (as : List (Act Pid)) : List (MemAct Pid) := labels step label s as

/-- A process enters a buffer into the queue. -/
def entered (s : St Pid) : Act Pid → Option (Pid × Slot)
  | .enter p => (s.drv p).map fun d => (p, d.slot)
  | _ => none

/-- What a process is still waiting for, with what the disk is not done with. -/
def owing (q : List Slot) : Option Drv → List Slot
  | some (.entering i) => [i]
  | some (.asleep i) | some (.awake i) => if i ∈ q then [i] else []
  | none => []

/-- The request of a process that has not been served yet. -/
def owed (p : Pid) (s : St Pid) : List Slot := owing (pending s.ctl s.idequeue) (s.drv p)

/-- The requests are for blocks on disk 1, and the disk reports no errors. -/
def OnDisk1 (n : ℕ) (s : St Pid) : Act Pid → Prop
  | .iderw _ i => (s.buf i).key.1 = 1 ∧ (s.buf i).key.2 < n
  | .complete err => err = false
  | _ => True

instance (n : ℕ) (s : St Pid) : ∀ a, Decidable (s.OnDisk1 n a)
  | .iderw _ _ => inferInstanceAs (Decidable (_ ∧ _))
  | .complete err => inferInstanceAs (Decidable (err = false))
  | .user _ | .enter _ | .rouse _ | .loop _ | .intr => inferInstanceAs (Decidable True)

/-- What holds in the runs with such requests. -/
structure Fit (n : ℕ) (s : St Pid) : Prop where
  inv : s.Inv
  key : ∀ p d, s.drv p = some d → (s.buf d.slot).key.1 = 1 ∧ (s.buf d.slot).key.2 < n
  err : ∀ inp, s.ctl ≠ .done true inp

section Fit

variable {n : ℕ} {s t : St Pid} {a : Act Pid} {p : Pid} {i : Slot} {q : List Slot} {x : Option Drv}
  {ctl : Ctl} {b : Buf Pid} {d : Drv}

omit [DecidableEq Pid] in
theorem fit_init (n : ℕ) (disk : Key → Block) (havedisk1 : Bool) :
    (init disk havedisk1 : St Pid).Fit n where
  inv := inv_init disk havedisk1
  key := fun p d hd => absurd hd (by simp [init])
  err := fun inp hc => by cases hc

/-- A process goes on in `iderw`. -/
theorem key_update (h : s.Fit n) {e : Drv} (hp : s.drv p = some e)
    (hx : ∀ d, x = some d → d.slot = e.slot) (q : Pid) (d : Drv) (hq : update s.drv p x q = some d) :
    (s.buf d.slot).key.1 = 1 ∧ (s.buf d.slot).key.2 < n := by
  rcases eq_or_ne q p with rfl | hqp
  · rw [update_self] at hq
    rw [hx d hq]
    exact h.key q e hp
  · rw [update_of_ne hqp] at hq
    exact h.key q d hq

theorem Fit.step (h : s.Fit n) (ha : s.OnDisk1 n a) (hs : s.step a = some t) : t.Fit n := by
  have hinv := h.inv.of_step hs
  cases h.inv.step_cases hs with
  | @user u c hd hu =>
    refine ⟨hinv, fun p d hp => ?_, h.err⟩
    have hpu : p ≠ u.pid := fun hpu => by
      rw [hpu, hd] at hp
      cases hp
    obtain ⟨m, hm⟩ := hu.buf_of_lock h.inv.bufs (h.inv.calls p d hp).1 hpu
    rw [hm]
    exact h.key p d hp
  | @iderw p i hd hp hl hf =>
    refine ⟨hinv, fun q d hq => ?_, h.err⟩
    rcases eq_or_ne q p with rfl | hqp
    · obtain rfl : Drv.entering i = d := by simpa using hq
      exact ha
    · exact h.key q d (by simpa [hqp] using hq)
  | first hd hq hc =>
    exact ⟨hinv, key_update h hd (by rintro _ ⟨⟩; rfl), fun inp => command_ne_done _ _ _⟩
  | append hd hq => exact ⟨hinv, key_update h hd (by rintro _ ⟨⟩; rfl), h.err⟩
  | rouse hd => exact ⟨hinv, key_update h hd (by rintro _ ⟨⟩; rfl), h.err⟩
  | again hd hf => exact ⟨hinv, key_update h hd (by rintro _ ⟨⟩; rfl), h.err⟩
  | leave hd hf => exact ⟨hinv, key_update h hd nofun, h.err⟩
  | write err hq hc hf =>
    refine ⟨hinv, h.key, fun inp hdone => ?_⟩
    subst ha
    cases hdone
  | read err hq hc hf =>
    refine ⟨hinv, h.key, fun inp hdone => ?_⟩
    subst ha
    cases hdone
  | @intr i q err inp hq hc =>
    refine ⟨hinv, fun p d hp => ?_, fun _ => next_ne_done _ _ _ _⟩
    obtain ⟨e, he, hed⟩ := slot_of_wakeup hp
    have hkey := (Bufs.settle_same s.toBufs i err inp d.slot).1
    change ((s.toBufs.settle i err inp).buf d.slot).key.1 = 1 ∧
      ((s.toBufs.settle i err inp).buf d.slot).key.2 < n
    rw [hkey, ← hed]
    exact h.key p e he

/-! ### Every step is a step of the disk in memory, or none -/

omit [DecidableEq Pid] in
theorem settled_of_not_done {c : Bufs Pid} (hc : ∀ err inp, ctl ≠ .done err inp) (q : List Slot) :
    settled c ctl q = c := by
  cases ctl with
  | idle | busy => rfl
  | done err inp => exact absurd rfl (hc err inp)

omit [DecidableEq Pid] in
/-- The controller is done with the first buffer in the queue, or it is not done. -/
theorem Inv.done_cases (h : s.Inv) : (∀ err inp, s.ctl ≠ .done err inp) ∨
    ∃ i q err inp, s.ctl = .done err inp ∧ s.idequeue = i :: q := by
  have hserves := h.serves
  cases hc : s.ctl with
  | idle => exact .inl fun err inp hd => by cases hd
  | busy k out => exact .inl fun err inp hd => by cases hd
  | done err inp =>
    rw [hc] at hserves
    generalize s.idequeue = queue at hserves
    cases hserves with
    | @done i q _ _ hread hwrite => exact .inr ⟨i, q, err, inp, rfl, rfl⟩

/-- A process uses the buffers. -/
theorem Fit.mem_user (h : s.Fit n) {u : User Pid} {c : Bufs Pid} (hd : s.drv u.pid = none)
    (hu : s.toBufs.Step u c) : (s.mem n).step (.user u) = some (mem n { s with toBufs := c }) := by
  have hsettled : (settled s.toBufs s.ctl s.idequeue).Step u (settled c s.ctl s.idequeue) := by
    rcases h.inv.done_cases with hc | ⟨i, q, err, inp, hc, hq⟩
    · rwa [settled_of_not_done hc, settled_of_not_done hc]
    · obtain ⟨p, d, hp, -, hl, -⟩ := h.inv.waiter (i := i) (by rw [hq]; exact mem_cons_self)
      have hpu : p ≠ u.pid := fun hpu => by
        rw [hpu, hd] at hp
        cases hp
      rw [hc, hq]
      exact hu.settle h.inv.bufs hl hpu
  exact Effect.toOption_eq_some.mpr
    (Effect.map_eq_ok.mpr ⟨_, Bufs.exec_eq_ok.mpr hsettled, rfl⟩)

section

omit [DecidableEq Pid]

/-- The request for the first buffer is that of the process that waits for it. -/
theorem Fit.label_complete (h : s.Fit n) (err : Bool) (hq : s.idequeue = i :: q) :
    ∃ p d, s.label (.complete err) = some (.iderw p i) ∧ s.drv p = some d ∧
      (d = .asleep i ∨ d = .awake i) ∧ (s.buf i).lock = some p ∧ s.pos p = .idle := by
  obtain ⟨p, d, hp, hd, hl, hpos⟩ := h.inv.waiter (i := i) (by rw [hq]; exact mem_cons_self)
  refine ⟨p, d, ?_, hp, hd, hl, hpos⟩
  rw [label, hq, head?_cons, Option.bind_some, request, hl]
  rfl

/-- The buffer that a command is for is on disk 1. -/
theorem Fit.key_head (h : s.Fit n) (hq : s.idequeue = i :: q) :
    (s.buf i).key.1 = 1 ∧ (s.buf i).key.2 < n := by
  obtain ⟨p, d, -, hp, hd, -, -⟩ := h.label_complete false hq
  rcases hd with rfl | rfl
  · exact h.key p _ hp
  · exact h.key p _ hp

/-- While a command is running, the buffers are as they are. -/
theorem mem_of_command (hc : s.ctl = command b) :
    s.mem n = ⟨s.toBufs, n, fun b => s.disk (1, b)⟩ := by
  rw [mem, hc]
  rfl

end

/-- **When the disk is done with a request, it is served.** -/
theorem Fit.mem_complete (h : s.Fit n) (err : Bool) (hq : s.idequeue = i :: q)
    (hc : s.ctl = command (s.buf i)) :
    ∃ p, s.label (.complete err) = some (.iderw p i) ∧
      (s.mem n).step (.iderw p i) = some ((s.mem n).transfer i) := by
  obtain ⟨p, d, hlabel, hp, hd, hl, hpos⟩ := h.label_complete err hq
  obtain ⟨hdev, hblock⟩ := h.key_head hq
  refine ⟨p, hlabel, Effect.toOption_eq_some.mpr ?_⟩
  rw [mem_of_command hc, Mem.exec, if_pos hpos, Mem.iderw, if_neg (not_not.mpr hl),
    if_neg (h.inv.queued i (by rw [hq]; exact mem_cons_self)).1, if_neg (not_not.mpr hdev),
    if_neg (Nat.not_le.mpr hblock)]

omit [DecidableEq Pid] in
/-- A dirty buffer has been written. -/
theorem Fit.transfer_write (h : s.Fit n) (err : Bool) (hq : s.idequeue = i :: q)
    (hc : s.ctl = command (s.buf i)) (hf : (s.buf i).dirty = true) :
    (s.mem n).transfer i = mem n { s with
        disk := update s.disk (sector (s.buf i).key) (s.buf i).data
        ctl := .done err (s.disk (sector (s.buf i).key)) } := by
  have hsector : sector (s.buf i).key = (1, (s.buf i).key.2) := by
    rw [sector, (h.key_head hq).1]
  have hdisk : (fun b => update s.disk (1, (s.buf i).key.2) (s.buf i).data (1, b)) =
      update (fun b => s.disk (1, b)) (s.buf i).key.2 (s.buf i).data := by
    funext b
    rcases eq_or_ne b (s.buf i).key.2 with rfl | hb
    · rw [update_self, update_self]
    · rw [update_of_ne hb, update_of_ne (by simpa using hb)]
  rw [mem_of_command hc, Mem.transfer, if_pos hf, mem, hsector, hdisk, hq]
  simp only [settled, Bufs.settle, finish, hf, Bool.true_eq_false, false_and, if_false]

omit [DecidableEq Pid] in
/-- A buffer that is not dirty has been read. -/
theorem Fit.transfer_read (h : s.Fit n) (hq : s.idequeue = i :: q)
    (hc : s.ctl = command (s.buf i)) (hf : (s.buf i).dirty = false) :
    (s.mem n).transfer i = mem n { s with ctl := .done false (s.disk (sector (s.buf i).key)) } := by
  have hsector : sector (s.buf i).key = (1, (s.buf i).key.2) := by
    rw [sector, (h.key_head hq).1]
  rw [mem_of_command hc, Mem.transfer, if_neg (by simp [hf]), mem, hsector, hq]
  simp only [settled, Bufs.settle, finish, hf, and_self, if_true]

/-- **A step of the driver is the step of the disk in memory that its label says.** -/
theorem Fit.mem_step (h : s.Fit n) (ha : s.OnDisk1 n a) (hs : s.step a = some t) :
    run Mem.step (s.mem n) (s.label a).toList = some (t.mem n) := by
  cases h.inv.step_cases hs with
  | user hd hu =>
    exact run_cons.mpr ⟨_, h.mem_user hd hu, rfl⟩
  | iderw hd hp hl hf => rfl
  | @first p i hd hq hc =>
    rw [mem, hc]
    rfl
  | @append p i hd hq =>
    have hsettled : settled s.toBufs s.ctl (s.idequeue ++ [i]) =
        settled s.toBufs s.ctl s.idequeue := by
      rcases h.inv.done_cases with hc | ⟨j, q, err, inp, hc, hq⟩
      · rw [settled_of_not_done hc, settled_of_not_done hc]
      · rw [hc, hq]
        rfl
    rw [mem, mem, hsettled]
    rfl
  | rouse hd => rfl
  | again hd hf => rfl
  | leave hd hf => rfl
  | write err hq hc hf =>
    obtain ⟨p, hlabel, hstep⟩ := h.mem_complete err hq hc
    rw [hlabel, ← h.transfer_write err hq hc hf]
    exact run_cons.mpr ⟨_, hstep, rfl⟩
  | read err hq hc hf =>
    obtain ⟨p, hlabel, hstep⟩ := h.mem_complete err hq hc
    subst ha
    rw [hlabel, ← h.transfer_read hq hc hf]
    exact run_cons.mpr ⟨_, hstep, rfl⟩
  | @intr i q err inp hq hc =>
    change some (mem n s) = some ⟨settled (s.toBufs.settle i err inp) (next s.buf q) q, n,
      fun b => s.disk (1, b)⟩
    rw [settled_of_not_done (next_ne_done s.buf q), mem, hc, hq]
    rfl

/-! ### The requests are served in order -/

theorem pending_of_not_done (hc : ∀ err inp, ctl ≠ .done err inp) (q : List Slot) :
    pending ctl q = q := by
  cases ctl with
  | idle | busy => rfl
  | done err inp => exact absurd rfl (hc err inp)

theorem mem_of_pending (hi : i ∈ pending ctl q) : i ∈ q := by
  cases ctl with
  | idle | busy => exact hi
  | done err inp => exact mem_of_mem_tail hi

theorem pending_append (ctl : Ctl) (hq : q ≠ []) (i : Slot) :
    pending ctl (q ++ [i]) = pending ctl q ++ [i] := by
  cases ctl with
  | idle | busy => rfl
  | done err inp => exact tail_append_of_ne_nil hq

/-- The requests that the disk is not done with. -/
def requests (s : St Pid) : List (Pid × Slot) :=
  (pending s.ctl s.idequeue).filterMap s.request

section

omit [DecidableEq Pid]

theorem filterMap_request (hlock : ∀ i ∈ q, (t.buf i).lock = (s.buf i).lock) :
    q.filterMap t.request = q.filterMap s.request :=
  filterMap_congr fun i hi => by rw [request, request, hlock i hi]

theorem Inv.request_of_drv (h : s.Inv) (hd : s.drv p = some d) :
    s.request d.slot = some (p, d.slot) := by
  rw [request, (h.calls p d hd).1]
  rfl

theorem Inv.requests_head (h : s.Inv) (q : List Slot) (hd : s.drv p = some d) :
    (d.slot :: q).filterMap s.request = (p, d.slot) :: q.filterMap s.request := by
  rw [filterMap_cons, h.request_of_drv hd]

/-- The disk is done with the first request. -/
theorem Fit.requests_complete (h : s.Fit n) (err : Bool) (hq : s.idequeue = i :: q)
    (hc : s.ctl = command b) :
    s.requests ++ (s.entered (.complete err)).toList =
      ((s.label (.complete err)).bind MemAct.request).toList ++ q.filterMap s.request := by
  obtain ⟨p, d, hlabel, hp, hd, -, -⟩ := h.label_complete err hq
  have hslot : d.slot = i := by rcases hd with rfl | rfl <;> rfl
  have hhead := h.inv.requests_head q hp
  rw [hslot] at hhead
  rw [hlabel, requests, hc, hq]
  change (i :: q).filterMap s.request ++ [] = [(p, i)] ++ q.filterMap s.request
  rw [hhead, append_nil]
  rfl

end

/-- **The requests come out of the queue in the order in which they have gone in.** -/
theorem Fit.requests_step (h : s.Fit n) (hs : s.step a = some t) :
    s.requests ++ (s.entered a).toList =
      ((s.label a).bind MemAct.request).toList ++ t.requests := by
  have hinv := h.inv
  cases h.inv.step_cases hs with
  | @user u c hd hu =>
    change s.requests ++ [] = [] ++ (pending s.ctl s.idequeue).filterMap _
    rw [append_nil, nil_append]
    refine (filterMap_request fun i hi => ?_).symm
    obtain ⟨p, d, hp, -, hl, -⟩ := hinv.waiter (mem_of_pending hi)
    have hpu : p ≠ u.pid := fun hpu => by
      rw [hpu, hd] at hp
      cases hp
    obtain ⟨m, hm⟩ := hu.buf_of_lock hinv.bufs hl hpu
    rw [hm]
  | iderw hd hp hl hf => exact append_nil _
  | @first p i hd hq hc =>
    rw [requests, hc, hq, entered, hd]
    exact (hinv.requests_head [] hd).symm
  | @append p i hd hq =>
    change s.requests ++ (s.entered (.enter p)).toList =
      (pending s.ctl (s.idequeue ++ [i])).filterMap s.request
    rw [pending_append s.ctl hq, filterMap_append, entered, hd]
    exact congrArg (s.requests ++ ·) (hinv.requests_head [] hd).symm
  | rouse hd => exact append_nil _
  | again hd hf => exact append_nil _
  | leave hd hf => exact append_nil _
  | write err hq hc hf =>
    rw [h.requests_complete err hq hc, requests, hq]
    rfl
  | read err hq hc hf =>
    rw [h.requests_complete err hq hc, requests, hq]
    rfl
  | @intr i q err inp hq hc =>
    change s.requests ++ [] = [] ++ (pending (next s.buf q) q).filterMap _
    rw [pending_of_not_done (next_ne_done s.buf q), append_nil, nil_append, requests, hc,
      hq]
    exact (filterMap_request fun j _ => (Bufs.settle_same s.toBufs i err inp j).2.1).symm

/-! ### A process returns when its request has been served -/

/-- What is owed to a process only depends on its own buffer. -/
theorem owing_congr {q' : List Slot} (h : ∀ d, x = some d → (d.slot ∈ q' ↔ d.slot ∈ q)) :
    owing q' x = owing q x := by
  cases x with
  | none => rfl
  | some d =>
    have hiff := h d rfl
    cases d with
    | entering i => rfl
    | asleep i => exact if_congr hiff rfl rfl
    | awake i => exact if_congr hiff rfl rfl

theorem owing_update {drv : Pid → Option Drv} {r : Pid} (hx : owing q x = owing q (drv r))
    (p : Pid) :
    owing q (drv p) = owing q (update drv r x p) := by
  rcases eq_or_ne p r with rfl | hpr
  · rw [update_self, hx]
  · rw [update_of_ne hpr]

/-- A process enters its buffer into the queue. -/
theorem Inv.owing_enter (h : s.Inv) {r : Pid} (hd : s.drv r = some (.entering i)) (q : List Slot)
    (p : Pid) : owing q (s.drv p) = owing (q ++ [i]) (update s.drv r (some (.asleep i)) p) := by
  rcases eq_or_ne p r with rfl | hpr
  · rw [update_self, hd]
    exact (if_pos (mem_append_right q mem_cons_self)).symm
  · rw [update_of_ne hpr]
    refine (owing_congr fun d hp => ?_).symm
    rw [mem_append, or_iff_left]
    exact fun hi => hpr (h.eq_of_slot hp hd (mem_singleton.mp hi))

variable (h : s.Fit n)
include h

/-- The disk is done with the first request. -/
theorem Fit.owed_complete (err : Bool) (hq : s.idequeue = i :: q)
    (hc : s.ctl = command b) (p : Pid) :
    s.owed p ++ (Act.called p (.complete err)).toList =
      ((s.label (.complete err)).bind (MemAct.served p)).toList ++ owing q (s.drv p) := by
  obtain ⟨r, d, hlabel, hr, hd, -, -⟩ := h.label_complete err hq
  have hnodup : (i :: q).Nodup := hq ▸ h.inv.nodup
  rw [hlabel, owed, hc, hq]
  change owing (i :: q) (s.drv p) ++ [] = (if r = p then some i else none).toList ++ _
  rw [append_nil]
  rcases eq_or_ne r p with rfl | hrp
  · have hin : ∀ l, owing l (some d) = if i ∈ l then [i] else [] := fun l => by
      rcases hd with rfl | rfl <;> rfl
    rw [hr, hin, hin, if_pos mem_cons_self, if_pos rfl,
      if_neg (nodup_cons.mp hnodup).1]
    rfl
  · rw [if_neg hrp]
    refine owing_congr fun e he => ?_
    rw [mem_cons, or_iff_right]
    intro hei
    refine hrp (h.inv.eq_of_slot hr he ?_)
    rcases hd with rfl | rfl <;> exact hei.symm

/-- **A call is served before it returns.** -/
theorem Fit.owed_step (p : Pid) (hs : s.step a = some t) :
    s.owed p ++ (a.called p).toList = ((s.label a).bind (MemAct.served p)).toList ++ t.owed p := by
  have hinv := h.inv
  cases h.inv.step_cases hs with
  | user hd hu => exact append_nil _
  | @iderw q i hd hp hl hf =>
    change owing (pending s.ctl s.idequeue) (s.drv p) ++ (if q = p then some i else none).toList =
      owing (pending s.ctl s.idequeue) (update s.drv q (some (.entering i)) p)
    rcases eq_or_ne q p with rfl | hqp
    · rw [hd, if_pos rfl, update_self]
      rfl
    · rw [if_neg hqp, update_of_ne hqp.symm]
      exact append_nil _
  | @first q i hd hq hc =>
    change owing (pending s.ctl s.idequeue) (s.drv p) ++ [] = owing [i] _
    rw [append_nil, hc, hq]
    exact hinv.owing_enter hd [] p
  | @append q i hd hq =>
    change owing (pending s.ctl s.idequeue) (s.drv p) ++ [] =
      owing (pending s.ctl (s.idequeue ++ [i])) _
    rw [append_nil, pending_append s.ctl hq]
    exact hinv.owing_enter hd _ p
  | @rouse q i hd =>
    refine (append_nil _).trans (owing_update ?_ p)
    rw [hd]
    rfl
  | @again q i hd hf =>
    refine (append_nil _).trans (owing_update ?_ p)
    rw [hd]
    rfl
  | @leave q i hd hf =>
    refine (append_nil _).trans (owing_update ?_ p)
    rw [hd]
    exact (if_neg fun hi => (hinv.queued i (mem_of_pending hi)).1 hf).symm
  | write err hq hc hf =>
    rw [h.owed_complete err hq hc, owed, hq]
    rfl
  | read err hq hc hf =>
    rw [h.owed_complete err hq hc, owed, hq]
    rfl
  | @intr i q err inp hq hc =>
    change owing (pending s.ctl s.idequeue) (s.drv p) ++ [] =
      owing (pending (next s.buf q) q) (wakeup s.drv i p)
    rw [append_nil, pending_of_not_done (next_ne_done s.buf q), hc, hq]
    change owing q (s.drv p) = _
    by_cases hd : s.drv p = some (.asleep i)
    · rw [wakeup_of_eq hd, hd]
      rfl
    · rw [wakeup_of_ne hd]

/-! ### The driver is never refused by the disk -/

omit [DecidableEq Pid] in
theorem Fit.idestart (hn : n ≤ FSSIZE) {u : St Pid} (hd : s.drv p = some d)
    (hbuf : u.buf d.slot = s.buf d.slot) (hc : u.ctl = .idle) : ∃ v, u.idestart d.slot = .ok v := by
  have hlt : ¬(u.buf d.slot).key.2 ≥ FSSIZE := by
    rw [hbuf]
    exact Nat.not_le.mpr ((h.key p d hd).2.trans_le hn)
  rw [St.idestart, if_neg hlt, hc]
  exact ⟨_, rfl⟩

/-- A process that is to enter its buffer into the queue does not wait for the disk there. -/
theorem Fit.enter (hn : n ≤ FSSIZE) (hd : s.drv p = some (.entering i)) :
    ∃ t, s.step (.enter p) = some t := by
  have hstart : ∃ v, startFirst { s with idequeue := s.idequeue ++ [i] } i = .ok v := by
    cases hq : s.idequeue with
    | nil =>
      rw [startFirst, if_pos (by simp)]
      exact h.idestart hn hd rfl (h.inv.idle_of_nil hq)
    | cons j q =>
      have hji : j ≠ i := fun hji =>
        (h.inv.calls p _ hd).2.2.1 (by rw [hq, hji]; exact mem_cons_self)
      rw [startFirst, if_neg (by simpa using hji)]
      exact ⟨_, rfl⟩
  obtain ⟨v, hv⟩ := hstart
  refine ⟨v.round p i, Effect.toOption_eq_some.mpr ?_⟩
  simp only [exec, hd]
  rw [hv]
  rfl

/-- The interrupt handler does not wait for the disk either. -/
theorem Fit.ideintr (hn : n ≤ FSSIZE) {err : Bool} {inp : Block}
    (hc : s.ctl = .done err inp) : ∃ t, s.step .intr = some t := by
  have hintr : ∃ t, s.ideintr err inp = .ok t := by
    rcases h.inv.done_cases with hnot | ⟨i, q, _, _, -, hq⟩
    · exact absurd hc (hnot err inp)
    · rw [St.ideintr, hq]
      cases q with
      | nil => exact ⟨_, rfl⟩
      | cons j q =>
        have hnodup : (i :: j :: q).Nodup := hq ▸ h.inv.nodup
        have hji : j ≠ i := fun hji => (nodup_cons.mp hnodup).1 (by simp [hji])
        obtain ⟨p, d, hp, hd, -, -⟩ := h.inv.waiter (i := j) (by rw [hq]; simp)
        have hslot : d.slot = j := by rcases hd with rfl | rfl <;> rfl
        have hstart := h.idestart (u := { s with
          toBufs := s.toBufs.settle i err inp
          idequeue := j :: q
          ctl := .idle
          drv := wakeup s.drv i }) hn hp (Bufs.settle_buf_of_ne (hslot ▸ hji)) rfl
        rwa [hslot] at hstart
  obtain ⟨t, ht⟩ := hintr
  refine ⟨t, Effect.toOption_eq_some.mpr ?_⟩
  simpa only [exec, hc] using ht

omit [DecidableEq Pid] in
/-- The buffers of a process that is not in the driver are what they are in memory. -/
theorem Fit.buf_of_returned (hp : s.drv p = none)
    (hl : (s.buf i).lock = some p) : s.buf i = (s.mem n).buf i := by
  change s.buf i = (settled s.toBufs s.ctl s.idequeue).buf i
  rcases h.inv.done_cases with hc | ⟨j, q, err, inp, hc, hq⟩
  · rw [settled_of_not_done hc]
  · rw [hc, hq]
    obtain ⟨r, d, hr, -, hlr, -⟩ := h.inv.waiter (i := j) (by rw [hq]; exact mem_cons_self)
    have hij : i ≠ j := fun hij => by
      rw [hij, hlr] at hl
      rw [Option.some.inj hl, hp] at hr
      cases hr
    exact (Bufs.settle_buf_of_ne hij).symm

end Fit

end St

/-- **The driver with interrupts refines the disk in memory.** In every run in which the
requests are for blocks of disk 1 below the size of the disk and the disk reports no errors:

* the controller has the command for the first buffer in the queue, or none if the queue is
  empty, and whoever has to start a command finds the disk ready;
* no buffer is in the queue twice;
* the requests are served in the order in which they have entered the queue;
* what a process has called `iderw` for has been served, in order, but for the last call if the
  process is still in it;
* the run with its requests where they are served is one of `memide.c`, and it leads to the same
  disk and, for a process that is not in `iderw`, to the same buffers. -/
theorem ide_refines_memide (n : ℕ) (hn : n ≤ FSSIZE) (disk : Key → Block) (havedisk1 : Bool)
    [DecidableEq Pid] {as : List (Act Pid)} {t : St Pid}
    (hrun : run St.step (St.init disk havedisk1) as = some t)
    (has : Meets St.step (St.OnDisk1 n) (St.init disk havedisk1) as) :
    (Serves t.buf t.disk t.idequeue t.ctl ∧
      (∀ p i, t.drv p = some (.entering i) → ∃ u, t.step (.enter p) = some u) ∧
      ∀ err inp, t.ctl = .done err inp → ∃ u, t.step .intr = some u) ∧
    t.idequeue.Nodup ∧
    labels St.step St.entered (St.init disk havedisk1) as =
      ((St.init disk havedisk1).trace as).filterMap MemAct.request ++ t.requests ∧
    (∀ p, as.filterMap (Act.called p) =
      ((St.init disk havedisk1).trace as).filterMap (MemAct.served p) ++ t.owed p) ∧
    run Mem.step (Mem.init n fun b => disk (1, b)) ((St.init disk havedisk1).trace as) =
      some (t.mem n) ∧
    (∀ b, (t.mem n).memdisk b = t.disk (1, b)) ∧
    ∀ p, t.drv p = none → t.owed p = [] ∧
      ∀ i, (t.buf i).lock = some p → t.buf i = (t.mem n).buf i := by
  have hinit : (St.init disk havedisk1 : St Pid).Fit n := St.fit_init n disk havedisk1
  have hfit : t.Fit n := run_invariant_of_meets (fun h ha hs => h.step ha hs) hinit has hrun
  refine ⟨⟨hfit.inv.serves, fun p i hd => hfit.enter hn hd, fun err inp hc => hfit.ideintr hn hc⟩,
    hfit.inv.nodup, ?_, fun p => ?_, ?_, fun b => rfl,
    fun p hp => ⟨by rw [St.owed, hp]; rfl, fun i hl => hfit.buf_of_returned hp hl⟩⟩
  · have hbalance := labels_balance St.entered (fun s a => (St.label s a).bind MemAct.request)
      St.requests (P := St.Fit n) (fun h ha hs => h.step ha hs) (fun h _ hs => h.requests_step hs)
      hinit has hrun
    rwa [← labels_filterMap] at hbalance
  · have hbalance := labels_balance (fun _ => Act.called p)
      (fun s a => (St.label s a).bind (MemAct.served p)) (St.owed p) (P := St.Fit n)
      (fun h ha hs => h.step ha hs) (fun h _ hs => h.owed_step p hs) hinit has hrun
    rwa [← labels_filterMap, labels_of_run (Act.called p) hrun] at hbalance
  · exact run_refines (fun h ha hs => h.step ha hs) (fun h ha hs => h.mem_step ha hs)
      hinit has hrun

/-- The requests of two processes are in the queue, a read and a write. Both have been served by the
disk in memory in the end, and it has got the bytes. -/
theorem ide_refines_memide_read :
    let s : St ℕ := St.init numbered true
    let as := twoRequests false
    ∃ t, run St.step s as = some t ∧ Meets St.step (St.OnDisk1 FSSIZE) s as ∧
      run Mem.step (Mem.init FSSIZE fun b => numbered (1, b)) (s.trace as) =
        some (t.mem FSSIZE) ∧
      (∀ p < 2, t.drv p = none) ∧ (s.trace as).filterMap (MemAct.served 0) = [0] ∧
      (s.trace as).filterMap (MemAct.served 1) = [1] ∧ ∀ j, (t.mem FSSIZE).memdisk 6 j = 7 := by
  intro s as
  obtain ⟨t, ht, hdrv, hdisk⟩ : ∃ t ∈ run St.step s as, (∀ p < 2, t.drv p = none) ∧
      ∀ j, t.disk (1, 6) j = 7 := by decide +kernel
  have hmeets : Meets St.step (St.OnDisk1 FSSIZE) s as := by decide +kernel
  obtain ⟨-, -, -, hserved, hrun, hmem, howed⟩ :=
    ide_refines_memide FSSIZE le_rfl numbered true ht hmeets
  have hserved : ∀ p < 2, (s.trace as).filterMap (MemAct.served p) = as.filterMap (Act.called p) := by
    intro p hp
    rw [hserved p, (howed p (hdrv p hp)).1, List.append_nil]
  refine ⟨t, ht, hmeets, hrun, hdrv, hserved 0 (by decide), hserved 1 (by decide), fun j => ?_⟩
  rw [hmem]
  exact hdisk j

end Xv6.Ide
