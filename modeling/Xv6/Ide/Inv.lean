import Xv6.Ide.Driver
import Xv6.Lib.Count

/-!
# What the disk driver keeps

The invariant of the buffers (`Xv6.Ide.Bufs.Inv`): `refcnt` counts the processes that refer to
a buffer, so a buffer that somebody has locked is not taken away, and at most one buffer that
is in use or has been read is for a block. And that of the driver (`Xv6.Ide.St.Inv`): a process
that is in `iderw` has its buffer locked, the buffers in the queue are those that processes
wait for in `iderw`, and the command that the controller has is the one for the first buffer in
the queue (`Xv6.Ide.Serves`). Both hold whatever the disk answers.

`Xv6.Ide.Bufs.Step` and `Xv6.Ide.St.Step` say what a step can do, and everything else about the
driver is proved from them.
-/

namespace Xv6.Ide

open Lib Function Bio List

variable {Pid : Type}

/-- The process has a reference to the buffer but not its sleep-lock. -/
def Pos.Waits (i : Slot) (x : Pos) : Prop := x = .getting i ∨ x = .releasing i

theorem Pos.not_waits_idle (i : Slot) : ¬Pos.idle.Waits i := fun h => by
  rcases h with h | h <;> cases h

theorem Pos.getting_waits {i j : Slot} : (Pos.getting i).Waits j ↔ i = j := by
  simp [Pos.Waits]

theorem Pos.releasing_waits {i j : Slot} : (Pos.releasing i).Waits j ↔ i = j := by
  simp [Pos.Waits]

namespace Bufs

/-- **The invariant of the buffers.** -/
structure Inv (c : Bufs Pid) : Prop extends c.toPool.Ok where
  /-- `refcnt` counts the process that has the buffer locked and those that wait for it or have
  just given it back. -/
  count : ∀ i, Counts (fun p => (c.pos p).Waits i)
    (((c.buf i).refcnt : ℤ) - if (c.buf i).lock = none then 0 else 1)
  /-- There are two disks. -/
  dev : ∀ i, (c.buf i).key.1 < 2

namespace Inv

variable {c : Bufs Pid} {i j : Slot} {p : Pid}

theorem refcnt_pos_of_waits (h : c.Inv) (hp : (c.pos p).Waits i) : 0 < (c.buf i).refcnt := by
  have := (h.count i).pos hp
  split at this <;> omega

theorem refcnt_pos_of_lock (h : c.Inv) (hl : (c.buf i).lock = some p) : 0 < (c.buf i).refcnt := by
  have := (h.count i).nonneg
  rw [if_neg (by simp [hl])] at this
  omega

end Inv

theorem inv_init : (init : Bufs Pid).Inv where
  toOk := Pool.ok_init
  count := fun i => counts_zero fun _ hp => Pos.not_waits_idle i hp
  dev := fun _ => Nat.zero_lt_two

variable [DecidableEq Pid]

/-- **What a process can do with the buffers.** -/
inductive Step (c : Bufs Pid) : User Pid → Bufs Pid → Prop where
  | hit {p : Pid} {k : Key} {i : Slot} (hp : c.pos p = .idle) (hk : k.1 < 2)
      (hi : c.cached k = some i) : Step c (.bget p k)
        ((c.set i { c.buf i with refcnt := (c.buf i).refcnt + 1 }).goto p (.getting i))
  | recycle {p : Pid} {k : Key} {i : Slot} (hp : c.pos p = .idle) (hk : k.1 < 2)
      (hno : c.cached k = none) (hi : c.unused = some i) : Step c (.bget p k)
        ((c.set i { c.buf i with key := k, valid := false, dirty := false, refcnt := 1 }).goto p
          (.getting i))
  | acquire {p : Pid} {i : Slot} (hp : c.pos p = .getting i) (hl : (c.buf i).lock = none) :
      Step c (.acquire p) ((c.set i { c.buf i with lock := some p }).goto p .idle)
  | modify {p : Pid} {i : Slot} {f : Block → Block} (hp : c.pos p = .idle)
      (hl : (c.buf i).lock = some p) :
      Step c (.modify p i f) (c.set i { c.buf i with data := f (c.buf i).data })
  | dirty {p : Pid} {i : Slot} (hp : c.pos p = .idle) (hl : (c.buf i).lock = some p) :
      Step c (.dirty p i) (c.set i { c.buf i with dirty := true })
  | brelse {p : Pid} {i : Slot} (hp : c.pos p = .idle) (hl : (c.buf i).lock = some p) :
      Step c (.brelse p i) ((c.set i { c.buf i with lock := none }).goto p (.releasing i))
  | release {p : Pid} {i : Slot} (hp : c.pos p = .releasing i) :
      Step c (.release p) (c.release p i)

theorem exec_eq_ok {c c' : Bufs Pid} {u : User Pid} : c.exec u = .ok c' ↔ c.Step u c' := by
  constructor
  · intro h
    cases u with
    | bget p k =>
      obtain ⟨hp, h⟩ := Effect.ite_disabled_eq_ok.mp h
      obtain ⟨⟨i, x⟩, hx, rfl⟩ := Effect.map_eq_ok.mp h
      rcases Pool.bget_ok.mp hx with ⟨hi, rfl⟩ | ⟨hno, hi, rfl⟩
      · exact .hit hp.1 hp.2 hi
      · exact .recycle hp.1 hp.2 hno hi
    | acquire p =>
      simp only [exec] at h
      split at h
      · rename_i i hi
        obtain ⟨hl, ⟨⟩⟩ := Effect.ite_disabled_eq_ok.mp h
        exact .acquire hi hl
      · cases h
    | modify p i f =>
      obtain ⟨hp, ⟨⟩⟩ := Effect.ite_disabled_eq_ok.mp h
      exact .modify hp.1 hp.2
    | dirty p i =>
      obtain ⟨hp, ⟨⟩⟩ := Effect.ite_disabled_eq_ok.mp h
      exact .dirty hp.1 hp.2
    | brelse p i =>
      obtain ⟨hp, h⟩ := Effect.ite_disabled_eq_ok.mp h
      split at h
      · obtain rfl := Effect.ok.inj h
        exact .brelse hp ‹_›
      · cases h
    | release p =>
      simp only [exec] at h
      split at h
      · rename_i i hi
        obtain rfl := Effect.ok.inj h
        exact .release hi
      · cases h
  · intro h
    cases h with
    | hit hp hk hi => simp only [exec, bget, Pool.bget, hi]; exact if_pos ⟨hp, hk⟩
    | recycle hp hk hno hi => simp only [exec, bget, Pool.bget, hno, hi]; exact if_pos ⟨hp, hk⟩
    | acquire hp hl => simp only [exec, hp]; exact if_pos hl
    | modify hp hl => simp only [exec]; exact if_pos ⟨hp, hl⟩
    | dirty hp hl => simp only [exec]; exact if_pos ⟨hp, hl⟩
    | brelse hp hl => simp only [exec]; rw [if_pos hp, if_pos hl]
    | release hp => simp only [exec, hp]

/-! ### The buffers stay well formed -/

section Preserve

variable {c c' : Bufs Pid} {i : Slot} {p : Pid} {x : Pos} {b : Buf Pid} {u : User Pid}

/-- The counts after one process has moved and one buffer has changed. -/
theorem Inv.count_update (h : c.Inv)
    (hi : Counts (fun q => (update c.pos p x q).Waits i)
      ((b.refcnt : ℤ) - if b.lock = none then 0 else 1))
    (habout : ∀ j, j ≠ i → ¬(c.pos p).Waits j ∧ ¬x.Waits j) (j : Slot) :
    Counts (fun q => (update c.pos p x q).Waits j)
      (((update c.buf i b j).refcnt : ℤ) -
        if (update c.buf i b j).lock = none then 0 else 1) := by
  rcases eq_or_ne j i with rfl | hj
  · rwa [update_self]
  · rw [update_of_ne hj]
    exact counts_keep (h.count j) (iff_of_false (habout j hj).2 (habout j hj).1)

/-- A step that leaves the list and the blocks of the buffers as they are. -/
theorem Inv.edit (h : c.Inv)
    (hi : Counts (fun q => (update c.pos p x q).Waits i)
      ((b.refcnt : ℤ) - if b.lock = none then 0 else 1))
    (habout : ∀ j, j ≠ i → ¬(c.pos p).Waits j ∧ ¬x.Waits j) (hkey : b.key = (c.buf i).key)
    (hlive : b.Live → c.cached (c.buf i).key = some i) : ((c.set i b).goto p x).Inv := by
  refine ⟨h.toOk.set hkey hlive, h.count_update hi habout, fun j => ?_⟩
  change (update c.buf i b j).key.1 < 2
  rcases eq_or_ne j i with rfl | hj
  · rw [update_self, hkey]
    exact h.dev j
  · rw [update_of_ne hj]
    exact h.dev j

theorem goto_of_pos (hp : c.pos p = x) : c.goto p x = c := by
  rw [goto, ← hp, update_eq_self]

/-- A buffer that is locked gets other contents or flags. -/
theorem Inv.set (h : c.Inv) (hp : c.pos p = .idle) (hl : (c.buf i).lock = some p)
    (hkey : b.key = (c.buf i).key) (hlock : b.lock = (c.buf i).lock)
    (href : b.refcnt = (c.buf i).refcnt) : (c.set i b).Inv := by
  have hidle : ∀ j, ¬(c.pos p).Waits j := fun j => hp ▸ Pos.not_waits_idle j
  rw [← goto_of_pos (c := c.set i b) (show (c.set i b).pos p = .idle from hp)]
  refine h.edit ?_ (fun j _ => ⟨hidle j, Pos.not_waits_idle j⟩) hkey
    fun _ => h.first i (.inl (h.refcnt_pos_of_lock hl))
  rw [hlock, href]
  exact counts_keep (h.count i) (iff_of_false (Pos.not_waits_idle i) (hidle i))

/-- `bget` takes over a buffer that nobody refers to. -/
theorem Inv.recycle (h : c.Inv) {k : Key} (hp : c.pos p = .idle) (hk : k.1 < 2)
    (hno : c.cached k = none) (hi : c.unused = some i) :
    ((c.set i { c.buf i with key := k, valid := false, dirty := false, refcnt := 1 }).goto p
      (.getting i)).Inv := by
  have href := (Pool.refcnt_of_unused hi).1
  have hlock : (c.buf i).lock = none := by
    by_contra hl
    obtain ⟨q, hq⟩ := Option.ne_none_iff_exists'.mp hl
    have := h.refcnt_pos_of_lock hq
    omega
  set b : Buf Pid := { c.buf i with key := k, valid := false, dirty := false, refcnt := 1 }
    with hb
  refine ⟨h.toOk.recycle hno, h.count_update ?_ fun j hj => ⟨hp ▸ Pos.not_waits_idle j, ?_⟩,
    fun j => ?_⟩
  · have hc := counts_enter (p := p) (x := .getting i) (h.count i)
      (hp ▸ Pos.not_waits_idle i) (.inl rfl)
    simpa [hlock, href, hb] using hc
  · rw [Pos.getting_waits]
    exact hj.symm
  · change (update c.buf i b j).key.1 < 2
    rcases eq_or_ne j i with rfl | hji
    · rwa [update_self]
    · rw [update_of_ne hji]
      exact h.dev j

/-- The end of `brelse`. -/
theorem Inv.release (h : c.Inv) (hp : c.pos p = .releasing i) : (c.release p i).Inv := by
  have hw : (c.pos p).Waits i := .inr hp
  have hpos := h.refcnt_pos_of_waits hw
  set b : Buf Pid := { c.buf i with refcnt := (c.buf i).refcnt - 1 } with hb
  have hset : ((c.set i b).goto p .idle).Inv := by
    refine h.edit ?_ (fun j hj => ⟨?_, Pos.not_waits_idle j⟩) rfl
      fun _ => h.first i (.inl hpos)
    · have hc := counts_leave (x := .idle) (h.count i) hw (Pos.not_waits_idle i)
      rw [hb, Nat.cast_sub (by omega)]
      push_cast
      rwa [sub_right_comm]
    · rw [hp, Pos.releasing_waits]
      exact hj.symm
  exact ⟨h.toOk.release hpos, hset.count, hset.dev⟩

/-- **What a process does keeps the buffers well formed.** -/
theorem Inv.step (h : c.Inv) (hs : c.Step u c') : c'.Inv := by
  cases hs with
  | @hit p k i hp hk hi =>
    have hkey : (c.buf i).key = k := Pool.key_of_cached hi
    refine h.edit ?_ (fun j hj => ⟨hp ▸ Pos.not_waits_idle j, ?_⟩) rfl fun _ => hkey ▸ hi
    · have hc := counts_enter (p := p) (x := .getting i) (h.count i)
        (hp ▸ Pos.not_waits_idle i) (.inl rfl)
      push_cast
      rwa [add_sub_right_comm]
    · rw [Pos.getting_waits]
      exact hj.symm
  | recycle hp hk hno hi => exact h.recycle hp hk hno hi
  | @acquire p i hp hl =>
    have hw : (c.pos p).Waits i := .inl hp
    refine h.edit ?_ (fun j hj => ⟨?_, Pos.not_waits_idle j⟩) rfl
      fun _ => h.first i (.inl (h.refcnt_pos_of_waits hw))
    · have hc := counts_leave (x := .idle) (h.count i) hw (Pos.not_waits_idle i)
      simpa [hl] using hc
    · rw [hp, Pos.getting_waits]
      exact hj.symm
  | modify hp hl => exact h.set hp hl rfl rfl rfl
  | dirty hp hl => exact h.set hp hl rfl rfl rfl
  | @brelse p i hp hl =>
    refine h.edit ?_ (fun j hj => ⟨hp ▸ Pos.not_waits_idle j, ?_⟩) rfl
      fun _ => h.first i (.inl (h.refcnt_pos_of_lock hl))
    · have hc := counts_enter (p := p) (x := .releasing i) (h.count i)
        (hp ▸ Pos.not_waits_idle i) (.inr rfl)
      simpa [hl] using hc
    · rw [Pos.releasing_waits]
      exact hj.symm
  | release hp => exact h.release hp

/-! ### What a process leaves alone -/

/-- Where another process stands does not change. -/
theorem Step.pos_of_ne {q : Pid} (hs : c.Step u c') (hq : q ≠ u.pid) :
    c'.pos q = c.pos q := by
  cases hs with
  | hit | recycle | acquire | brelse | release => exact update_of_ne hq _ _
  | modify | dirty => rfl

/-- **A buffer that another process has locked is not changed**, but for the number of those
that refer to it. -/
theorem Step.buf_of_lock {q : Pid} {j : Slot} (hs : c.Step u c') (h : c.Inv)
    (hl : (c.buf j).lock = some q) (hq : q ≠ u.pid) :
    ∃ n, c'.buf j = { c.buf j with refcnt := n } := by
  have hne : ∀ {i}, (c.buf i).lock = some u.pid → j ≠ i := fun {i} hi hji => by
    rw [hji, hi] at hl
    exact hq (Option.some.inj hl).symm
  cases hs with
  | @hit p k i hp hk hi =>
    rcases eq_or_ne j i with rfl | hji
    · exact ⟨_, update_self ..⟩
    · exact ⟨_, update_of_ne hji ..⟩
  | @recycle p k i hp hk hno hi =>
    have hji : j ≠ i := fun hji => by
      have := h.refcnt_pos_of_lock hl
      rw [hji, (Pool.refcnt_of_unused hi).1] at this
      omega
    exact ⟨_, update_of_ne hji ..⟩
  | @acquire p i hp hfree =>
    have hji : j ≠ i := fun hji => by
      rw [hji, hfree] at hl
      cases hl
    exact ⟨_, update_of_ne hji ..⟩
  | modify hp hi => exact ⟨_, update_of_ne (hne hi) ..⟩
  | dirty hp hi => exact ⟨_, update_of_ne (hne hi) ..⟩
  | brelse hp hi => exact ⟨_, update_of_ne (hne hi) ..⟩
  | @release p i hp =>
    rcases eq_or_ne j i with rfl | hji
    · exact ⟨_, update_self ..⟩
    · exact ⟨_, update_of_ne hji ..⟩

end Preserve

end Bufs

/-! ### The driver -/

/-- **The controller has the command for the first buffer in the queue**, and when it is done
it has done that command. -/
inductive Serves (buf : Slot → Buf Pid) (disk : Key → Block) : List Slot → Ctl → Prop where
  | idle : Serves buf disk [] .idle
  | busy (i : Slot) (q : List Slot) : Serves buf disk (i :: q) (St.command (buf i))
  | done {i : Slot} (q : List Slot) (err : Bool) {inp : Block}
      (hread : (buf i).dirty = false → inp = disk (St.sector (buf i).key))
      (hwrite : (buf i).dirty = true → disk (St.sector (buf i).key) = (buf i).data) :
      Serves buf disk (i :: q) (.done err inp)

namespace St

/-- What holds of the buffer that `iderw` has been called for. -/
def Place (queue : List Slot) (buf : Slot → Buf Pid) : Drv → Prop
  | .entering i => i ∉ queue ∧ ¬Done (buf i)
  | .asleep i => i ∈ queue
  | .awake i => i ∈ queue ∨ Done (buf i)

/-- A process is in `iderw`, and has the buffer locked. -/
def Calls (s : St Pid) (p : Pid) (d : Drv) : Prop :=
  (s.buf d.slot).lock = some p ∧ s.pos p = .idle ∧ Place s.idequeue s.buf d

/-- **The invariant of the driver.** -/
structure Inv (s : St Pid) : Prop where
  bufs : s.toBufs.Inv
  nodup : s.idequeue.Nodup
  calls : ∀ p d, s.drv p = some d → s.Calls p d
  /-- Somebody waits for each buffer in the queue, and it has something to wait for. -/
  queued : ∀ i ∈ s.idequeue, ¬Done (s.buf i) ∧
    ∃ p, s.drv p = some (.asleep i) ∨ s.drv p = some (.awake i)
  serves : Serves s.buf s.disk s.idequeue s.ctl

/-- The command that `ideintr` starts next. -/
def next (buf : Slot → Buf Pid) : List Slot → Ctl
  | [] => .idle
  | i :: _ => command (buf i)

theorem command_ne_done (b : Buf Pid) (err : Bool) (inp : Block) : command b ≠ .done err inp := by
  intro h
  cases h

theorem next_ne_done (buf : Slot → Buf Pid) (q : List Slot) (err : Bool) (inp : Block) :
    next buf q ≠ .done err inp := by
  intro h
  cases q <;> cases h

variable [DecidableEq Pid]

/-- **What can happen.** -/
inductive Step (s : St Pid) : Act Pid → St Pid → Prop where
  | user {u : User Pid} {c : Bufs Pid} (hd : s.drv u.pid = none) (hu : s.toBufs.Step u c) :
      Step s (.user u) { s with toBufs := c }
  | iderw {p : Pid} {i : Slot} (hd : s.drv p = none) (hp : s.pos p = .idle)
      (hl : (s.buf i).lock = some p) (hf : ¬Done (s.buf i)) :
      Step s (.iderw p i) { s with drv := update s.drv p (some (.entering i)) }
  | first {p : Pid} {i : Slot} (hd : s.drv p = some (.entering i)) (hq : s.idequeue = [])
      (hc : s.ctl = .idle) :
      Step s (.enter p) { s with
        idequeue := [i]
        ctl := command (s.buf i)
        drv := update s.drv p (some (.asleep i)) }
  | append {p : Pid} {i : Slot} (hd : s.drv p = some (.entering i)) (hq : s.idequeue ≠ []) :
      Step s (.enter p) { s with
        idequeue := s.idequeue ++ [i]
        drv := update s.drv p (some (.asleep i)) }
  | rouse {p : Pid} {i : Slot} (hd : s.drv p = some (.asleep i)) :
      Step s (.rouse p) { s with drv := update s.drv p (some (.awake i)) }
  | again {p : Pid} {i : Slot} (hd : s.drv p = some (.awake i)) (hf : ¬Done (s.buf i)) :
      Step s (.loop p) { s with drv := update s.drv p (some (.asleep i)) }
  | leave {p : Pid} {i : Slot} (hd : s.drv p = some (.awake i)) (hf : Done (s.buf i)) :
      Step s (.loop p) { s with drv := update s.drv p none }
  | write {i : Slot} {q : List Slot} (err : Bool) (hq : s.idequeue = i :: q)
      (hc : s.ctl = command (s.buf i)) (hf : (s.buf i).dirty = true) :
      Step s (.complete err) { s with
        disk := update s.disk (sector (s.buf i).key) (s.buf i).data
        ctl := .done err (s.disk (sector (s.buf i).key)) }
  | read {i : Slot} {q : List Slot} (err : Bool) (hq : s.idequeue = i :: q)
      (hc : s.ctl = command (s.buf i)) (hf : (s.buf i).dirty = false) :
      Step s (.complete err) { s with ctl := .done err (s.disk (sector (s.buf i).key)) }
  | intr {i : Slot} {q : List Slot} {err : Bool} {inp : Block} (hq : s.idequeue = i :: q)
      (hc : s.ctl = .done err inp) :
      Step s .intr { s with
        toBufs := s.toBufs.set i (finish (s.buf i) err inp)
        idequeue := q
        ctl := next s.buf q
        drv := wakeup s.drv i }

omit [DecidableEq Pid] in
theorem idestart_eq_ok {s t : St Pid} {i : Slot} (h : s.idestart i = .ok t) :
    t = { s with ctl := command (s.buf i) } := by
  unfold idestart at h
  split at h
  · cases h
  · split at h
    · cases h
    · exact (Effect.ok.inj h).symm

section Steps

variable {s t : St Pid} {a : Act Pid}

omit [DecidableEq Pid] in
theorem Inv.idle_of_nil (h : s.Inv) (hq : s.idequeue = []) : s.ctl = .idle := by
  have hserves := h.serves
  rw [hq] at hserves
  generalize s.ctl = ctl at hserves
  cases hserves
  rfl

theorem Inv.step_enter (h : s.Inv) {p : Pid} (hs : s.exec (.enter p) = .ok t) :
    Step s (.enter p) t := by
  simp only [exec] at hs
  split at hs
  · rename_i i hd
    obtain ⟨-, -, hi, hf⟩ := h.calls p _ hd
    obtain ⟨u, hu, rfl⟩ := Effect.map_eq_ok.mp hs
    have hround : ∀ v : St Pid, v.buf = s.buf → v.round p i =
        { v with drv := update v.drv p (some (.asleep i)) } := fun v hv => by
      rw [round, hv, if_neg hf]
    cases hq : s.idequeue with
    | nil =>
      rw [hq, nil_append, startFirst, if_pos (by simp)] at hu
      have hu := idestart_eq_ok hu
      rw [hround u (by rw [hu]), hu]
      exact .first hd hq (h.idle_of_nil hq)
    | cons j q =>
      have hij : j ≠ i := fun hij => hi (by rw [hq, hij]; exact mem_cons_self)
      rw [hq, startFirst, if_neg (by simpa using hij)] at hu
      have hu := (Effect.ok.inj hu).symm
      rw [hround u (by rw [hu]), hu, ← hq]
      exact .append hd (by rw [hq]; exact cons_ne_nil _ _)
  · cases hs

theorem Inv.step_complete (h : s.Inv) {err : Bool} (hs : s.exec (.complete err) = .ok t) :
    Step s (.complete err) t := by
  simp only [exec] at hs
  split at hs
  · rename_i k out hc
    obtain rfl := Effect.ok.inj hs
    have hserves := h.serves
    rw [hc] at hserves
    generalize hq : s.idequeue = queue at hserves
    cases hserves with
    | busy i q =>
      cases hf : (s.buf i).dirty with
      | true =>
        have := Step.write (s := s) err hq (by rw [hc]; rfl) hf
        simpa only [serve, hf, if_true] using this
      | false =>
        have := Step.read (s := s) err hq (by rw [hc]; rfl) hf
        simpa only [serve, hf, Bool.false_eq_true, if_false] using this
  · cases hs

theorem Inv.step_intr (h : s.Inv) (hs : s.exec .intr = .ok t) : Step s .intr t := by
  simp only [exec] at hs
  split at hs
  · rename_i err inp hc
    have hserves := h.serves
    rw [hc] at hserves
    generalize hq : s.idequeue = queue at hserves
    cases hserves with
    | @done i q _ _ hread hwrite =>
      have hstep := Step.intr (s := s) hq hc
      rw [ideintr, hq] at hs
      cases q with
      | nil =>
        obtain rfl := Effect.ok.inj hs
        exact hstep
      | cons j q =>
        have hnodup := h.nodup
        rw [hq] at hnodup
        have hji : j ≠ i := fun hji => (nodup_cons.mp hnodup).1 (by simp [hji])
        have ht := idestart_eq_ok hs
        simp only [Bufs.set, update_of_ne hji] at ht
        rwa [ht]
  · cases hs

/-- **What can happen**, when the invariant holds. -/
theorem Inv.step_cases (h : s.Inv) (hs : s.step a = some t) : Step s a t := by
  have hs := Effect.toOption_eq_some.mp hs
  cases a with
  | user u =>
    obtain ⟨hd, hs⟩ := Effect.ite_disabled_eq_ok.mp hs
    obtain ⟨c, hc, rfl⟩ := Effect.map_eq_ok.mp hs
    exact .user hd (Bufs.exec_eq_ok.mp hc)
  | iderw p i =>
    obtain ⟨hp, hs⟩ := Effect.ite_disabled_eq_ok.mp hs
    obtain ⟨hl, hs⟩ := Effect.ite_panic_eq_ok.mp hs
    obtain ⟨hf, hs⟩ := Effect.ite_panic_eq_ok.mp hs
    obtain ⟨-, ⟨⟩⟩ := Effect.ite_panic_eq_ok.mp hs
    exact .iderw hp.1 hp.2 (not_not.mp hl) hf
  | enter p => exact h.step_enter hs
  | rouse p =>
    simp only [exec] at hs
    split at hs
    · rename_i i hd
      obtain rfl := Effect.ok.inj hs
      exact .rouse hd
    · cases hs
  | loop p =>
    simp only [exec] at hs
    split at hs
    · rename_i i hd
      obtain rfl := Effect.ok.inj hs
      unfold round
      split
      · rename_i hf
        exact .leave hd hf
      · rename_i hf
        exact .again hd hf
    · cases hs
  | complete err => exact h.step_complete hs
  | intr => exact h.step_intr hs

end Steps

/-! ### The invariant is kept -/

omit [DecidableEq Pid] in
theorem inv_init (disk : Key → Block) (havedisk1 : Bool) : (init disk havedisk1 : St Pid).Inv where
  bufs := Bufs.inv_init
  nodup := nodup_nil
  calls := fun p d hd => absurd hd (by simp [init])
  queued := fun i hi => absurd hi not_mem_nil
  serves := .idle

section Preserve

variable {s t : St Pid} {p q : Pid} {i j : Slot} {a : Act Pid} {drv : Pid → Option Drv} {d : Drv}
  {ctl : Ctl}

section

omit [DecidableEq Pid]

/-- Two processes in `iderw` are there for different buffers. -/
theorem Inv.eq_of_slot (h : s.Inv) {e : Drv} (hp : s.drv p = some d) (hq : s.drv q = some e)
    (hde : d.slot = e.slot) : p = q := by
  have h1 := (h.calls p d hp).1
  rw [hde, (h.calls q e hq).1] at h1
  exact (Option.some.inj h1).symm

/-- The process that waits for a buffer in the queue. -/
theorem Inv.waiter (h : s.Inv) (hi : i ∈ s.idequeue) :
    ∃ p d, s.drv p = some d ∧ (d = .asleep i ∨ d = .awake i) ∧ (s.buf i).lock = some p ∧
      s.pos p = .idle := by
  obtain ⟨-, p, hp | hp⟩ := h.queued i hi
  · exact ⟨p, _, hp, .inl rfl, (h.calls p _ hp).1, (h.calls p _ hp).2.1⟩
  · exact ⟨p, _, hp, .inr rfl, (h.calls p _ hp).1, (h.calls p _ hp).2.1⟩

/-- The number of references to the first buffer does not matter. -/
theorem serves_congr {buf buf' : Slot → Buf Pid} {disk : Key → Block} {q : List Slot}
    (h : Serves buf disk q ctl) (hbuf : ∀ i ∈ q, ∃ n, buf' i = { buf i with refcnt := n }) :
    Serves buf' disk q ctl := by
  cases h with
  | idle => exact .idle
  | busy i q =>
    obtain ⟨n, hn⟩ := hbuf i mem_cons_self
    have : command (buf' i) = command (buf i) := by rw [hn]; rfl
    exact this ▸ .busy i q
  | @done i q err inp hread hwrite =>
    obtain ⟨n, hn⟩ := hbuf i mem_cons_self
    exact .done q err (by rw [hn]; exact hread) (by rw [hn]; exact hwrite)

end

/-- A process uses the buffers. -/
theorem Inv.user (h : s.Inv) {u : User Pid} {c : Bufs Pid} (hd : s.drv u.pid = none)
    (hu : s.toBufs.Step u c) : { s with toBufs := c }.Inv := by
  have hne : ∀ {p d}, s.drv p = some d → p ≠ u.pid := fun {p d} hp hpu => by
    rw [hpu, hd] at hp
    cases hp
  have hbuf : ∀ {p d}, s.drv p = some d → ∃ n, c.buf d.slot = { s.buf d.slot with refcnt := n } :=
    fun hp => hu.buf_of_lock h.bufs (h.calls _ _ hp).1 (hne hp)
  have hqueue : ∀ i ∈ s.idequeue, ∃ n, c.buf i = { s.buf i with refcnt := n } := fun i hi => by
    obtain ⟨p, d, hp, rfl | rfl, -⟩ := h.waiter hi <;> exact hbuf hp
  refine ⟨h.bufs.step hu, h.nodup, fun p d hp => ?_, fun i hi => ⟨?_, (h.queued i hi).2⟩,
    serves_congr h.serves hqueue⟩
  · obtain ⟨hl, hpos, hplace⟩ := h.calls p d hp
    obtain ⟨n, hn⟩ := hbuf hp
    have hdone : Done (c.buf d.slot) ↔ Done (s.buf d.slot) := by
      rw [hn]
      exact Iff.rfl
    refine ⟨by rw [hn]; exact hl, (hu.pos_of_ne (hne hp)).trans hpos, ?_⟩
    cases d with
    | entering i => exact ⟨hplace.1, mt hdone.mp hplace.2⟩
    | asleep i => exact hplace
    | awake i => exact hplace.imp_right hdone.mpr
  · obtain ⟨n, hn⟩ := hqueue i hi
    rw [hn]
    exact (h.queued i hi).1

/-- A process moves in `iderw`, or calls it, or returns. -/
theorem Inv.move (h : s.Inv) {x : Option Drv}
    (hx : ∀ d, x = some d → s.Calls p d)
    (hqueued : ∀ i ∈ s.idequeue, s.drv p = some (.asleep i) ∨ s.drv p = some (.awake i) →
      x = some (.asleep i) ∨ x = some (.awake i)) :
    { s with drv := update s.drv p x }.Inv := by
  refine ⟨h.bufs, h.nodup, fun q d hq => ?_, fun i hi => ⟨(h.queued i hi).1, ?_⟩, h.serves⟩
  · rcases eq_or_ne q p with rfl | hqp
    · exact hx d (by simpa using hq)
    · exact h.calls q d (by simpa [hqp] using hq)
  · obtain ⟨-, q, hq⟩ := h.queued i hi
    refine ⟨q, ?_⟩
    rcases eq_or_ne q p with rfl | hqp
    · simpa using hqueued i hi hq
    · simpa [hqp] using hq

/-- A process enters its buffer into the queue. -/
theorem Inv.enqueue (h : s.Inv) (hd : s.drv p = some (.entering i))
    (hserves : Serves s.buf s.disk (s.idequeue ++ [i]) ctl) :
    { s with
      idequeue := s.idequeue ++ [i]
      ctl := ctl
      drv := update s.drv p (some (.asleep i)) }.Inv := by
  obtain ⟨hl, hpos, hi, hf⟩ := h.calls p _ hd
  refine ⟨h.bufs, List.Nodup.append h.nodup (nodup_singleton i) (by simpa using hi),
    fun q d hq => ?_, fun j hj => ?_, hserves⟩
  · rcases eq_or_ne q p with rfl | hqp
    · obtain rfl : Drv.asleep i = d := by simpa using hq
      exact ⟨hl, hpos, mem_append_right _ mem_cons_self⟩
    · have hq : s.drv q = some d := by simpa [hqp] using hq
      obtain ⟨hlq, hposq, hplace⟩ := h.calls q d hq
      refine ⟨hlq, hposq, ?_⟩
      cases d with
      | entering j =>
        refine ⟨fun hj => ?_, hplace.2⟩
        rcases mem_append.mp hj with hj | hj
        · exact hplace.1 hj
        · exact hqp (h.eq_of_slot hq hd (mem_singleton.mp hj))
      | asleep j => exact mem_append_left _ hplace
      | awake j => exact hplace.imp_left (mem_append_left _)
  · rcases mem_append.mp hj with hj | hj
    · obtain ⟨hfj, q, hq⟩ := h.queued j hj
      have hqp : q ≠ p := by
        rintro rfl
        rw [hd] at hq
        simp at hq
      exact ⟨hfj, q, by simpa [hqp] using hq⟩
    · obtain rfl := mem_singleton.mp hj
      exact ⟨hf, p, .inl (by simp)⟩

section

omit [DecidableEq Pid]

/-- The disk and the controller change. -/
theorem Inv.disk (h : s.Inv) {disk : Key → Block} (hserves : Serves s.buf disk s.idequeue ctl) :
    { s with disk := disk, ctl := ctl }.Inv :=
  { h with serves := hserves }

theorem wakeup_of_ne (hp : drv p ≠ some (.asleep i)) :
    wakeup drv i p = drv p :=
  if_neg hp

theorem wakeup_of_eq (hp : drv p = some (.asleep i)) :
    wakeup drv i p = some (.awake i) :=
  if_pos hp

/-- `wakeup` leaves a process at the same buffer. -/
theorem slot_of_wakeup (hp : wakeup drv i p = some d) :
    ∃ e, drv p = some e ∧ e.slot = d.slot := by
  by_cases hd : drv p = some (.asleep i)
  · rw [wakeup_of_eq hd] at hp
    obtain rfl := Option.some.inj hp
    exact ⟨_, hd, rfl⟩
  · rw [wakeup_of_ne hd] at hp
    exact ⟨d, hp, rfl⟩

theorem finish_key (b : Buf Pid) (err : Bool) (inp : Block) :
    (finish b err inp).key = b.key ∧ (finish b err inp).lock = b.lock ∧
      (finish b err inp).refcnt = b.refcnt := by
  unfold finish
  split <;> exact ⟨rfl, rfl, rfl⟩

end

/-- The interrupt. -/
theorem Inv.intr (h : s.Inv) {queue : List Slot} {err : Bool} {inp : Block}
    (hq : s.idequeue = i :: queue) :
    { s with
      toBufs := s.toBufs.set i (finish (s.buf i) err inp)
      idequeue := queue
      ctl := next s.buf queue
      drv := wakeup s.drv i }.Inv := by
  have hnodup : (i :: queue).Nodup := hq ▸ h.nodup
  have hmem : ∀ {j}, j ∈ s.idequeue ↔ j = i ∨ j ∈ queue := by simp [hq]
  have hout : i ∉ queue := (nodup_cons.mp hnodup).1
  obtain ⟨p, d, hp, -, hl, hpos⟩ := h.waiter (hmem.mpr (.inl rfl))
  obtain ⟨hkey, hlock, href⟩ := finish_key (s.buf i) err inp
  have hbuf : ∀ {j}, j ≠ i →
      update s.buf i (finish (s.buf i) err inp) j = s.buf j :=
    fun hj => update_of_ne hj ..
  have hdone : Done (update s.buf i (finish (s.buf i) err inp) i) := by
    rw [update_self]
    exact ⟨rfl, rfl⟩
  have hlocks : ∀ j, (update s.buf i (finish (s.buf i) err inp) j).lock =
      (s.buf j).lock := fun j => by
    rcases eq_or_ne j i with rfl | hj
    · rw [update_self, hlock]
    · rw [hbuf hj]
  refine ⟨h.bufs.set hpos hl hkey hlock href, (nodup_cons.mp hnodup).2, fun q d hd => ?_,
    fun j hj => ?_, ?_⟩
  · change wakeup s.drv i q = some d at hd
    by_cases hq : s.drv q = some (.asleep i)
    · rw [wakeup_of_eq hq] at hd
      obtain rfl := Option.some.inj hd
      exact ⟨(hlocks i).trans (h.calls q _ hq).1, (h.calls q _ hq).2.1, .inr hdone⟩
    · rw [wakeup_of_ne hq] at hd
      obtain ⟨hlq, hposq, hplace⟩ := h.calls q d hd
      refine ⟨(hlocks _).trans hlq, hposq, ?_⟩
      cases d with
      | entering j =>
        refine ⟨fun hj => hplace.1 (hmem.mpr (.inr hj)), ?_⟩
        change ¬Done (update s.buf i _ j)
        rw [hbuf fun hj => hplace.1 (hmem.mpr (.inl hj))]
        exact hplace.2
      | asleep j => exact (hmem.mp hplace).resolve_left fun hj => hq (hj ▸ hd)
      | awake j =>
        rcases eq_or_ne j i with rfl | hji
        · exact .inr hdone
        · change j ∈ queue ∨ Done (update s.buf i _ j)
          rw [hbuf hji]
          exact hplace.imp_left fun hj => (hmem.mp hj).resolve_left hji
  · have hji : j ≠ i := fun hji => hout (hji ▸ hj)
    obtain ⟨hf, q, hd⟩ := h.queued j (hmem.mpr (.inr hj))
    refine ⟨?_, q, ?_⟩
    · change ¬Done (update s.buf i _ j)
      rwa [hbuf hji]
    · have hd' : s.drv q ≠ some (.asleep i) := fun hc => by
        rw [hc] at hd
        exact hji (by simpa using hd : i = j).symm
      change wakeup s.drv i q = _ ∨ wakeup s.drv i q = _
      rwa [wakeup_of_ne hd']
  · cases queue with
    | nil => exact .idle
    | cons j queue =>
      have hji : j ≠ i := fun hji => hout (by rw [hji]; exact mem_cons_self)
      have hcommand : next s.buf (j :: queue) =
          command (update s.buf i (finish (s.buf i) err inp) j) := by
        rw [hbuf hji]
        rfl
      rw [hcommand]
      exact .busy j queue

omit [DecidableEq Pid] in
theorem Inv.serves_append (h : s.Inv) (hq : s.idequeue ≠ []) :
    Serves s.buf s.disk (s.idequeue ++ [i]) s.ctl := by
  have hserves := h.serves
  revert hserves hq
  generalize s.idequeue = queue
  generalize s.ctl = ctl
  intro hq hserves
  cases hserves with
  | idle => exact absurd rfl hq
  | busy j q => exact .busy j (q ++ [i])
  | done q err hread hwrite => exact .done (q ++ [i]) err hread hwrite

/-- **The invariant of the driver is kept by everything that can happen.** -/
theorem Inv.step (h : s.Inv) (hs : Step s a t) : t.Inv := by
  cases hs with
  | user hd hu => exact h.user hd hu
  | @iderw p i hd hp hl hf =>
    refine h.move (fun d he => ?_) fun j _ hw => by simp [hd] at hw
    obtain rfl := Option.some.inj he
    refine ⟨hl, hp, fun hi => ?_, hf⟩
    obtain ⟨q, d, hq, -, hlq, -⟩ := h.waiter hi
    rw [hl] at hlq
    rw [← Option.some.inj hlq, hd] at hq
    cases hq
  | @first p i hd hq hc =>
    have hserves : Serves s.buf s.disk (s.idequeue ++ [i]) (command (s.buf i)) := by
      rw [hq]
      exact .busy i []
    have henq := h.enqueue hd hserves
    rwa [hq] at henq
  | append hd hq => exact h.enqueue hd (h.serves_append hq)
  | @rouse p i hd =>
    obtain ⟨hl, hpos, hi⟩ := h.calls p _ hd
    refine h.move (fun d he => ?_) fun j _ hw => .inr (by simpa [hd] using hw)
    obtain rfl := Option.some.inj he
    exact ⟨hl, hpos, .inl hi⟩
  | @again p i hd hf =>
    obtain ⟨hl, hpos, hi⟩ := h.calls p _ hd
    refine h.move (fun d he => ?_) fun j _ hw => .inl (by simpa [hd] using hw)
    obtain rfl := Option.some.inj he
    exact ⟨hl, hpos, hi.resolve_right hf⟩
  | @leave p i hd hf =>
    refine h.move nofun fun j hj hw => ?_
    obtain rfl : i = j := by simpa [hd] using hw
    exact absurd hf (h.queued i hj).1
  | @write i q err hq hc hf =>
    refine h.disk ?_
    rw [hq]
    exact .done q err (fun hf' => absurd hf (by simp [hf'])) fun _ => update_self ..
  | @read i q err hq hc hf =>
    have hserves : Serves s.buf s.disk s.idequeue (.done err (s.disk (sector (s.buf i).key))) := by
      rw [hq]
      exact .done q err (fun _ => rfl) fun hf' => absurd hf (by simp [hf'])
    exact h.disk hserves
  | intr hq hc => exact h.intr hq

/-- The same for a step of the model. -/
theorem Inv.of_step (h : s.Inv) (hs : s.step a = some t) : t.Inv := h.step (h.step_cases hs)

end Preserve

end St

end Xv6.Ide
