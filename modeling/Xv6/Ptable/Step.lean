import Xv6.Ptable.Table

/-!
# What a step of the process table can do

The actions of `Xv6.Ptable.effect` sorted by what they change. Most of them change
a process only, and the process whose thread runs at that: `Xv6.Ptable.Own` lists
what it may do to itself. `fork` also changes the slot of the child, which is
`Xv6.Ptable.Build`, and everything that wakes processes up only ever turns
`SLEEPING` into `RUNNABLE`, which is `Xv6.Ptable.Woken`. What remains – switching
between threads, and the critical sections of `fork`, `exit`, `wait` and `kill` –
are the other constructors of `Xv6.Ptable.Step`. The invariants are proved by cases
on it, and **no other proof opens `Xv6.Ptable.effect`**
(`Xv6.Ptable.Step.of_step`).
-/

namespace Xv6.Ptable

variable {q q' : Proc} {p : Slot}

open Lib List
open Function (update update_self update_of_ne update_apply update_eq_self update_idem)

/-! ### One process -/

/-- The process may have been woken up. -/
def Woken (q q' : Proc) : Prop :=
  q' = q ∨ q.state = .sleeping ∧ q' = { q with state := .runnable }

theorem Woken.refl (q : Proc) : Woken q q := .inl rfl

theorem woken_wakeup1 (ch : Option Chan) (q : Proc) : Woken q (q.wakeup1 ch) := by
  rw [Proc.wakeup1]
  split
  next h => exact .inr ⟨h.1, rfl⟩
  next => exact .inl rfl

theorem Woken.trans {q'' : Proc} (h : Woken q q') (h' : Woken q' q'') : Woken q q'' := by
  rcases h with rfl | ⟨hq, rfl⟩
  · exact h'
  · rcases h' with rfl | ⟨hq', -⟩
    · exact .inr ⟨hq, rfl⟩
    · cases hq'

/-- Nobody is asleep on a channel after `wakeup1`. -/
theorem wakeup1_not_sleeping {ch : Option Chan} (h : (q.wakeup1 ch).state = .sleeping) :
    (q.wakeup1 ch).chan ≠ ch := by
  rw [Proc.wakeup1] at h ⊢
  split at h
  next => cases h
  next hn =>
    rw [if_neg hn]
    exact fun hc => hn ⟨h, hc⟩

/-- What the process in slot `p` may do to itself, other than to give the CPU up. -/
inductive Own (p : Slot) (q : Proc) : Proc → Prop
  | fault (h : q.Calls) : Own p q { q with killed := true }
  | ofile (f : Fin NOFILE → Bool) (h : q.Calls) : Own p q { q with ofile := f }
  | exit (h : q.Calls) (hp : p ≠ initproc) : Own p q (q.goto (.exiting 0))
  | close (fd : ℕ) (hfd : fd < NOFILE) (h : q.pc = .exiting fd) (hl : q.loop = none) :
      Own p q { q with ofile := update q.ofile ⟨fd, hfd⟩ false, pc := .exiting (fd + 1) }
  | drop (fd : ℕ) (hfd : ¬fd < NOFILE) (h : q.pc = .exiting fd) (hl : q.loop = none) :
      Own p q { q with cwd := false, pc := .leaving }
  /-- The process moves on in a loop that sleeps, or enters or leaves one. -/
  | loop (r : Option (Stage × Loop)) (h : q.loop = none → q.pc = .user ∨ q.pc.Closing)
      (htested : ∀ l, r = some (.tested, l) → q.killed = false)
      (hwoken : ∀ l, r = some (.woken, l) → q.loop = some (.tested, l))
      (hasleep : ∀ l, r ≠ some (.asleep, l)) : Own p q { q with loop := r }

/-- What a process does not do to itself. -/
@[grind →] theorem Own.frame (h : Own p q q') :
    q'.state = q.state ∧ q'.pid = q.pid ∧ q'.parent = q.parent ∧ q'.chan = q.chan ∧
      q'.kstack = q.kstack ∧ q'.pgdir = q.pgdir ∧ q'.ctx = q.ctx ∧ q'.birth = q.birth := by
  cases h <;> exact ⟨rfl, rfl, rfl, rfl, rfl, rfl, rfl, rfl⟩

/-- A process does not get into the middle of `fork` that way. -/
theorem Own.pc_fork {i : Slot} {st : ForkStage} (h : Own p q q') (hq : q'.pc = .fork st i) :
    q.pc = .fork st i := by
  cases h with
  | fault | ofile | loop => exact hq
  | exit | close | drop => cases hq

/-- What waking a process up does not change. -/
@[grind →] theorem Woken.frame (h : Woken q q') :
    q'.pid = q.pid ∧ q'.parent = q.parent ∧ q'.chan = q.chan ∧ q'.killed = q.killed ∧
      q'.kstack = q.kstack ∧ q'.pgdir = q.pgdir ∧ q'.ofile = q.ofile ∧ q'.cwd = q.cwd ∧
      q'.pc = q.pc ∧ q'.loop = q.loop ∧ q'.ctx = q.ctx ∧ q'.birth = q.birth := by
  rcases h with rfl | ⟨-, rfl⟩ <;> exact ⟨rfl, rfl, rfl, rfl, rfl, rfl, rfl, rfl, rfl, rfl, rfl, rfl⟩

/-- What waking a process up does. -/
@[grind →] theorem Woken.state (h : Woken q q') :
    q'.state = q.state ∨ q.state = .sleeping ∧ q'.state = .runnable := by
  rcases h with rfl | ⟨hq, rfl⟩
  · exact .inl rfl
  · exact .inr ⟨hq, rfl⟩

/-- How a process returns from `sched`, other than in `wait`. -/
inductive Resumed (q : Proc) : Proc → Prop
  | start (h : q.ctx = some .forkret ∨ q.ctx = some .yield) : Resumed q { q with ctx := none }
  | sleep (st : Stage) (l : Loop) (h : q.ctx = some .sleep) (hl : q.loop = some (st, l)) :
      Resumed q { q with ctx := none, chan := none, loop := some (.relock, l) }

/-- What `fork`, called by process `q` in slot `p`, does to the slot of the child
without the lock. -/
inductive Build (p : Slot) (q : Proc) (np : Proc) : ForkStage → ForkStage → Proc → Prop
  | stack : Build p q np .alloced .stacked np.setStack
  | noStack : Build p q np .alloced .freed np.noStack
  | copy : Build p q np .stacked .copied (np.setPgdir true)
  | noCopy : Build p q np .stacked .freed (np.setPgdir false).noStack
  | fill : Build p q np .copied .filled (.fill p q np)

theorem Build.state {np np' : Proc} {st st' : ForkStage} (h : Build p q np st st' np') :
    np'.state = np.state := by
  cases h <;> rfl

/-- What a slot is after the children of `p` have been passed to the first process. -/
def Proc.pass (p : Slot) (q : Proc) : Proc :=
  if q.parent = some p then q.adopt else q

variable {Cpu : Type} {s t : State Cpu} {p j : Slot} {q q' : Proc}

/-! ### Reading the state back -/

attribute [grind =] Proc.become Proc.switch Proc.setLoop Proc.sleep Proc.goto Proc.alloc
  Proc.setStack Proc.noStack Proc.setPgdir Proc.fill Proc.reap Proc.kill Proc.adopt Proc.pass

@[grind =] theorem set_proc (s : State Cpu) (i j : Slot) (q : Proc) :
    (s.set i q).proc j = if j = i then q else s.proc j :=
  update_apply ..

@[grind =] theorem record_proc (s : State Cpu) (e : Event) (j : Slot) :
    (s.record e).proc j = s.proc j :=
  rfl

@[simp] theorem set_proc_self (s : State Cpu) (i : Slot) (q : Proc) : (s.set i q).proc i = q :=
  update_self ..

theorem set_proc_of_ne (s : State Cpu) {i : Slot} (q : Proc) (h : j ≠ i) :
    (s.set i q).proc j = s.proc j :=
  update_of_ne h ..

@[simp] theorem set_set (s : State Cpu) (i : Slot) (q q' : Proc) :
    (s.set i q).set i q' = s.set i q' := by
  simp only [State.set, update_idem]

theorem set_proc_eq (s : State Cpu) (p : Slot) : s.set p (s.proc p) = s := by
  rw [State.set, update_eq_self]

theorem thread_eq {c : Cpu} :
    s.thread c = some p ↔ s.on c = some p ∧ (s.proc p).ctx = none := by
  rw [State.thread]
  cases s.on c with
  | none => simp
  | some p' =>
    dsimp only
    split
    next h =>
      constructor
      · rintro ⟨⟩
        exact ⟨rfl, h⟩
      · rintro ⟨⟨⟩, -⟩
        rfl
    next h =>
      constructor
      · rintro ⟨⟩
      · rintro ⟨⟨⟩, h'⟩
        exact absurd h' h

theorem perform_eq_ok {c : Cpu} {f : Slot → Proc → Effect (State Cpu)} :
    s.perform c f = .ok t ↔ ∃ p, s.thread c = some p ∧ f p (s.proc p) = .ok t := by
  rw [State.perform]
  cases s.thread c <;> simp

theorem guarded_eq_ok {b : Prop} [Decidable b] {e : Effect (State Cpu)} :
    guarded b e = .ok t ↔ b ∧ e = .ok t := by
  rw [guarded]
  split <;> simp [*]

theorem find_eq_some {P : Proc → Bool} {i : Slot} (h : s.find P = some i) :
    P (s.proc i) = true :=
  find?_some (p := fun i => P (s.proc i)) h

theorem find_eq_none {P : Proc → Bool} (h : s.find P = none) (i : Slot) :
    P (s.proc i) = false := by
  have := find?_eq_none.mp h i (mem_finRange i)
  simpa using this

/-! ### The loop of `exit` -/

/-- The slots after the loop of `exit` has been over the slots `js`: the children of
`p` among them have been passed on, and the first process has been woken up if one
of them is a zombie. -/
structure Passed (s : State Cpu) (p : Slot) (js : List Slot) (t : State Cpu) : Prop where
  rest : t = { s with proc := t.proc }
  woken : ∀ j, Woken (if j ∈ js then (s.proc j).pass p else s.proc j) (t.proc j)
  init : ∀ j ∈ js, (s.proc j).parent = some p → (s.proc j).state = .zombie →
    (t.proc initproc).state = .sleeping → (t.proc initproc).chan ≠ some (.proc initproc)

theorem Passed.nil (s : State Cpu) (p : Slot) : Passed s p [] s where
  rest := rfl
  woken _ := .inl rfl
  init _ hj := by cases hj

theorem pass_state (p : Slot) (q : Proc) : (q.pass p).state = q.state := by
  rw [Proc.pass]
  split <;> rfl

theorem pass_chan (p : Slot) (q : Proc) : (q.pass p).chan = q.chan := by
  rw [Proc.pass]
  split <;> rfl

theorem Woken.parent (h : Woken q q') : q'.parent = q.parent := by
  rcases h with rfl | ⟨-, rfl⟩ <;> rfl

theorem pass_pc (p : Slot) (q : Proc) : (q.pass p).pc = q.pc := by
  rw [Proc.pass]
  split <;> rfl

theorem Woken.zombie (h : Woken q q') : q'.state = .zombie ↔ q.state = .zombie := by
  rcases h with rfl | ⟨hq, rfl⟩
  · rfl
  · simp [hq]

/-- Who is asleep has not been woken up. -/
theorem Woken.sleeping (h : Woken q q') (hs : q'.state = .sleeping) :
    q.state = .sleeping ∧ q'.chan = q.chan := by
  rcases h with rfl | ⟨-, rfl⟩
  · exact ⟨hs, rfl⟩
  · cases hs

/-- Passing on commutes with waking up. -/
theorem Woken.pass (p : Slot) (h : Woken q q') : Woken (q.pass p) (q'.pass p) := by
  rcases h with rfl | ⟨hq, rfl⟩
  · exact Woken.refl _
  · refine .inr ⟨(pass_state p q).trans hq, ?_⟩
    simp only [Proc.pass]
    split <;> rfl

/-- One turn of the loop. -/
theorem passChild_eq (t : State Cpu) (p j : Slot) :
    t.passChild p j = { t with proc := (t.passChild p j).proc } := by
  rw [State.passChild]
  split
  · dsimp only
    split <;> rfl
  · rfl

theorem passChild_woken (t : State Cpu) (p j k : Slot) :
    Woken (if k = j then (t.proc k).pass p else t.proc k) ((t.passChild p j).proc k) := by
  by_cases hp : (t.proc j).parent = some p
  · have hset : (t.set j (t.proc j).adopt).proc k =
        if k = j then (t.proc k).pass p else t.proc k := by
      rcases eq_or_ne k j with rfl | h
      · rw [set_proc_self, if_pos rfl, Proc.pass, if_pos hp]
      · rw [set_proc_of_ne t _ h, if_neg h]
    rw [← hset, State.passChild, if_pos hp]
    dsimp only
    split
    · exact woken_wakeup1 _ _
    · exact Woken.refl _
  · rw [State.passChild, if_neg hp]
    rcases eq_or_ne k j with rfl | h
    · rw [if_pos rfl, Proc.pass, if_neg hp]
      exact Woken.refl _
    · rw [if_neg h]
      exact Woken.refl _

theorem passChild_init (hp : (t.proc j).parent = some p) (hz : (t.proc j).state = .zombie)
    (h : ((t.passChild p j).proc initproc).state = .sleeping) :
    ((t.passChild p j).proc initproc).chan ≠ some (.proc initproc) := by
  have heq : t.passChild p j =
      (t.set j (t.proc j).adopt).wakeup1 (some (.proc initproc)) := by
    rw [State.passChild, if_pos hp]
    dsimp only
    rw [set_proc_self]
    exact if_pos hz
  rw [heq] at h ⊢
  exact wakeup1_not_sleeping h

theorem Passed.passChild {js : List Slot} (h : Passed s p js t) (hj : j ∉ js) :
    Passed s p (js ++ [j]) (t.passChild p j) := by
  have hw : ∀ k, Woken (if k ∈ js ++ [j] then (s.proc k).pass p else s.proc k)
      ((t.passChild p j).proc k) := by
    intro k
    refine Woken.trans ?_ (passChild_woken t p j k)
    by_cases hk : k = j
    · subst hk
      rw [if_pos (by simp), if_pos rfl]
      have := h.woken k
      rw [if_neg hj] at this
      exact this.pass p
    · rw [if_neg hk]
      have := h.woken k
      simpa [hk] using this
  refine ⟨?_, hw, ?_⟩
  · rw [passChild_eq t p j, h.rest]
  · intro k hk hp hz hsl
    rcases mem_append.mp hk with hk | hk
    · -- Woken up in an earlier turn, the first process is not put to sleep again.
      have hwi := passChild_woken t p j initproc
      have hst : (t.proc initproc).state = .sleeping ∧
          ((t.passChild p j).proc initproc).chan = (t.proc initproc).chan := by
        have := hwi.sleeping hsl
        split at this
        · exact ⟨(pass_state p _).symm.trans this.1, this.2.trans (pass_chan p _)⟩
        · exact this
      rw [hst.2]
      exact h.init k hk hp hz hst.1
    · obtain rfl : k = j := by simpa using hk
      have hwk := h.woken k
      rw [if_neg hj] at hwk
      exact passChild_init (hwk.parent.trans hp) (hwk.zombie.mpr hz) hsl

theorem passed_foldl (js : List Slot) :
    ∀ {ks : List Slot} {t : State Cpu}, Passed s p ks t → (ks ++ js).Nodup →
      Passed s p (ks ++ js) (js.foldl (State.passChild p) t) := by
  induction js with
  | nil =>
    intro ks t h _
    rwa [append_nil]
  | cons j js ih =>
    intro ks t h hnd
    rw [append_cons] at hnd ⊢
    have hj : j ∉ ks := by
      intro hj
      have := (nodup_append.mp (nodup_append.mp hnd).1).2.2 j hj j (by simp)
      exact this rfl
    exact ih (h.passChild hj) hnd

/-- **The loop of `exit`.** -/
theorem passed_finRange (s : State Cpu) (p : Slot) :
    Passed s p (List.finRange NPROC) ((List.finRange NPROC).foldl (State.passChild p) s) :=
  passed_foldl _ (Passed.nil s p) (nodup_finRange NPROC)

variable [DecidableEq Cpu] {s t : State Cpu} {a : Act Cpu} {c : Cpu} {p : Slot}

/-! ### Steps -/

/-- A process that can do a turn of the loop of `wait`: it has just called `wait`, or
it returns from its `sleep`. -/
def State.Waits (s : State Cpu) (c : Cpu) (p : Slot) : Prop :=
  s.on c = some p ∧
    ((s.proc p).ctx = none ∧ (s.proc p).Calls ∧ s.lock = none ∨
      (s.proc p).ctx = some .wait ∧ s.lock = some c)

omit [DecidableEq Cpu] in
theorem State.Waits.lock (h : s.Waits c p) : s.lock = none ∨ s.lock = some c :=
  h.2.imp (fun h => h.2.2) And.right

/-- The process in `wait` before it looks at the table. -/
@[grind =] def Proc.unwait (q : Proc) : Proc :=
  { q with ctx := none, chan := if q.ctx = none then q.chan else none }

/-- What an action can do. -/
inductive Step (s : State Cpu) (a : Act Cpu) : State Cpu → Prop
  | same : Step s a s
  /-- The scheduler takes or releases the lock or goes on in its loop. -/
  | scan (c : Cpu) (l : Option Cpu) (sc : Cpu → ℕ) (hon : s.on c = none) (hcur : s.cur c = none)
      (hl : s.lock = none ∧ l = some c ∨ s.lock = some c ∧ (l = none ∨ l = some c)) :
      Step s a { s with lock := l, scan := sc }
  /-- The scheduler switches to a process. -/
  | pick (c : Cpu) (p : Slot) (hon : s.on c = none) (hcur : s.cur c = none)
      (hl : s.lock = some c) (hp : (s.proc p).state = .runnable) :
      Step s a { s.set p ((s.proc p).become .running) with
        cur := update s.cur c (some p)
        on := update s.on c (some p) }
  /-- The scheduler is switched to. -/
  | back (c : Cpu) (sc : Cpu → ℕ) (hon : s.on c = none) (hl : s.lock = some c) :
      Step s a { s with cur := update s.cur c none, scan := sc }
  /-- The process on a CPU changes itself, and possibly wakes others up. -/
  | own (c : Cpu) (p : Slot) (q : Slot → Proc) (lk : Lock → Bool) (ht : s.thread c = some p)
      (hown : Own p (s.proc p) (q p)) (hw : ∀ j ≠ p, Woken (s.proc j) (q j)) :
      Step s a { s with proc := q, locks := lk }
  /-- Some processes are woken up. -/
  | wakeup (q : Slot → Proc) (hw : ∀ j, Woken (s.proc j) (q j)) : Step s a { s with proc := q }
  | resume (c : Cpu) (p : Slot) (q : Proc) (hon : s.on c = some p) (hl : s.lock = some c)
      (hq : Resumed (s.proc p) q) : Step s a { s.set p q with lock := none }
  | yield (c : Cpu) (p : Slot) (ht : s.thread c = some p) (hl : s.lock = none) :
      Step s a { s.set p (((s.proc p).become .runnable).switch .yield) with
        lock := some c
        on := update s.on c none }
  | sleep (c : Cpu) (p : Slot) (st : Stage) (l : Loop) (lk : Lock → Bool)
      (ht : s.thread c = some p) (hl : s.lock = none) (hloop : (s.proc p).loop = some (st, l))
      (hready : l.Ready st) :
      Step s a { s.set p ((((s.proc p).sleep l.chan).setLoop (.asleep, l)).switch .sleep) with
        lock := some c
        on := update s.on c none
        locks := lk }
  /-- `allocproc` finds a slot. -/
  | alloc (c : Cpu) (p i : Slot) (ht : s.thread c = some p) (hl : s.lock = none)
      (hp : (s.proc p).Calls) (hi : (s.proc i).state = .unused) :
      Step s a { (s.set i ((s.proc i).alloc s.nextpid s.handed)).set p
          ((s.proc p).goto (.fork .alloced i)) with
        nextpid := (s.nextpid + 1).bmod (2 ^ 32)
        handed := s.handed + 1 }
  | build (c : Cpu) (p i : Slot) (st st' : ForkStage) (q : Proc) (ht : s.thread c = some p)
      (hp : (s.proc p).pc = .fork st i) (hq : Build p (s.proc p) (s.proc i) st st' q) :
      Step s a ((s.set i q).set p ((s.proc p).goto (.fork st' i)))
  | unalloc (c : Cpu) (p i : Slot) (ht : s.thread c = some p)
      (hp : (s.proc p).pc = .fork .freed i) :
      Step s a ((s.set i ((s.proc i).become .unused)).set p ((s.proc p).goto .user))
  | start (c : Cpu) (p i : Slot) (ht : s.thread c = some p) (hl : s.lock = none)
      (hp : (s.proc p).pc = .fork .filled i) :
      Step s a (((s.set i ((s.proc i).become .runnable)).set p ((s.proc p).goto .user)).record
        (.forked p i (s.proc i).birth (s.proc i).pid))
  /-- The critical section of `exit`: nobody is left asleep who has to know. -/
  | exit (c : Cpu) (p : Slot) (q : Slot → Proc) (ht : s.thread c = some p) (hl : s.lock = none)
      (hp : (s.proc p).pc = .leaving)
      (hq : q p = (((s.proc p).pass p).become .zombie).switch .sleep)
      (hw : ∀ j ≠ p, Woken ((s.proc j).pass p) (q j))
      (hparent : ∀ j, (s.proc p).parent = some j → (q j).state = .sleeping →
        (q j).chan ≠ some (.proc j))
      (hinit : ∀ j, (s.proc j).parent = some p → (s.proc j).state = .zombie →
        (q initproc).state = .sleeping → (q initproc).chan ≠ some (.proc initproc)) :
      Step s a { s with
        proc := q
        lock := some c
        on := update s.on c none
        hist := s.hist ++ [.exited (s.proc p).birth] }
  | reap (c : Cpu) (p i : Slot) (hp : s.Waits c p) (hi : (s.proc i).parent = some p)
      (hz : (s.proc i).state = .zombie) :
      Step s a { ((s.set p (s.proc p).unwait).set i
          ((s.set p (s.proc p).unwait).proc i).reap).record
        (.waited p i (s.proc i).birth (s.proc i).pid) with lock := none }
  | waitFail (c : Cpu) (p : Slot) (hp : s.Waits c p)
      (h : (∀ j, (s.proc j).parent ≠ some p) ∨ (s.proc p).killed = true) :
      Step s a { (s.set p (s.proc p).unwait).record (.waitFailed p) with lock := none }
  | waitSleep (c : Cpu) (p : Slot) (hp : s.Waits c p) (hk : (s.proc p).killed = false)
      (h : ∀ j, (s.proc j).parent = some p → (s.proc j).state ≠ .zombie) :
      Step s a { s.set p (((s.proc p).unwait.sleep (.proc p)).switch .wait) with
        lock := some c
        on := update s.on c none }
  | kill (c : Cpu) (p : Slot) (pid : ℤ) (i : Slot) (ha : a = .kill c pid)
      (ht : s.thread c = some p) (hl : s.lock = none) (hi : s.target pid = some i) :
      Step s a (s.set i (s.proc i).kill)

/-! ### Every action is a step -/

/-- `sched` after the process has changed itself. -/
theorem sched_set (s : State Cpu) (c : Cpu) (p : Slot) (q : Proc) (x : Ctx) :
    (s.set p q).sched c p x =
      { s.set p (q.switch x) with lock := some c, on := update s.on c none } := by
  rw [State.sched, set_proc_self, set_set]
  rfl

theorem Step.ofOwn {q : Proc} (lk : Lock → Bool) (ht : s.thread c = some p)
    (h : Own p (s.proc p) q) :
    Step s a { s.set p q with locks := lk } := by
  refine .own c p _ lk ht ?_ ?_
  · rwa [set_proc_self]
  · intro j hj
    rw [set_proc_of_ne s q hj]
    exact Woken.refl _

theorem Step.ofWait (hp : s.Waits c p) (h : (s.set p (s.proc p).unwait).wait c p = .ok t) :
    Step s a t := by
  have hproc : ∀ {α : Type} (f : Proc → α), f (s.proc p).unwait = f (s.proc p) →
      ∀ i, f ((s.set p (s.proc p).unwait).proc i) = f (s.proc i) := by
    intro α f hf i
    rcases eq_or_ne i p with rfl | hi
    · rw [set_proc_self, hf]
    · rw [set_proc_of_ne s _ hi]
  have hpar := hproc (·.parent) rfl
  have hstate := hproc (·.state) rfl
  have hkilled := hproc (·.killed) rfl p
  rw [State.wait] at h
  split at h
  next i hi =>
    have hfound := find_eq_some hi
    rw [hpar, hstate] at hfound
    obtain ⟨hi, hz⟩ : (s.proc i).parent = some p ∧ (s.proc i).state = .zombie := by
      simpa using hfound
    split at h
    · cases h
    · split at h
      · cases h
      · cases h
        rw [hproc (·.birth) rfl, hproc (·.pid) rfl]
        exact .reap c p i hp hi hz
  next hnone =>
    have hno : ∀ j, (s.proc j).parent = some p → (s.proc j).state ≠ .zombie := by
      intro j hj hz
      have := find_eq_none hnone j
      rw [hpar, hstate] at this
      simp [hj, hz] at this
    split at h
    next hor =>
      cases h
      refine .waitFail c p hp (hor.imp ?_ ?_)
      · intro hkids j hj
        have := find_eq_none hkids j
        rw [hpar] at this
        simp [hj] at this
      · exact fun hk => hkilled.symm.trans hk
    next hor =>
      cases h
      have hk : (s.proc p).killed = false := by
        rw [not_or, hkilled] at hor
        simpa using hor.2
      rw [set_proc_self, set_set, sched_set]
      exact .waitSleep c p hp hk hno

theorem unwait_of_ctx {q : Proc} (h : q.ctx = none) : q.unwait = q := by
  cases q
  cases h
  rfl

theorem Step.ofResume (hon : s.on c = some p) (hl : s.lock = some c)
    (h : s.resume c p (s.proc p) = .ok t) : Step s a t := by
  rw [State.resume] at h
  split at h
  next => cases h
  next hctx =>
    cases h
    exact .resume c p _ hon hl (.start (.inl hctx))
  next hctx =>
    cases h
    exact .resume c p _ hon hl (.start (.inr hctx))
  next hctx =>
    split at h
    next st l hloop =>
      cases h
      exact .resume c p _ hon hl (.sleep st l hctx hloop)
    next => cases h
  next hctx =>
    refine .ofWait ⟨hon, .inr ⟨hctx, hl⟩⟩ ?_
    rwa [Proc.unwait, if_neg (by rw [hctx]; exact Option.some_ne_none _)]

/-- The critical section of `exit`. -/
theorem Step.ofLeave (ht : s.thread c = some p) (hl : s.lock = none)
    (hp : (s.proc p).pc = .leaving) : Step s a (s.leave c p) := by
  have hpassed := passed_finRange (s.wakeup1 ((s.proc p).parent.map .proc)) p
  rw [State.leave]
  generalize (List.finRange NPROC).foldl (State.passChild p)
    (s.wakeup1 ((s.proc p).parent.map .proc)) = t at hpassed ⊢
  have hw : ∀ j, Woken ((s.proc j).pass p) (t.proc j) := by
    intro j
    have := hpassed.woken j
    rw [if_pos (mem_finRange j)] at this
    exact ((woken_wakeup1 _ _).pass p).trans this
  have hself : (t.proc p).become .zombie = ((s.proc p).pass p).become .zombie := by
    rcases hw p with h | ⟨-, h⟩
    · rw [h]
    · rw [h]
      rfl
  have hbirth : (t.proc p).birth = (s.proc p).birth := by
    have hpass : ((s.proc p).pass p).birth = (s.proc p).birth := by
      rw [Proc.pass]
      split <;> rfl
    rw [← hpass]
    rcases hw p with h | ⟨-, h⟩
    · rw [h]
    · rw [h]
  have hdie : t.die c p = { s with
      proc := update t.proc p ((((s.proc p).pass p).become .zombie).switch .sleep)
      lock := some c
      on := update s.on c none
      hist := s.hist ++ [.exited (s.proc p).birth] } := by
    rw [State.die, hself, hbirth, hpassed.rest]
    simp only [State.sched, State.record, State.set, State.wakeup1, update_self,
      update_idem]
  rw [hdie]
  refine .exit c p _ ht hl hp (update_self ..) ?_ ?_ ?_
  · intro j hj
    rw [update_of_ne hj]
    exact hw j
  · intro j hj hsl
    rcases eq_or_ne j p with rfl | hne
    · rw [update_self] at hsl
      cases hsl
    · rw [update_of_ne hne] at hsl ⊢
      have hwj := hpassed.woken j
      rw [if_pos (mem_finRange j)] at hwj
      obtain ⟨hs, hc⟩ := hwj.sleeping hsl
      rw [pass_state] at hs
      rw [hc, pass_chan]
      have hne := wakeup1_not_sleeping hs
      exact fun e => hne (e.trans (by rw [hj]; rfl))
  · intro j hj hz hsl
    rcases eq_or_ne initproc p with rfl | hne
    · rw [update_self] at hsl
      cases hsl
    · rw [update_of_ne hne] at hsl ⊢
      have hwj := woken_wakeup1 ((s.proc p).parent.map .proc) (s.proc j)
      exact hpassed.init j (mem_finRange j) (hwj.parent.trans hj) (hwj.zombie.mpr hz) hsl

/-- **Every action is a step.** -/
theorem Step.of_step (h : step s a = some t) : Step s a t := by
  replace h : effect s a = .ok t := Effect.toOption_eq_some.mp h
  cases a <;> rw [effect] at h
  case acquire c =>
    obtain ⟨⟨hon, hcur, hl⟩, ⟨⟩⟩ := guarded_eq_ok.mp h
    exact .scan c _ _ hon hcur (.inl ⟨hl, rfl⟩)
  case look c =>
    obtain ⟨⟨hon, hcur, hl⟩, h⟩ := guarded_eq_ok.mp h
    split at h
    next hsc =>
      dsimp only at h
      split at h
      next hp =>
        cases h
        exact .pick c _ hon hcur hl hp
      next =>
        cases h
        exact .scan c s.lock _ hon hcur (.inr ⟨hl, .inr hl⟩)
    next =>
      cases h
      exact .scan c none s.scan hon hcur (.inr ⟨hl, .inl rfl⟩)
  case back c =>
    obtain ⟨⟨hon, -, hl⟩, ⟨⟩⟩ := guarded_eq_ok.mp h
    exact .back c _ hon hl
  case resume c =>
    split at h
    next => cases h
    next p hon =>
      obtain ⟨hl, h⟩ := guarded_eq_ok.mp h
      exact .ofResume hon hl h
  case yield c =>
    obtain ⟨p, ht, h⟩ := perform_eq_ok.mp h
    obtain ⟨⟨-, hl⟩, ⟨⟩⟩ := guarded_eq_ok.mp h
    rw [sched_set]
    exact .yield c p ht hl
  case fault c =>
    obtain ⟨p, ht, h⟩ := perform_eq_ok.mp h
    obtain ⟨hc, ⟨⟩⟩ := guarded_eq_ok.mp h
    exact .ofOwn s.locks ht (.fault hc)
  case ofile c fd o =>
    obtain ⟨p, ht, h⟩ := perform_eq_ok.mp h
    obtain ⟨hc, ⟨⟩⟩ := guarded_eq_ok.mp h
    exact .ofOwn s.locks ht (.ofile _ hc)
  case fork c =>
    obtain ⟨p, ht, h⟩ := perform_eq_ok.mp h
    obtain ⟨⟨hc, hl⟩, h⟩ := guarded_eq_ok.mp h
    simp only [State.allocproc] at h
    split at h
    next =>
      cases h
      exact .same
    next i t' heq =>
      split at heq
      next => cases heq
      next i' hi =>
        cases heq
        cases h
        have hu : (s.proc i).state = .unused := by simpa using find_eq_some hi
        exact .alloc c p i ht hl hc hu
  case kalloc c ok =>
    obtain ⟨p, ht, h⟩ := perform_eq_ok.mp h
    split at h
    next i hpc =>
      split at h
      · cases h
        exact .build c p i _ _ _ ht hpc .stack
      · cases h
        exact .build c p i _ _ _ ht hpc .noStack
    next => cases h
  case copyuvm c ok =>
    obtain ⟨p, ht, h⟩ := perform_eq_ok.mp h
    split at h
    next i hpc =>
      split at h
      · cases h
        exact .build c p i _ _ _ ht hpc .copy
      · cases h
        exact .build c p i _ _ _ ht hpc .noCopy
    next => cases h
  case unalloc c =>
    obtain ⟨p, ht, h⟩ := perform_eq_ok.mp h
    split at h
    next i hpc =>
      cases h
      exact .unalloc c p i ht hpc
    next => cases h
  case fill c =>
    obtain ⟨p, ht, h⟩ := perform_eq_ok.mp h
    split at h
    next i hpc =>
      cases h
      exact .build c p i _ _ _ ht hpc .fill
    next => cases h
  case start c =>
    obtain ⟨p, ht, h⟩ := perform_eq_ok.mp h
    split at h
    next i hpc =>
      obtain ⟨hl, ⟨⟩⟩ := guarded_eq_ok.mp h
      exact .start c p i ht hl hpc
    next => cases h
  case exit c =>
    obtain ⟨p, ht, h⟩ := perform_eq_ok.mp h
    obtain ⟨hc, h⟩ := guarded_eq_ok.mp h
    split at h
    next => cases h
    next hp =>
      cases h
      exact .ofOwn s.locks ht (.exit hc hp)
  case close c =>
    obtain ⟨p, ht, h⟩ := perform_eq_ok.mp h
    split at h
    next fd hpc =>
      obtain ⟨hloop, h⟩ := guarded_eq_ok.mp h
      split at h
      next hfd =>
        cases h
        exact .ofOwn s.locks ht (.close fd hfd hpc hloop)
      next hfd =>
        cases h
        exact .ofOwn s.locks ht (.drop fd hfd hpc hloop)
    next => cases h
  case leave c =>
    obtain ⟨p, ht, h⟩ := perform_eq_ok.mp h
    obtain ⟨⟨hpc, hl⟩, ⟨⟩⟩ := guarded_eq_ok.mp h
    exact .ofLeave ht hl hpc
  case wait c =>
    obtain ⟨p, ht, h⟩ := perform_eq_ok.mp h
    obtain ⟨⟨hc, hl⟩, h⟩ := guarded_eq_ok.mp h
    obtain ⟨hon, hctx⟩ := thread_eq.mp ht
    refine .ofWait ⟨hon, .inl ⟨hctx, hc, hl⟩⟩ ?_
    rwa [unwait_of_ctx hctx, set_proc_eq]
  case kill c pid =>
    obtain ⟨p, ht, h⟩ := perform_eq_ok.mp h
    obtain ⟨⟨-, hl⟩, ⟨⟩⟩ := guarded_eq_ok.mp h
    rw [State.kill]
    split
    next i hi => exact .kill c p pid i rfl ht hl hi
    next => exact .same
  case enter c l =>
    obtain ⟨p, ht, h⟩ := perform_eq_ok.mp h
    obtain ⟨⟨hq, -⟩, ⟨⟩⟩ := guarded_eq_ok.mp h
    refine .ofOwn _ ht (.loop _ (fun _ => hq.2.imp_right And.left) ?_ ?_ ?_) <;> simp
  case done c =>
    obtain ⟨p, ht, h⟩ := perform_eq_ok.mp h
    split at h
    next l hloop =>
      cases h
      refine .ofOwn _ ht (.loop none (by simp [hloop]) ?_ ?_ ?_) <;> simp
    next => cases h
  case test c =>
    obtain ⟨p, ht, h⟩ := perform_eq_ok.mp h
    split at h
    next l hloop =>
      obtain ⟨-, h⟩ := guarded_eq_ok.mp h
      split at h
      next =>
        cases h
        refine .ofOwn _ ht (.loop none (by simp [hloop]) ?_ ?_ ?_) <;> simp
      next hk =>
        cases h
        refine .ofOwn s.locks ht (.loop _ (by simp [hloop]) (fun _ _ => by simpa using hk) ?_ ?_) <;>
          simp
    next => cases h
  case wake c =>
    obtain ⟨p, ht, h⟩ := perform_eq_ok.mp h
    split at h
    next n hloop =>
      obtain ⟨-, ⟨⟩⟩ := guarded_eq_ok.mp h
      refine .own c p _ s.locks ht ?_ ?_
      · rw [update_self]
        refine .loop _ (by simp [hloop]) ?_ (fun l hl => ?_) ?_
        · simp
        · cases hl
          exact hloop
        · simp
      · intro j hj
        rw [update_of_ne hj]
        exact woken_wakeup1 _ _
    next => cases h
  case sleep c =>
    obtain ⟨p, ht, h⟩ := perform_eq_ok.mp h
    split at h
    next st l hloop =>
      obtain ⟨⟨hr, hl⟩, ⟨⟩⟩ := guarded_eq_ok.mp h
      change Step s _ (({ s with locks := update s.locks l.lock false }.set p
        (((s.proc p).sleep l.chan).setLoop (.asleep, l))).sched c p .sleep)
      rw [sched_set]
      exact .sleep c p st l _ ht hl hloop hr
    next => cases h
  case relock c =>
    obtain ⟨p, ht, h⟩ := perform_eq_ok.mp h
    split at h
    next l hloop =>
      obtain ⟨-, ⟨⟩⟩ := guarded_eq_ok.mp h
      refine .ofOwn _ ht (.loop _ (by simp [hloop]) ?_ ?_ ?_) <;> simp
    next => cases h
  case wakeup ch =>
    obtain ⟨-, ⟨⟩⟩ := guarded_eq_ok.mp h
    exact .wakeup _ fun j => woken_wakeup1 _ _

end Xv6.Ptable
