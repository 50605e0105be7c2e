import Xv6.Ptable.Step

/-!
# Who runs where

The two invariants that everything else about the process table rests on.

`Xv6.Ptable.Scheduled` is about the CPUs. The thread that a CPU runs is `RUNNING`
and is its `c->proc`, and a process is the `c->proc` of one CPU at most. The two
moments at which a CPU is between two threads are those at which it holds
`ptable.lock`: after a process has called `sched`, when its scheduler has not yet
cleared `c->proc`, and after the scheduler has switched to a process, when that one
has not yet returned from `sched`.

`Xv6.Ptable.Forking` is about the slots that are `EMBRYO`. `fork` works on them
without the lock, but only the process that took the slot does, and nobody else
changes anything but `killed` there (`Xv6.Ptable.Proc.Kept`).
-/

namespace Xv6.Ptable

open Lib
open Function (update update_self update_of_ne update_apply forall_update_iff)

variable {Cpu : Type} {q q' : Proc}

/-! ### The invariants -/

/-- The states of a process that has a thread. -/
def Status.Live (st : Status) : Prop := st = .runnable ∨ st = .sleeping ∨ st = .running

/-- Nothing is left of the process that had the slot before. -/
structure Proc.Bare (q : Proc) : Prop where
  parent : q.parent = none
  ofile : ∀ fd, q.ofile fd = false
  cwd : q.cwd = false

/-- A thread that is about to run for the first time. -/
structure Proc.Fresh (q : Proc) : Prop where
  pc : q.pc = .user
  loop : q.loop = none
  ctx : q.ctx = some .forkret

/-- What the slot of the child is like when the `fork` of process `p` has come to a
stage. -/
def ForkStage.Ok (p : Slot) (q : Proc) : ForkStage → Prop
  | alloced | freed => q.kstack = false ∧ q.Bare
  | stacked => q.kstack = true ∧ q.Fresh ∧ q.Bare
  | copied => q.kstack = true ∧ q.pgdir = true ∧ q.Fresh ∧ q.Bare
  | filled => q.kstack = true ∧ q.pgdir = true ∧ q.Fresh ∧ q.parent = some p

/-- The slots that `fork` works on. -/
structure Forking (s : State Cpu) : Prop where
  embryo : ∀ {p st i}, (s.proc p).pc = .fork st i → (s.proc i).state = .embryo
  ok : ∀ {p st i}, (s.proc p).pc = .fork st i → st.Ok p (s.proc i)
  inj : ∀ {p p' st st' i}, (s.proc p).pc = .fork st i → (s.proc p').pc = .fork st' i → p = p'

/-- What belongs to a process in each of its states. The files go in the course of
`exit`. -/
structure Proc.Fit (q : Proc) : Prop where
  unused : q.state = .unused → q.kstack = false ∧ q.Bare
  live : q.state.Live ∨ q.state = .zombie → q.kstack = true ∧ q.pgdir = true
  zombie : q.state = .zombie → q.pc = .leaving
  exiting : ∀ {n}, q.pc = .exiting n → ∀ fd : Fin NOFILE, fd.val < n → q.ofile fd = false
  leaving : q.pc = .leaving → (∀ fd, q.ofile fd = false) ∧ q.cwd = false

/-- The CPUs and the processes that run on them. -/
structure Scheduled (s : State Cpu) : Prop where
  on_cur : ∀ {c p}, s.on c = some p → s.cur c = some p
  on_running : ∀ {c p}, s.on c = some p → (s.proc p).state = .running
  running_on : ∀ {p}, (s.proc p).state = .running → ∃ c, s.on c = some p
  cur_inj : ∀ {c c' p}, s.cur c = some p → s.cur c' = some p → c = c'
  /-- A CPU whose `c->proc` does not run is in its scheduler, which has just been
  switched to. -/
  back : ∀ {c p}, s.cur c = some p → s.on c = some p ∨ s.on c = none ∧ s.lock = some c
  /-- A running process that has to return from `sched` has just been switched to. -/
  fresh : ∀ {c p}, s.on c = some p → ((s.proc p).ctx ≠ none ↔ s.lock = some c)
  suspended : ∀ {p}, (s.proc p).state = .runnable ∨ (s.proc p).state = .sleeping →
    (s.proc p).ctx ≠ none

/-! ### Switching between threads -/

section

variable {s : State Cpu} (h : Scheduled s)
include h

theorem Scheduled.thread {c : Cpu} {p : Slot} (ht : s.thread c = some p) :
    s.on c = some p ∧ (s.proc p).state = .running ∧ (s.proc p).ctx = none := by
  obtain ⟨hon, hctx⟩ := thread_eq.mp ht
  exact ⟨hon, h.on_running hon, hctx⟩

/-- A process runs on one CPU only. -/
theorem Scheduled.on_inj {c c' : Cpu} {p : Slot} (hc : s.on c = some p) (hc' : s.on c' = some p) :
    c = c' :=
  h.cur_inj (h.on_cur hc) (h.on_cur hc')

variable {c : Cpu} {p : Slot} {t : State Cpu}

/-- Nobody starts or stops running. -/
theorem Scheduled.keep (hcur : t.cur = s.cur) (hon : t.on = s.on)
    (hrun : ∀ j, (t.proc j).state = .running ↔ (s.proc j).state = .running)
    (hsus : ∀ j, (t.proc j).state = .runnable ∨ (t.proc j).state = .sleeping →
      (t.proc j).ctx ≠ none)
    (hback : ∀ {c}, s.on c = none → s.lock = some c → t.lock = some c)
    (hfresh : ∀ {c p}, s.on c = some p → ((t.proc p).ctx ≠ none ↔ t.lock = some c)) :
    Scheduled t where
  on_cur := by
    rw [hon, hcur]
    exact h.on_cur
  on_running hc := (hrun _).mpr (h.on_running (hon ▸ hc))
  running_on hp := by
    rw [hon]
    exact h.running_on ((hrun _).mp hp)
  cur_inj := by
    rw [hcur]
    exact h.cur_inj
  back hc := by
    rw [hcur] at hc
    rw [hon]
    exact (h.back hc).imp_right fun hb => ⟨hb.1, hback hb.1 hb.2⟩
  fresh hc := hfresh (hon ▸ hc)
  suspended hp := hsus _ hp

/-- The lock stays with its owner. -/
theorem Scheduled.quiet (hcur : t.cur = s.cur) (hon : t.on = s.on) (hlock : t.lock = s.lock)
    (hrun : ∀ j, (t.proc j).state = .running ↔ (s.proc j).state = .running)
    (hctx : ∀ j, (s.proc j).state = .running → (t.proc j).ctx = (s.proc j).ctx)
    (hsus : ∀ j, (t.proc j).state = .runnable ∨ (t.proc j).state = .sleeping →
      (t.proc j).ctx ≠ none) : Scheduled t := by
  refine h.keep hcur hon hrun hsus (fun _ hl => hlock.trans hl) fun hc => ?_
  rw [hctx _ (h.on_running hc), hlock]
  exact h.fresh hc

/-- A process releases the lock, which it has had since it was switched to, or leaves
it free. -/
theorem Scheduled.release (hc : s.on c = some p) (hlock : s.lock = none ∨ s.lock = some c)
    (htcur : t.cur = s.cur) (hton : t.on = s.on) (htlock : t.lock = none)
    (hrun : ∀ j, (t.proc j).state = .running ↔ (s.proc j).state = .running)
    (hp : (t.proc p).ctx = none)
    (hctx : ∀ j ≠ p, (s.proc j).state = .running → (t.proc j).ctx = (s.proc j).ctx)
    (hsus : ∀ j, (t.proc j).state = .runnable ∨ (t.proc j).state = .sleeping →
      (t.proc j).ctx ≠ none) : Scheduled t := by
  refine h.keep htcur hton hrun hsus (by grind) fun {c' j} hj => ?_
  rw [htlock]
  by_cases hne : j = p
  · simp [hne, hp]
  · rw [hctx j hne (h.on_running hj)]
    have := h.fresh hj
    grind

variable [DecidableEq Cpu]

/-- A process calls `sched`: it has taken the lock, or has had it since it was
switched to. -/
theorem Scheduled.sched (hc : s.on c = some p) (hlock : s.lock = none ∨ s.lock = some c)
    (htcur : t.cur = s.cur) (hton : t.on = update s.on c none) (htlock : t.lock = some c)
    (hp : (t.proc p).state ≠ .running ∧ (t.proc p).ctx ≠ none)
    (hrun : ∀ j ≠ p, (t.proc j).state = .running ↔ (s.proc j).state = .running)
    (hctx : ∀ j ≠ p, (t.proc j).ctx = (s.proc j).ctx)
    (hsus : ∀ j ≠ p, (t.proc j).state = .runnable ∨ (t.proc j).state = .sleeping →
      (t.proc j).ctx ≠ none) :
    Scheduled t := by
  have hinj : ∀ {c' j}, s.on c' = some j → c' ≠ c → j ≠ p := by
    rintro c' j hc' hne rfl
    exact hne (h.on_inj hc' hc)
  have hton' : ∀ {c' j}, t.on c' = some j → s.on c' = some j ∧ c' ≠ c := by
    intro c' j hj
    rw [hton, update_apply] at hj
    grind
  refine ⟨?_, ?_, ?_, ?_, ?_, ?_, ?_⟩
  · intro c' j hj
    rw [htcur]
    exact h.on_cur (hton' hj).1
  · intro c' j hj
    obtain ⟨hj, hne⟩ := hton' hj
    exact (hrun j (hinj hj hne)).mpr (h.on_running hj)
  · intro j hj
    have hne : j ≠ p := fun e => hp.1 (e ▸ hj)
    obtain ⟨c', hc'⟩ := h.running_on ((hrun j hne).mp hj)
    refine ⟨c', ?_⟩
    rw [hton, update_of_ne, hc']
    rintro rfl
    rw [hc] at hc'
    exact hne (Option.some.inj hc').symm
  · rw [htcur]
    exact h.cur_inj
  · intro c' j hj
    rw [htcur] at hj
    rw [hton, htlock, update_apply]
    have := h.back hj
    grind
  · intro c' j hj
    obtain ⟨hj, hne⟩ := hton' hj
    rw [hctx j (hinj hj hne), htlock]
    have := h.fresh hj
    grind
  · intro j hj
    by_cases hne : j = p
    · exact hne ▸ hp.2
    · exact hsus j hne hj

/-- The scheduler switches to a process. -/
theorem Scheduled.pick (hon : s.on c = none) (hcur : s.cur c = none) (hl : s.lock = some c)
    (hp : (s.proc p).state = .runnable) :
    Scheduled { s.set p ((s.proc p).become .running) with
      cur := update s.cur c (some p)
      on := update s.on c (some p) } := by
  have hnot : ∀ {c'}, s.cur c' ≠ some p := by
    intro c' hc'
    rcases h.back hc' with h' | ⟨-, h'⟩
    · rw [h.on_running h'] at hp
      cases hp
    · rw [hl] at h'
      rw [← Option.some.inj h', hcur] at hc'
      cases hc'
  obtain ⟨h1, h2, h3, h4, h5, h6, h7⟩ := h
  refine ⟨?_, ?_, ?_, ?_, ?_, ?_, ?_⟩ <;>
    simp only [State.set, Proc.become, update_apply] <;> grind

omit [DecidableEq Cpu] in
/-- The scheduler takes or releases the lock. -/
theorem Scheduled.scan {l : Option Cpu} {sc : Cpu → ℕ} (hon : s.on c = none) (hcur : s.cur c = none)
    (hl : s.lock = none ∧ l = some c ∨ s.lock = some c ∧ (l = none ∨ l = some c)) :
    Scheduled { s with lock := l, scan := sc } := by
  refine ⟨h.on_cur, h.on_running, h.running_on, h.cur_inj, ?_, ?_, h.suspended⟩
  · intro c' j hj
    have := h.back hj
    grind
  · intro c' j hj
    have := h.fresh hj
    grind

/-- The scheduler clears `c->proc`. -/
theorem Scheduled.back_none {sc : Cpu → ℕ} (hon : s.on c = none) :
    Scheduled { s with cur := update s.cur c none, scan := sc } := by
  obtain ⟨h1, h2, h3, h4, h5, h6, h7⟩ := h
  refine ⟨?_, h2, h3, ?_, ?_, h6, h7⟩ <;> simp only [update_apply] <;> grind

end

/-- What is kept of a slot while `fork` works on it. -/
structure Proc.Kept (q q' : Proc) : Prop where
  state : q'.state = q.state
  parent : q'.parent = q.parent
  kstack : q'.kstack = q.kstack
  pgdir : q'.pgdir = q.pgdir
  ofile : q'.ofile = q.ofile
  cwd : q'.cwd = q.cwd
  pc : q'.pc = q.pc
  loop : q'.loop = q.loop
  ctx : q'.ctx = q.ctx

theorem Proc.Kept.refl (q : Proc) : q.Kept q := ⟨rfl, rfl, rfl, rfl, rfl, rfl, rfl, rfl, rfl⟩

theorem Proc.Bare.kept (h : q.Bare) (hk : q.Kept q') : q'.Bare :=
  ⟨hk.parent.trans h.parent, fun fd => (congrFun hk.ofile fd).trans (h.ofile fd),
    hk.cwd.trans h.cwd⟩

theorem Proc.Fresh.kept (h : q.Fresh) (hk : q.Kept q') : q'.Fresh :=
  ⟨hk.pc.trans h.pc, hk.loop.trans h.loop, hk.ctx.trans h.ctx⟩

theorem ForkStage.Ok.kept {p : Slot} {st : ForkStage} (h : st.Ok p q) (hk : q.Kept q') :
    st.Ok p q' := by
  cases st with
  | alloced | freed => exact ⟨hk.kstack.trans h.1, h.2.kept hk⟩
  | stacked => exact ⟨hk.kstack.trans h.1, h.2.1.kept hk, h.2.2.kept hk⟩
  | copied =>
    exact ⟨hk.kstack.trans h.1, hk.pgdir.trans h.2.1, h.2.2.1.kept hk, h.2.2.2.kept hk⟩
  | filled =>
    exact ⟨hk.kstack.trans h.1, hk.pgdir.trans h.2.1, h.2.2.1.kept hk,
      hk.parent.trans h.2.2.2⟩

/-- No `fork` begins, and the slots of those that go on are kept. -/
theorem Forking.keep {s t : State Cpu} (h : Forking s)
    (hpc : ∀ p st i, (t.proc p).pc = .fork st i → (s.proc p).pc = .fork st i)
    (hkept : ∀ p st i, (t.proc p).pc = .fork st i → (s.proc i).state = .embryo →
      (s.proc i).Kept (t.proc i)) : Forking t where
  embryo hp := by
    have he := h.embryo (hpc _ _ _ hp)
    exact (hkept _ _ _ hp he).state.trans he
  ok hp := (h.ok (hpc _ _ _ hp)).kept (hkept _ _ _ hp (h.embryo (hpc _ _ _ hp)))
  inj hp hp' := h.inj (hpc _ _ _ hp) (hpc _ _ _ hp')

theorem Woken.kept (h : Woken q q') (hq : q.state = .embryo) : q.Kept q' := by
  rcases h with rfl | ⟨hs, -⟩
  · exact Proc.Kept.refl _
  · rw [hq] at hs
    cases hs

variable [DecidableEq Cpu] {q np q' np' : Proc} {p : Slot} {s t : State Cpu} {st st' : ForkStage}
  {a : Act Cpu}

theorem Scheduled.step (h : Scheduled s) (hf : Forking s) (hs : Step s a t) : Scheduled t := by
  have hsus := @h.suspended
  cases hs with
  | same => exact h
  | scan c l sc hon hcur hl => exact h.scan hon hcur hl
  | pick c p hon hcur hl hp => exact h.pick hon hcur hl hp
  | back c sc hon hl => exact h.back_none hon
  | own c p q lk ht hown hw =>
    refine h.quiet rfl rfl rfl ?_ ?_ ?_ <;> intro j <;> have := hown.frame <;>
      have := hw j <;> dsimp only <;> grind
  | wakeup q hw =>
    refine h.quiet rfl rfl rfl ?_ ?_ ?_ <;> intro j <;> have := hw j <;> dsimp only <;> grind
  | resume c p q hon hl hq =>
    have hrun := h.on_running hon
    cases hq <;> refine h.release hon (.inr hl) rfl rfl rfl ?_ ?_ ?_ ?_ <;> grind
  | yield c p ht hl =>
    obtain ⟨hon, hrun, hctx⟩ := h.thread ht
    refine h.sched hon (.inl hl) rfl rfl rfl ?_ ?_ ?_ ?_ <;> grind
  | sleep c p st l lk ht hl hloop hr =>
    obtain ⟨hon, hrun, hctx⟩ := h.thread ht
    refine h.sched hon (.inl hl) rfl rfl rfl ?_ ?_ ?_ ?_ <;> grind
  | alloc c p i ht hl hp hi =>
    refine h.quiet rfl rfl rfl ?_ ?_ ?_ <;> grind
  | build c p i st st' q ht hp hq =>
    have hi := hf.embryo hp
    have hq' := hq.state
    refine h.quiet rfl rfl rfl ?_ ?_ ?_ <;> grind
  | unalloc c p i ht hp =>
    have hi := hf.embryo hp
    refine h.quiet rfl rfl rfl ?_ ?_ ?_ <;> grind
  | start c p i ht hl hp =>
    have hi := hf.embryo hp
    have hfresh := (hf.ok hp).2.2.1.ctx
    refine h.quiet rfl rfl rfl ?_ ?_ ?_ <;> grind
  | exit c p q ht hl hp hq hw _ _ =>
    obtain ⟨hon, hrun, hctx⟩ := h.thread ht
    refine h.sched hon (.inl hl) rfl rfl rfl ?_ ?_ ?_ ?_ <;> grind
  | reap c p i hp hi hz =>
    have hrun := h.on_running hp.1
    have hne : i ≠ p := by grind
    refine h.release hp.1 hp.lock rfl rfl rfl ?_ ?_ ?_ ?_ <;> grind
  | waitFail c p hp _ =>
    have hrun := h.on_running hp.1
    refine h.release hp.1 hp.lock rfl rfl rfl ?_ ?_ ?_ ?_ <;> grind
  | waitSleep c p hp _ _ =>
    refine h.sched hp.1 hp.lock rfl rfl rfl ?_ ?_ ?_ ?_ <;> grind
  | kill c p pid i ha ht hl hi =>
    refine h.quiet rfl rfl rfl ?_ ?_ ?_ <;> grind

section

omit [DecidableEq Cpu]

/-- One slot changes, and it is not one that `fork` works on. -/
theorem Forking.set (h : Forking s) (ht : t.proc = update s.proc p q)
    (hp : (s.proc p).state ≠ .embryo) (hq : q.pc = (s.proc p).pc) : Forking t := by
  refine h.keep ?_ ?_
  · intro p' st i hp'
    rw [ht, update_apply] at hp'
    split at hp'
    next e =>
      rwa [e, ← hq]
    next => exact hp'
  · intro p' st i _ hi
    have hne : i ≠ p := by
      rintro rfl
      exact hp hi
    rw [ht, update_of_ne hne]
    exact Proc.Kept.refl _

/-- A `fork` is over. -/
theorem Forking.done {i : Slot} (h : Forking s) (hp : (s.proc p).pc = .fork st i)
    (hrun : (s.proc p).state ≠ .embryo)
    (ht : t.proc = update (update s.proc i q) p ((s.proc p).goto .user))
    (hq : q.pc = (s.proc i).pc) : Forking t := by
  have hpc : ∀ p' st' j, (t.proc p').pc = .fork st' j → (s.proc p').pc = .fork st' j ∧ p' ≠ p := by
    intro p' st' j hp'
    rw [ht, update_apply] at hp'
    split at hp'
    next => cases hp'
    next hne =>
      rw [update_apply] at hp'
      split at hp'
      next e =>
        rw [e, ← hq]
        exact ⟨hp', e ▸ hne⟩
      next => exact ⟨hp', hne⟩
  refine h.keep (fun p' st' j hp' => (hpc p' st' j hp').1) ?_
  intro p' st' j hp' hj
  obtain ⟨hp', hne⟩ := hpc p' st' j hp'
  have hji : j ≠ i := by
    rintro rfl
    exact hne (h.inj hp' hp)
  have hjp : j ≠ p := by
    rintro rfl
    exact hrun hj
  rw [ht, update_of_ne hjp, update_of_ne hji]
  exact Proc.Kept.refl _

/-- All `fork`s but that of `p` go on as they were. -/
theorem Forking.of (h : Forking s)
    (hold : ∀ {p' st' j}, (t.proc p').pc = .fork st' j → p' ≠ p →
      (s.proc p').pc = .fork st' j ∧ (s.proc j).Kept (t.proc j))
    (hnew : ∀ {st' j}, (t.proc p).pc = .fork st' j → (t.proc j).state = .embryo ∧
      st'.Ok p (t.proc j) ∧ ∀ p' st'', p' ≠ p → (s.proc p').pc ≠ .fork st'' j) :
    Forking t where
  embryo {p' st' j} hp' := by
    by_cases hne : p' = p
    · subst hne
      exact (hnew hp').1
    · exact (hold hp' hne).2.state.trans (h.embryo (hold hp' hne).1)
  ok {p' st' j} hp' := by
    by_cases hne : p' = p
    · subst hne
      exact (hnew hp').2.1
    · exact (h.ok (hold hp' hne).1).kept (hold hp' hne).2
  inj {p' p'' st' st'' j} hp' hp'' := by
    by_cases hne : p' = p <;> by_cases hne' : p'' = p
    · rw [hne, hne']
    · subst hne
      exact absurd (hold hp'' hne').1 ((hnew hp').2.2 _ _ hne')
    · subst hne'
      exact absurd (hold hp' hne).1 ((hnew hp'').2.2 _ _ hne)
    · exact h.inj (hold hp' hne).1 (hold hp'' hne').1

/-- A `fork` begins or goes on. -/
theorem Forking.advance {i : Slot} (h : Forking s) (hrun : (s.proc p).state = .running)
    (hip : i ≠ p) (ht : t.proc = update (update s.proc i np) p ((s.proc p).goto (.fork st i)))
    (hnp : np.state = .embryo) (hpc : np.pc = (s.proc i).pc ∨ np.pc = .user) (hok : st.Ok p np)
    (hother : ∀ p' st', p' ≠ p → (s.proc p').pc ≠ .fork st' i) :
    Forking t := by
  refine h.of (p := p) (fun {p' st' j} hp' hne => ?_) fun {st' j} hp' => ?_
  · have hs : (s.proc p').pc = .fork st' j := by
      rw [ht, update_of_ne hne, update_apply] at hp'
      grind
    have hji : j ≠ i := by
      rintro rfl
      exact hother p' st' hne hs
    have hjp : j ≠ p := by
      have := h.embryo hs
      grind
    rw [ht, update_of_ne hjp, update_of_ne hji]
    exact ⟨hs, Proc.Kept.refl _⟩
  · rw [ht, update_self] at hp'
    cases hp'
    rw [ht, update_of_ne hip, update_self]
    exact ⟨hnp, hok, hother⟩

end

/-- `fork` brings the slot of the child from one stage to the next. -/
theorem Build.ok (h : Build p q np st st' np') (hok : st.Ok p np) : st'.Ok p np' := by
  cases h with
  | stack => exact ⟨rfl, ⟨rfl, rfl, rfl⟩, ⟨hok.2.parent, hok.2.ofile, hok.2.cwd⟩⟩
  | noStack => exact ⟨rfl, ⟨hok.2.parent, hok.2.ofile, hok.2.cwd⟩⟩
  | copy =>
    obtain ⟨hk, hf, hb⟩ := hok
    exact ⟨hk, rfl, ⟨hf.pc, hf.loop, hf.ctx⟩, ⟨hb.parent, hb.ofile, hb.cwd⟩⟩
  | noCopy =>
    obtain ⟨-, -, hb⟩ := hok
    exact ⟨rfl, ⟨hb.parent, hb.ofile, hb.cwd⟩⟩
  | fill =>
    obtain ⟨hk, hpg, hf, -⟩ := hok
    exact ⟨hk, hpg, ⟨hf.pc, hf.loop, hf.ctx⟩, rfl⟩

theorem Build.pc (h : Build p q np st st' np') :
    np'.pc = np.pc ∨ np'.pc = .user := by
  cases h with
  | stack => exact .inr rfl
  | noStack | copy | noCopy | fill => exact .inl rfl

theorem Forking.step (h : Forking s) (hr : Scheduled s) (hfit : ∀ i, (s.proc i).Fit)
    (hs : Step s a t) : Forking t := by
  cases hs with
  | same => exact h
  | scan | back => exact h.keep (fun _ _ _ => id) fun _ _ _ _ _ => Proc.Kept.refl _
  | pick c p hon hcur hl hp => exact h.set rfl (by rw [hp]; simp) rfl
  | own c p q lk ht hown hw =>
    obtain ⟨-, hrun, -⟩ := hr.thread ht
    refine h.keep ?_ ?_
    · intro p' st i hp'
      by_cases hne : p' = p
      · subst hne
        exact hown.pc_fork hp'
      · rwa [← (hw p' hne).frame.2.2.2.2.2.2.2.2.1]
    · intro p' st i _ hi
      exact (hw i (by grind)).kept hi
  | wakeup q hw =>
    refine h.keep ?_ fun p' st i _ hi => (hw i).kept hi
    intro p' st i hp'
    rwa [← (hw p').frame.2.2.2.2.2.2.2.2.1]
  | resume c p q hon hl hq =>
    refine h.set rfl (by rw [hr.on_running hon]; simp) ?_
    cases hq <;> rfl
  | yield c p ht hl => exact h.set rfl (by rw [(hr.thread ht).2.1]; simp) rfl
  | sleep c p st l lk ht hl hloop hready =>
    exact h.set rfl (by rw [(hr.thread ht).2.1]; simp) rfl
  | alloc c p i ht hl hp hi =>
    obtain ⟨-, hrun, -⟩ := hr.thread ht
    have hip : i ≠ p := by grind
    obtain ⟨hk, hb⟩ := (hfit i).unused hi
    refine h.advance hrun hip rfl rfl (.inl rfl)
      ⟨hk, ⟨hb.parent, hb.ofile, hb.cwd⟩⟩ ?_
    intro p' st' _ hp'
    rw [h.embryo hp'] at hi
    cases hi
  | build c p i st st' q ht hp hq =>
    obtain ⟨-, hrun, -⟩ := hr.thread ht
    have hi := h.embryo hp
    have hip : i ≠ p := by grind
    exact h.advance hrun hip rfl (hq.state.trans hi) hq.pc (hq.ok (h.ok hp))
      fun p' st' hne hp' => hne (h.inj hp' hp)
  | unalloc c p i ht hp => exact h.done hp (by rw [(hr.thread ht).2.1]; simp) rfl rfl
  | start c p i ht hl hp => exact h.done hp (by rw [(hr.thread ht).2.1]; simp) rfl rfl
  | exit c p q ht hl hp hq hw _ _ =>
    obtain ⟨-, hrun, -⟩ := hr.thread ht
    have hpc : ∀ p' st i, (q p').pc = .fork st i → (s.proc p').pc = .fork st i ∧ p' ≠ p := by
      intro p' st i hp'
      by_cases hne : p' = p
      · rw [hne, hq, Proc.switch, Proc.become, pass_pc, hp] at hp'
        cases hp'
      · rw [(hw p' hne).frame.2.2.2.2.2.2.2.2.1, pass_pc] at hp'
        exact ⟨hp', hne⟩
    refine h.keep (fun p' st i hp' => (hpc p' st i hp').1) ?_
    intro p' st i hp' hi
    obtain ⟨hp', hne⟩ := hpc p' st i hp'
    have hip : i ≠ p := by grind
    -- The child has no parent yet, or its parent is the process that forks.
    have hpass : (s.proc i).pass p = s.proc i := by
      have hok := h.ok hp'
      rw [Proc.pass, if_neg]
      cases st with
      | alloced | freed => simp [hok.2.parent]
      | stacked => simp [hok.2.2.parent]
      | copied => simp [hok.2.2.2.parent]
      | filled => simp [hok.2.2.2, hne]
    have := hw i hip
    rw [hpass] at this
    exact this.kept hi
  | reap c p i hp hi hz =>
    have hrun := hr.on_running hp.1
    have hfirst : Forking (s.set p (s.proc p).unwait) := h.set rfl (by rw [hrun]; simp) rfl
    have hne : i ≠ p := by grind
    refine hfirst.set rfl ?_ rfl
    rw [set_proc_of_ne _ _ hne, hz]
    simp
  | waitFail c p hp _ => exact h.set rfl (by rw [hr.on_running hp.1]; simp) rfl
  | waitSleep c p hp _ _ => exact h.set rfl (by rw [hr.on_running hp.1]; simp) rfl
  | kill c p pid i ha ht hl hi =>
    refine h.keep ?_ ?_ <;> simp only [State.set, update_apply, Proc.kill]
    · grind
    · intro p' st j _ hj
      split
      next e =>
        subst e
        exact ⟨by simp [hj], rfl, rfl, rfl, rfl, rfl, rfl, rfl, rfl⟩
      next => exact Proc.Kept.refl _

/-! ### What belongs to a process -/

theorem Woken.fit (h : Woken q q') (hq : q.Fit) : q'.Fit := by
  rcases h with rfl | ⟨hs, rfl⟩
  · exact hq
  · exact ⟨by simp, fun _ => hq.live (by simp [Status.Live, hs]), by simp, hq.exiting, hq.leaving⟩

theorem Own.fit (h : Own p q q') (hrun : q.state = .running) (hq : q.Fit) : q'.Fit := by
  have hlive := hq.live (by simp [Status.Live, hrun])
  cases h with
  | fault | loop =>
    exact ⟨by simp [hrun], fun _ => hlive, by simp [hrun], hq.exiting, hq.leaving⟩
  | ofile f hc =>
    exact ⟨by simp [hrun], fun _ => hlive, by simp [hrun], by simp [hc.1], by simp [hc.1]⟩
  | exit hc hp =>
    refine ⟨by simp [Proc.goto, hrun], fun _ => hlive, by simp [Proc.goto, hrun], ?_,
      by simp [Proc.goto]⟩
    intro n hn fd hfd
    cases hn
    exact absurd hfd (Nat.not_lt_zero _)
  | close fd hfd hpc _ =>
    refine ⟨by simp [hrun], fun _ => hlive, by simp [hrun], ?_, by simp⟩
    intro n hn fd' hfd'
    cases hn
    dsimp only
    rw [update_apply]
    split
    next => rfl
    next hne =>
      refine hq.exiting hpc fd' (lt_of_le_of_ne (Nat.lt_succ_iff.mp hfd') fun e => hne ?_)
      exact Fin.ext e
  | drop fd hfd hpc _ =>
    refine ⟨by simp [hrun], fun _ => hlive, by simp [hrun], by simp, ?_⟩
    intro _
    exact ⟨fun fd' => hq.exiting hpc fd' (lt_of_lt_of_le fd'.isLt (not_lt.mp hfd)), rfl⟩

/-- A process that gives the CPU up, gets it, or goes on. -/
theorem Proc.Fit.move (h : q.Fit) (hq : q.state.Live) (hq' : q'.state.Live)
    (hk : q'.kstack = q.kstack) (hpg : q'.pgdir = q.pgdir) (hf : q'.ofile = q.ofile)
    (hc : q'.cwd = q.cwd) (hpc : q'.pc = q.pc ∨ ∀ n, q'.pc ≠ .exiting n ∧ q'.pc ≠ .leaving) :
    q'.Fit := by
  have hne : q'.state ≠ .unused ∧ q'.state ≠ .zombie := by
    rcases hq' with e | e | e <;> rw [e] <;> simp
  refine ⟨fun e => absurd e hne.1, fun _ => ?_, fun e => absurd e hne.2, ?_, ?_⟩
  · rw [hk, hpg]
    exact h.live (.inl hq)
  · intro n hn
    rcases hpc with e | e
    · rw [hf]
      exact h.exiting (e ▸ hn)
    · exact absurd hn (e n).1
  · intro hn
    rcases hpc with e | e
    · rw [hf, hc]
      exact h.leaving (e ▸ hn)
    · exact absurd hn (e 0).2

/-- A slot that `fork` works on. -/
theorem Proc.Fit.embryo (h : q.Fit) (hq' : q'.state = .embryo)
    (hpc : q'.pc = .user ∨ q'.pc = q.pc ∧ q'.ofile = q.ofile ∧ q'.cwd = q.cwd) : q'.Fit := by
  refine ⟨by simp [hq'], by simp [Status.Live, hq'], by simp [hq'], ?_, ?_⟩
  · intro n hn
    rcases hpc with e | ⟨e, hf, -⟩
    · rw [e] at hn
      cases hn
    · rw [hf]
      exact h.exiting (e ▸ hn)
  · intro hn
    rcases hpc with e | ⟨e, hf, hc⟩
    · rw [e] at hn
      cases hn
    · rw [hf, hc]
      exact h.leaving (e ▸ hn)

theorem Build.fit (h : Build p q np st st' np') (hnp : np.Fit) (he : np.state = .embryo)
    (hok : st.Ok p np) : np'.Fit := by
  refine hnp.embryo (h.state.trans he) ?_
  cases h with
  | stack => exact .inl rfl
  | noStack | copy | noCopy => exact .inr ⟨rfl, rfl, rfl⟩
  | fill => exact .inl hok.2.2.1.pc

theorem Proc.Fit.pass (h : q.Fit) (p : Slot) : (q.pass p).Fit := by
  rw [Proc.pass]
  split
  next hp =>
    refine ⟨?_, h.live, h.zombie, h.exiting, h.leaving⟩
    intro hu
    rw [(h.unused hu).2.parent] at hp
    cases hp
  next => exact h

theorem Proc.Fit.kill (h : q.Fit) : q.kill.Fit := by
  have hstate : q.kill.state = q.state ∨ q.state = .sleeping ∧ q.kill.state = .runnable := by
    rw [Proc.kill]
    dsimp only
    split
    next hs => exact .inr ⟨hs, rfl⟩
    next => exact .inl rfl
  rcases hstate with e | ⟨hs, e⟩
  · refine ⟨?_, ?_, ?_, h.exiting, h.leaving⟩ <;> rw [e]
    · exact fun hu => ⟨(h.unused hu).1, ⟨(h.unused hu).2.parent, (h.unused hu).2.ofile,
        (h.unused hu).2.cwd⟩⟩
    · exact h.live
    · exact h.zombie
  · exact ⟨by simp [e], fun _ => h.live (by simp [Status.Live, hs]), by simp [e], h.exiting,
      h.leaving⟩

theorem Proc.Fit.step (h : ∀ i, (s.proc i).Fit) (hr : Scheduled s) (hf : Forking s)
    (hs : Step s a t) : ∀ i, (t.proc i).Fit := by
  have hset : ∀ {p} {q : Proc}, q.Fit → ∀ i, (update s.proc p q i).Fit := by
    intro p q hq
    refine forall_update_iff s.proc (fun _ => Proc.Fit) |>.mpr ⟨hq, fun i _ => h i⟩
  have hset₂ : ∀ {p i} {q np : Proc}, q.Fit → np.Fit →
      ∀ j, (update (update s.proc i np) p q j).Fit := by
    intro p i q np hq hnp
    refine forall_update_iff _ (fun _ => Proc.Fit) |>.mpr ⟨hq, fun j _ => hset hnp j⟩
  have hlive : Status.running.Live := .inr (.inr rfl)
  have hgoto : ∀ {p pc}, (s.proc p).state = .running → (∀ n, pc ≠ .exiting n ∧ pc ≠ .leaving) →
      ((s.proc p).goto pc).Fit := by
    intro p pc hrun hpc
    exact (h p).move (hrun ▸ hlive) (hrun ▸ hlive) rfl rfl rfl rfl (.inr hpc)
  cases hs with
  | same | scan | back => exact h
  | pick c p hon hcur hl hp =>
    exact hset ((h p).move (.inl hp) hlive rfl rfl rfl rfl (.inl rfl))
  | own c p q lk ht hown hw =>
    intro j
    by_cases hne : j = p
    · subst hne
      exact hown.fit (hr.thread ht).2.1 (h j)
    · exact (hw j hne).fit (h j)
  | wakeup q hw => exact fun j => (hw j).fit (h j)
  | resume c p q hon hl hq =>
    have hrun := hr.on_running hon
    refine hset ((h p).move (hrun ▸ hlive) ?_ ?_ ?_ ?_ ?_ ?_) <;> cases hq <;>
      first | rfl | exact hrun ▸ hlive | exact .inl rfl
  | yield c p ht hl =>
    exact hset ((h p).move ((hr.thread ht).2.1 ▸ hlive) (.inl rfl) rfl rfl rfl rfl (.inl rfl))
  | sleep c p st l lk ht hl hloop hready =>
    exact hset ((h p).move ((hr.thread ht).2.1 ▸ hlive) (.inr (.inl rfl)) rfl rfl rfl rfl
      (.inl rfl))
  | alloc c p i ht hl hp hi =>
    exact hset₂ (hgoto (hr.thread ht).2.1 (by simp)) ((h i).embryo rfl (.inr ⟨rfl, rfl, rfl⟩))
  | build c p i st st' q ht hp hq =>
    exact hset₂ (hgoto (hr.thread ht).2.1 (by simp)) (hq.fit (h i) (hf.embryo hp) (hf.ok hp))
  | unalloc c p i ht hp =>
    obtain ⟨hk, hb⟩ := hf.ok hp
    refine hset₂ (hgoto (hr.thread ht).2.1 (by simp)) ?_
    exact ⟨fun _ => ⟨hk, ⟨hb.parent, hb.ofile, hb.cwd⟩⟩, by simp [Proc.become, Status.Live],
      by simp [Proc.become], (h i).exiting, (h i).leaving⟩
  | start c p i ht hl hp =>
    obtain ⟨hk, hpg, hfr, -⟩ := hf.ok hp
    refine hset₂ (hgoto (hr.thread ht).2.1 (by simp)) ?_
    exact ⟨by simp [Proc.become], fun _ => ⟨hk, hpg⟩, by simp [Proc.become],
      by simp [Proc.become, hfr.pc], by simp [Proc.become, hfr.pc]⟩
  | exit c p q ht hl hp hq hw _ _ =>
    intro j
    by_cases hne : j = p
    · subst hne
      have hpass := (h j).pass j
      have hpc : ((s.proc j).pass j).pc = .leaving := (pass_pc j _).trans hp
      have hrun : ((s.proc j).pass j).state = .running := (pass_state j _).trans (hr.thread ht).2.1
      dsimp only
      rw [hq]
      exact ⟨by simp [Proc.switch, Proc.become], fun _ => hpass.live (.inl (hrun ▸ hlive)),
        fun _ => hpc, by simp [Proc.switch, Proc.become, hpc], hpass.leaving⟩
    · exact (hw j hne).fit ((h j).pass p)
  | reap c p i hp hi hz =>
    have hrun := hr.on_running hp.1
    have hne : i ≠ p := by grind
    have hl := (h i).leaving ((h i).zombie hz)
    have hun : (s.proc p).unwait.Fit :=
      (h p).move (hrun ▸ hlive) (hrun ▸ hlive) rfl rfl rfl rfl (.inl rfl)
    rw [set_proc_of_ne _ _ hne]
    refine forall_update_iff _ (fun _ => Proc.Fit) |>.mpr ⟨?_, fun j _ => ?_⟩
    · exact ⟨fun _ => ⟨rfl, ⟨rfl, hl.1, hl.2⟩⟩, by simp [Proc.reap, Status.Live],
        by simp [Proc.reap], (h i).exiting, (h i).leaving⟩
    · exact hset hun j
  | waitFail c p hp _ =>
    have hrun := hr.on_running hp.1
    exact hset ((h p).move (hrun ▸ hlive) (hrun ▸ hlive) rfl rfl rfl rfl (.inl rfl))
  | waitSleep c p hp _ _ =>
    exact hset ((h p).move (hr.on_running hp.1 ▸ hlive) (.inr (.inl rfl)) rfl rfl rfl rfl
      (.inl rfl))
  | kill c p pid i ha ht hl hi =>
    exact hset (h i).kill

end Xv6.Ptable
