import Xv6.Ptable.WellFormed

/-!
# Every exited child is waited for once

`wait` returns a child that has exited, and it clears its slot in the same critical
section; so a child is returned once. That is stated with the numbers of the slots
and not with the pids (`Xv6.Ptable.Once`), since a pid may come again after `2 ^ 32`
others; as long as there are no more than that many, the pids do as well.

`exit` wakes the parent up before the process becomes a zombie, and the first
process before it gets children that are zombies already. All of this happens in one
critical section, so that the parent does not look at the table in between:
whenever the lock is free, nobody is asleep in `wait` who has a child to wait for
(`Xv6.Ptable.NobodyOversleeps`).
-/

namespace Xv6.Ptable

open Lib List

variable {Cpu : Type} {s t : State Cpu}

/-! ### Nobody sleeps through an exit -/

/-- A process that is asleep in `wait` sleeps on itself and has no child to wait for. -/
def NobodyOversleeps (s : State Cpu) : Prop :=
  ∀ p, (s.proc p).Sleeper → (s.proc p).chan = some (.proc p) ∧
    ∀ j, (s.proc j).parent = some p → (s.proc j).state ≠ .zombie

/-- The slot that changes does not become a zombie. -/
theorem NobodyOversleeps.others {i : Slot} (h : NobodyOversleeps s) (ho : Others s t i)
    (hi : (t.proc i).state ≠ .zombie) : NobodyOversleeps t := by
  intro p hp
  obtain ⟨hp, hc⟩ := ho.asleep p hp
  refine ⟨hc.trans (h p hp).1, fun j hj hjz => ?_⟩
  have hst := ho.steady j fun e => hi (e ▸ hjz)
  have hjz := hst.zombie.mp hjz
  exact (h p hp).2 j (hst.parent (.inr hjz) ▸ hj) hjz

theorem NobodyOversleeps.life (h : NobodyOversleeps s) (hfam : Family s) (hs : Life s t) :
    NobodyOversleeps t := by
  cases hs with
  | steady _ _ hq _ hsleep =>
    intro p hp
    have hp : (t.proc p).chan = some (.proc p) ∧
        ∀ j, (s.proc j).parent = some p → (s.proc j).state ≠ .zombie := by
      rcases hsleep p hp with ⟨hp, hc⟩ | hp
      · exact ⟨hc.trans (h p hp).1, (h p hp).2⟩
      · exact hp
    refine ⟨hp.1, fun j hj hjz => ?_⟩
    have hjz := (hq j).zombie.mp hjz
    rw [(hq j).parent (.inr hjz)] at hj
    exact hp.2 j hj hjz
  | alloc i hi hi' _ _ _ _ _ ho => exact h.others ho (by simp [hi'])
  | start p i hi hi' _ _ _ _ _ _ ho => exact h.others ho (by simp [hi'])
  | reap p i hi _ hi' _ _ ho => exact h.others ho (by simp [hi'])
  | exit p hp hpc hp' _ _ _ _ hq hpar _ hsleep htold htold' =>
    intro j hj
    obtain ⟨hjs, hc⟩ := hsleep j hj
    have hchan : (t.proc j).chan = some (.proc j) := hc.trans (h j hjs).1
    refine ⟨hchan, fun k hk hkz => ?_⟩
    by_cases hkp : k = p
    · -- The process that exits has woken its parent up.
      subst hkp
      have hne : k ≠ initproc := fun e => hfam.stays (e ▸ hpc)
      obtain ⟨p', hp', -, hself⟩ := hfam.parent (by grind) hne
      rw [hpar, Proc.pass, if_neg (by rw [hp']; simpa using hself), hp'] at hk
      cases hk
      exact htold _ hp' hj.1 hchan
    · have hkz' := (hq k hkp).zombie.mp hkz
      rw [pass_state] at hkz'
      rw [(hq k hkp).parent (by grind), Proc.pass] at hk
      split at hk
      next hkp' =>
        -- The first process gets a child that is a zombie.
        cases hk
        exact htold' k hkp' hkz' hj.1 hchan
      next => exact (h j hjs).2 k hk hkz'

/-! ### At most once -/

/-- `wait` has returned the child with this number. -/
def Event.reaps (b : ℕ) : Event → Bool
  | .waited _ _ b' _ => b' = b
  | _ => false

theorem Event.reaps_eq {b : ℕ} {e : Event} (h : e.reaps b = true) :
    ∃ p i pid, e = .waited p i b pid := by
  cases e with
  | waited p i b' pid =>
    obtain rfl : b' = b := by simpa [Event.reaps] using h
    exact ⟨p, i, pid, rfl⟩
  | forked | exited | waitFailed => cases h

/-- `wait` has returned this pid. -/
def Event.returns (pid : ℤ) : Event → Bool
  | .waited _ _ _ pid' => pid' = pid
  | _ => false

theorem Event.returns_eq {pid : ℤ} {e : Event} (h : e.returns pid = true) :
    ∃ p i b, e = .waited p i b pid := by
  cases e with
  | waited p i b pid' =>
    obtain rfl : pid' = pid := by simpa [Event.returns] using h
    exact ⟨p, i, b, rfl⟩
  | forked | exited | waitFailed => cases h

/-- What has happened to the children. -/
structure Once (s : State Cpu) : Prop where
  exited : ∀ {i}, (s.proc i).state = .zombie → .exited (s.proc i).birth ∈ s.hist
  forked : ∀ {i}, (s.proc i).Grown → i ≠ initproc →
    ∃ p, .forked p i (s.proc i).birth (s.proc i).pid ∈ s.hist
  /-- A number that `wait` has returned is not in use. -/
  gone : ∀ {p i b pid}, .waited p i b pid ∈ s.hist → b < s.handed ∧
    (∀ j, (s.proc j).state ≠ .unused → (s.proc j).birth ≠ b)
  pid : ∀ {p i} {b : ℕ} {pid}, .waited p i b pid ∈ s.hist → pid = ((b : ℤ) + 1).bmod (2 ^ 32)
  once : ∀ b, s.hist.countP (Event.reaps b) ≤ 1

theorem Once.life (h : Once s) (hb : Births s) (hs : Life s t) : Once t := by
  have hle : s.handed ≤ t.handed := by
    rcases hs.counts with ⟨e, -⟩ | ⟨e, -⟩ <;> omega
  have hsub : ∀ {e}, e ∈ s.hist → e ∈ t.hist := by
    intro e he
    rcases hs.hist with e' | ⟨_, e', -⟩ <;> rw [e']
    · exact he
    · exact mem_append_left _ he
  have hwaited : ∀ {p i b pid}, .waited p i b pid ∈ t.hist → .waited p i b pid ∈ s.hist ∨
      (t.proc i).state = .unused ∧ (s.proc i).state ≠ .unused ∧ (s.proc i).birth = b ∧
        (s.proc i).pid = pid := by
    intro p i b pid hw
    rcases hs.hist with e | ⟨e', e, hnew⟩ <;> rw [e] at hw
    · exact .inl hw
    · rcases mem_append.mp hw with hw | hw
      · exact .inl hw
      · obtain ⟨hu, -, hz, hbp⟩ := hnew (mem_singleton.mp hw).symm
        exact .inr ⟨hu, by simp [hz], hbp⟩
  refine ⟨?_, ?_, ?_, ?_, ?_⟩
  · intro i hi
    rcases hs.carried (j := i) (by simp [hi]) with ⟨-, hb, -, hz, -⟩ | ⟨he⟩
    · rw [hb]
      exact (hz hi).elim (fun hz => hsub (h.exited hz)) id
    · cases hi.symm.trans he
  · intro i hi hne
    rcases hs.carried (j := i) (by grind) with ⟨-, hb, hp, -, hg⟩ | ⟨he⟩
    · rw [hb, hp]
      rcases hg hi with hg | hg
      · obtain ⟨p, hp⟩ := h.forked hg hne
        exact ⟨p, hsub hp⟩
      · exact hg
    · grind
  · intro p i b pid hw
    rcases hwaited hw with hw | ⟨hu', hu, rfl, -⟩
    · obtain ⟨hlt, hgone⟩ := h.gone hw
      refine ⟨by omega, fun j hj => ?_⟩
      rcases hs.carried hj with ⟨hju, hjb⟩ | ⟨-, hjb⟩
      · rw [hjb]
        exact hgone j hju
      · omega
    · have hlt := hb.lt hu
      refine ⟨by omega, fun j hj e => ?_⟩
      rcases hs.carried hj with ⟨hju, hjb⟩ | ⟨-, hjb⟩
      · obtain rfl := hb.inj hju hu (hjb.symm.trans e)
        exact hj hu'
      · omega
  · intro p i b pid hw
    rcases hwaited hw with hw | ⟨-, hu, rfl, rfl⟩
    · exact h.pid hw
    · exact hb.pid hu
  · intro b
    rcases hs.hist with e | ⟨e', e, hnew⟩ <;> rw [e]
    · exact h.once b
    · rw [countP_append, countP_singleton]
      split
      next hr =>
        -- The number was in use, so it has not been returned before.
        have hzero : s.hist.countP (Event.reaps b) = 0 := by
          rw [countP_eq_zero]
          intro e he hr'
          obtain ⟨p, i, pid, rfl⟩ := Event.reaps_eq hr
          obtain ⟨p', i', pid', rfl⟩ := Event.reaps_eq hr'
          obtain ⟨-, -, hz, hbi, -⟩ := hnew rfl
          exact (h.gone he).2 i (by simp [hz]) hbi
        omega
      next => exact h.once b

/-- As long as there are no more than `2 ^ 32` processes, a pid stands for one of
them. -/
theorem Once.returns (h : Once s) (hh : s.handed ≤ 2 ^ 32) (pid : ℤ) :
    s.hist.countP (Event.returns pid) ≤ 1 := by
  by_cases hex : ∃ p i b, .waited p i b pid ∈ s.hist
  · obtain ⟨p, i, b, hb⟩ := hex
    refine le_trans (countP_mono_left ?_) (h.once b)
    intro e he hr
    obtain ⟨p', i', b', rfl⟩ := Event.returns_eq hr
    have hlt := (h.gone hb).1
    have hlt' := (h.gone he).1
    have heq := (h.pid hb).symm.trans (h.pid he)
    have hmod : ((b : ℤ) + 1) % (2 ^ 32 : ℕ) = ((b' : ℤ) + 1) % (2 ^ 32 : ℕ) := by
      rw [← Int.bmod_emod, heq, Int.bmod_emod]
    simp only [Event.reaps, decide_eq_true_eq]
    omega
  · have hzero : s.hist.countP (Event.returns pid) = 0 := by
      rw [countP_eq_zero]
      intro e he hr
      obtain ⟨p, i, b, rfl⟩ := Event.returns_eq hr
      exact hex ⟨p, i, b, he⟩
    omega

/-! ### What `wait` returns -/

theorem append_singleton_ne {l : List Event} (e : Event) : l ≠ l ++ [e] := by
  intro h
  have := congrArg List.length h
  simp at this

/-- `wait` returns a child that has exited, to its parent. -/
theorem Life.waited {p i : Slot} {b : ℕ} {pid : ℤ} (hs : Life s t)
    (h : t.hist = s.hist ++ [.waited p i b pid]) :
    (s.proc i).parent = some p ∧ (s.proc i).state = .zombie ∧ (s.proc i).birth = b ∧
      (s.proc i).pid = pid := by
  rcases hs.hist with e | ⟨e', e, hnew⟩ <;> rw [e] at h
  · exact absurd h (append_singleton_ne _)
  · exact (hnew (by simpa using h)).2

variable [DecidableEq Cpu] {s : State Cpu}

/-- `wait` fails only if there is no child or the process has been killed. -/
theorem Step.waitFailed {t : State Cpu} {a : Act Cpu} {p : Slot} (hs : Step s a t)
    (h : t.hist = s.hist ++ [.waitFailed p]) :
    (∀ j, (s.proc j).parent ≠ some p) ∨ (s.proc p).killed = true := by
  have hlast : ∀ {e}, s.hist ++ [e] = s.hist ++ [.waitFailed p] → e = .waitFailed p := by
    intro e he
    simpa using he
  cases hs with
  | start | exit | reap => cases hlast h
  | waitFail c p' hp hor =>
    cases hlast h
    exact hor
  | same | scan | pick | back | own | wakeup | resume | yield | sleep | alloc | build | unalloc
  | waitSleep | kill => exact absurd h (append_singleton_ne _)

/-- The invariants of the table and those of `wait`. -/
structure WaitInv (s : State Cpu) : Prop where
  inv : Inv s
  awake : NobodyOversleeps s
  once : Once s

theorem WaitInv.step {t : State Cpu} {a : Act Cpu} (h : WaitInv s) (hs : Step s a t) :
    WaitInv t where
  inv := h.inv.step hs
  awake := h.awake.life h.inv.family (hs.life h.inv.sched h.inv.fork)
  once := h.once.life h.inv.births (hs.life h.inv.sched h.inv.fork)

omit [DecidableEq Cpu] in
theorem WaitInv.boot : WaitInv (State.boot : State Cpu) := by
  have hhist : (State.boot : State Cpu).hist = [] := by
    rw [boot_eq]
    rfl
  refine ⟨Inv.boot, ?_, ⟨?_, ?_, ?_, ?_, ?_⟩⟩
  · intro p hp
    have hno : ¬((State.boot : State Cpu).proc p).Sleeper := by
      refine boot_cases (P := fun q => ¬q.Sleeper) ?_ ?_ p <;> rintro ⟨⟨⟩, -⟩
    exact absurd hp hno
  · intro i hi
    have hno : ((State.boot : State Cpu).proc i).state ≠ .zombie := by
      refine boot_cases (P := fun q => q.state ≠ .zombie) ?_ ?_ i <;> rintro ⟨⟩
    exact absurd hi hno
  · intro i hi hne
    have hu : ((State.boot : State Cpu).proc i).state ≠ .unused := by grind
    exact absurd (boot_unused hu) hne
  · simp [hhist]
  · simp [hhist]
  · simp [hhist]

theorem waitInv_of_run {as : List (Act Cpu)} (h : run step .boot as = some s) :
    WaitInv s :=
  run_invariant (fun hs h => hs.step (.of_step h)) WaitInv.boot h

/-- **Every child that exits is waited for at most once, by its parent, and no parent
sleeps through an exit.** In every state that can be reached:

* `wait` has returned every child at most once, and every pid at most once as long as
  the pids have not all been used;
* if the next step makes `wait` return a child to `p`, then `p` is its parent, `fork`
  has returned it and it has called `exit`;
* if the next step makes `wait` fail in `p`, then `p` has no child or is killed;
* if the lock is free, nobody who is asleep in `wait` has a child that is a zombie. -/
theorem wait_of_run {as : List (Act Cpu)} (h : run step .boot as = some s) :
    (∀ b, s.hist.countP (Event.reaps b) ≤ 1) ∧
    (s.handed ≤ 2 ^ 32 → ∀ pid, s.hist.countP (Event.returns pid) ≤ 1) ∧
    (∀ {a t p i b pid}, step s a = some t → t.hist = s.hist ++ [.waited p i b pid] →
      (s.proc i).parent = some p ∧ (s.proc i).birth = b ∧ (s.proc i).pid = pid ∧
        .exited b ∈ s.hist ∧ ∃ p', .forked p' i b pid ∈ s.hist) ∧
    (∀ {a t p}, step s a = some t → t.hist = s.hist ++ [.waitFailed p] →
      (∀ j, (s.proc j).parent ≠ some p) ∨ (s.proc p).killed = true) ∧
    (s.lock = none → ∀ {p j}, (s.proc p).Sleeper → (s.proc j).parent = some p →
      (s.proc j).state ≠ .zombie) := by
  have hinv := waitInv_of_run h
  refine ⟨hinv.once.once, hinv.once.returns, ?_, ?_, ?_⟩
  · intro a t p i b pid hs ht
    obtain ⟨hpar, hz, rfl, rfl⟩ := ((Step.of_step hs).life hinv.inv.sched hinv.inv.fork).waited ht
    have hne : i ≠ initproc := by
      have := hinv.inv.family.init
      grind
    exact ⟨hpar, rfl, rfl, hinv.once.exited hz, hinv.once.forked (.inr hz) hne⟩
  · exact fun hs ht => (Step.of_step hs).waitFailed ht
  · exact fun _ p j hp hj => (hinv.awake p hp).2 j hj

/-- The child closes its files and exits, and its CPU finds nobody else to run. -/
def exitRun : List (Act Bool) :=
  forkRun ++ [.exit true] ++ List.replicate 17 (.close true) ++
    [.leave true, .back true] ++ List.replicate 63 (.look true)

/-- `wait` returns the child to the first process. -/
theorem wait_exitRun : ∃ s t : State Bool, run step .boot exitRun = some s ∧
    step s (.wait false) = some t ∧ t.hist = s.hist ++ [.waited initproc ⟨1, by decide⟩ 1 2] ∧
    .exited 1 ∈ s.hist := by
  have hrun : ((run step .boot exitRun).bind fun s => (step s (.wait false)).map fun t =>
      (s.hist, t.hist)) =
      some ([.forked initproc ⟨1, by decide⟩ 1 2, .exited 1],
        [.forked initproc ⟨1, by decide⟩ 1 2, .exited 1,
          .waited initproc ⟨1, by decide⟩ 1 2]) := by
    decide +kernel
  obtain ⟨s, hs, hrun⟩ := Option.bind_eq_some_iff.mp hrun
  obtain ⟨t, ht, hrun⟩ := Option.map_eq_some_iff.mp hrun
  obtain ⟨hsh, hth⟩ := Prod.mk.inj hrun
  have hlast : t.hist = s.hist ++ [.waited initproc ⟨1, by decide⟩ 1 2] := by
    rw [hsh, hth]
    rfl
  exact ⟨s, t, hs, ht, hlast, ((wait_of_run hs).2.2.1 ht hlast).2.2.2.1⟩

end Xv6.Ptable
