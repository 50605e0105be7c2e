import Xv6.Ptable.Wait

/-!
# `kill`

`kill` looks for a pid in all slots, whatever their state, and it takes no lock but
`ptable.lock`. Both have consequences.

A slot that has never been used has the pid zero, and a slot that a failed `fork` has
given back keeps the pid it had; `kill` finds them, returns zero and sets `killed`
there, and the next process that gets the slot is born killed
(`Xv6.Ptable.kill_zero`). The same happens to a slot that is still `EMBRYO`. **In the
runs in which `kill` does not find such a slot, no process is born killed, and `kill`
returns zero exactly if there is a process with that pid**
(`Xv6.Ptable.kill_of_run`).

`wait` looks at `killed` and goes to sleep under `ptable.lock`. The other loops look at
it under a lock of their own, and `sleep` takes `ptable.lock` only later; a process
that is killed in between goes to sleep all the same (`Xv6.Ptable.kill_sysSleep`).
**In the runs in which `kill` does not hit a process there, nobody is asleep in one
of the loops who has been killed** (`Xv6.Ptable.asleep_of_run`).
-/

namespace Xv6.Ptable

open Lib

variable {Cpu : Type}

/-! ### Processes that are not there yet -/

/-- The slot is not that of a process. -/
def Proc.Unborn (q : Proc) : Prop := q.state = .unused ∨ q.state = .embryo

instance (q : Proc) : Decidable q.Unborn := inferInstanceAs (Decidable (_ ∨ _))

/-- `kill` does not find a slot with the property. -/
def Spares (P : Proc → Prop) (s : State Cpu) : Act Cpu → Prop
  | .kill _ pid => ∀ i ∈ s.target pid, ¬P (s.proc i)
  | _ => True

instance (P : Proc → Prop) [DecidablePred P] (s : State Cpu) : DecidablePred (Spares P s)
  | .kill _ pid => inferInstanceAs (Decidable (∀ i ∈ s.target pid, ¬P (s.proc i)))
  | .acquire _ | .look _ | .back _ | .resume _ | .yield _ | .fault _ | .ofile _ _ _ | .fork _
  | .kalloc _ _ | .copyuvm _ _ | .unalloc _ | .fill _ | .start _ | .exit _ | .close _ | .leave _
  | .wait _ | .enter _ _ | .done _ | .test _ | .wake _ | .sleep _ | .relock _ | .wakeup _ =>
    .isTrue trivial

/-- `kill` does not find a slot that is `UNUSED` or `EMBRYO`. -/
abbrev SparesUnborn (s : State Cpu) : Act Cpu → Prop := Spares Proc.Unborn s

/-- No slot is marked before there is a process in it. -/
def BornAlive (s : State Cpu) : Prop := ∀ i, (s.proc i).Unborn → (s.proc i).killed = false

attribute [grind =] Proc.Unborn

/-! ### Processes that are asleep -/

/-- A process that stands there in a loop has looked at `killed`, and `sleep` has not
yet taken `ptable.lock`. -/
def Drowsy (r : Option (Stage × Loop)) : Prop :=
  ∃ l, r = some (.tested, l) ∨ r = some (.woken, l)

instance : DecidablePred Drowsy
  | some (.tested, l) => .isTrue ⟨l, .inl rfl⟩
  | some (.woken, l) => .isTrue ⟨l, .inr rfl⟩
  | none | some (.top, _) | some (.asleep, _) | some (.relock, _) =>
    .isFalse fun ⟨_, h⟩ => h.elim nofun nofun

/-- A process that stands there is in `sleep`, called by one of the loops that look at
`killed`. -/
def Dozing (r : Option (Stage × Loop)) : Prop := ∃ l : Loop, l.Tests ∧ r = some (.asleep, l)

/-- `kill` does not find a process between its test and its `sleep`. -/
abbrev SparesDrowsy (s : State Cpu) : Act Cpu → Prop := Spares (fun q => Drowsy q.loop) s

/-- Nobody who has been killed is about to go to sleep, or asleep. -/
structure Alert (s : State Cpu) : Prop where
  drowsy : ∀ {p}, Drowsy (s.proc p).loop → (s.proc p).killed = false
  dozing : ∀ {p}, (s.proc p).state = .sleeping → Dozing (s.proc p).loop →
    (s.proc p).killed = false

variable [DecidableEq Cpu] {s t : State Cpu} {as : List (Act Cpu)} {a : Act Cpu} {p : Slot}

theorem BornAlive.step (h : BornAlive s) (hr : Scheduled s) (hf : Forking s)
    (hk : SparesUnborn s a) (hs : Step s a t) : BornAlive t := by
  intro j hj
  have hold := h j
  cases hs with
  | same | scan | back => exact hold hj
  | pick | wakeup | yield | sleep | waitSleep => grind
  | own c p q lk ht | alloc c p i ht | start c p i ht =>
    have hrun := (hr.thread ht).2.1
    grind
  | resume c p q hon hl hq =>
    cases hq <;> grind
  | build c p i st st' q ht hp hq =>
    cases hq <;> grind
  | unalloc c p i ht hp =>
    have hi := hf.embryo hp
    grind
  | exit c p q ht hl hp hq hw =>
    grind
  | reap c p i hp | waitFail c p hp =>
    grind
  | kill c p pid i ha ht hl hi =>
    subst ha
    have := hk i hi
    grind

/-- What a process may do to itself in one of the loops. -/
theorem Own.drowsy {q q' : Proc} (h : Own p q q') (hq : Drowsy q.loop → q.killed = false)
    (hd : Drowsy q'.loop) : q'.killed = false := by
  cases h with
  | fault hc =>
    obtain ⟨l, hl⟩ := hd
    simp [hc.2] at hl
  | loop r _ htested hwoken _ =>
    obtain ⟨l, hl | hl⟩ := hd
    · exact htested l hl
    · exact hq ⟨l, .inl (hwoken l hl)⟩
  | ofile | exit | close | drop => exact hq hd

/-- A loop that looks at `killed` has done so before it calls `sleep`. -/
theorem Loop.Ready.drowsy {l : Loop} {st : Stage} (h : l.Ready st) (hl : l.Tests) :
    Drowsy (some (st, l)) := by
  cases l with
  | other => exact absurd hl not_false
  | pipewrite n =>
    cases st with
    | woken => exact ⟨_, .inr rfl⟩
    | top | tested | asleep | relock => exact absurd h not_false
  | piperead | consoleread | sysSleep =>
    obtain rfl : st = .tested := h
    exact ⟨_, .inl rfl⟩

theorem not_drowsy_none : ¬Drowsy none := by
  simp [Drowsy]

@[grind =] theorem drowsy_some {st : Stage} {l : Loop} :
    Drowsy (some (st, l)) ↔ st = .tested ∨ st = .woken := by
  simp [Drowsy, exists_or]

theorem Alert.step (h : Alert s) (hr : Scheduled s) (hf : Forking s) (hk : SparesDrowsy s a)
    (hs : Step s a t) : Alert t := by
  have hnone := not_drowsy_none
  obtain ⟨h₁, h₂⟩ := h
  cases hs with
  | same | scan | back => exact ⟨h₁, h₂⟩
  | pick | wakeup | yield | alloc | unalloc | start | reap | waitFail | waitSleep =>
    constructor <;> grind
  | own c p q lk ht hown hw =>
    have hrun := (hr.thread ht).2.1
    refine ⟨?_, ?_⟩
    · intro j hj
      by_cases hjp : j = p
      · subst hjp
        exact hown.drowsy h₁ hj
      · grind
    · grind
  | resume c p q hon hl hq =>
    have hrun := hr.on_running hon
    cases hq <;> constructor <;> grind
  | sleep c p st l lk ht hl hloop hready =>
    refine ⟨?_, ?_⟩
    · grind
    · intro j hj hd
      by_cases hjp : j = p
      · subst hjp
        have hd : Dozing (some (.asleep, l)) := by grind
        obtain ⟨l', hl', ⟨⟩⟩ := hd
        have := h₁ (hloop ▸ hready.drowsy hl')
        grind
      · grind
  | build c p i st st' q ht hp hq =>
    have hi := hf.embryo hp
    cases hq <;> constructor <;> grind
  | exit c p q ht hl hp hq hw =>
    constructor <;> intro j <;> have := hw j <;> have := @h₁ j <;> have := @h₂ j <;> grind
  | kill c p pid i ha ht hl hi =>
    subst ha
    have := hk i hi
    constructor <;> grind

/-- Nobody who has been killed is asleep in `wait`: the test and the sleep are in one
critical section. -/
def WaitersAlert (s : State Cpu) : Prop :=
  ∀ p, (s.proc p).Sleeper → (s.proc p).killed = false

theorem WaitersAlert.step (h : WaitersAlert s) (hr : Scheduled s) (hs : Step s a t) :
    WaitersAlert t := by
  intro j hj
  have hold := h j
  cases hs with
  | same | scan | back => exact hold hj
  | pick | wakeup | yield | sleep | alloc | unalloc | start | reap | waitFail | waitSleep | kill =>
    grind
  | own c p q lk ht =>
    have hrun := (hr.thread ht).2.1
    grind
  | resume c p q hon hl hq =>
    cases hq <;> grind
  | build c p i st st' q ht hp hq =>
    cases hq <;> grind
  | exit c p q ht hl hp hq hw =>
    grind

/-! ### The runs -/

omit [DecidableEq Cpu] in
theorem boot_killed (i : Slot) : ((State.boot : State Cpu).proc i).killed = false :=
  boot_cases (P := fun q => q.killed = false) rfl rfl i

theorem bornAlive_of_run (hm : Meets step SparesUnborn .boot as) (h : run step .boot as = some s) :
    BornAlive s :=
  (run_invariant_of_meets (P := fun s => Inv s ∧ BornAlive s)
    (fun hs hk h => ⟨hs.1.step (.of_step h), hs.2.step hs.1.sched hs.1.fork hk (.of_step h)⟩)
    ⟨Inv.boot, fun i _ => boot_killed i⟩ hm h).2

theorem waitersAlert_of_run (h : run step .boot as = some s) : WaitersAlert s :=
  (run_invariant (P := fun s => Inv s ∧ WaitersAlert s)
    (fun hs h => ⟨hs.1.step (.of_step h), hs.2.step hs.1.sched (.of_step h)⟩)
    ⟨Inv.boot, fun i _ => boot_killed i⟩ h).2

theorem alert_of_run (hm : Meets step SparesDrowsy .boot as) (h : run step .boot as = some s) :
    Alert s :=
  (run_invariant_of_meets (P := fun s => Inv s ∧ Alert s)
    (fun hs hk h => ⟨hs.1.step (.of_step h), hs.2.step hs.1.sched hs.1.fork hk (.of_step h)⟩)
    ⟨Inv.boot, ⟨fun _ => boot_killed _, fun _ _ => boot_killed _⟩⟩ hm h).2

omit [DecidableEq Cpu] in
/-- What `kill` returns. -/
theorem kill_fst (s : State Cpu) (pid : ℤ) : (s.kill pid).1 = 0 ↔ ∃ i, (s.proc i).pid = pid := by
  rw [State.kill]
  split
  next i hi =>
    have : (s.proc i).pid = pid := by simpa using find_eq_some hi
    simp only [true_iff]
    exact ⟨i, this⟩
  next hn =>
    have : ∀ i, (s.proc i).pid ≠ pid := fun i => by simpa using find_eq_none hn i
    simp [this]

/-- `fork` returns a slot that it has worked on. -/
theorem Step.forked {i : Slot} {b : ℕ} {pid : ℤ} (hs : Step s a t)
    (h : t.hist = s.hist ++ [.forked p i b pid]) :
    (s.proc p).pc = .fork .filled i ∧ (t.proc i).killed = (s.proc i).killed := by
  have hlast : ∀ {e}, s.hist ++ [e] = s.hist ++ [.forked p i b pid] → e = .forked p i b pid := by
    intro e he
    simpa using he
  cases hs with
  | start c p' i' ht hl hp =>
    cases hlast h
    exact ⟨hp, by grind⟩
  | exit | reap | waitFail => cases hlast h
  | same | scan | pick | back | own | wakeup | resume | yield | sleep | alloc | build | unalloc
  | waitSleep | kill => exact absurd h (append_singleton_ne _)

/-- **No process is born killed, and `kill` only hits processes**, in every run in
which `kill` finds neither an `UNUSED` nor an `EMBRYO` slot. -/
theorem kill_of_run (h : run step .boot as = some s) (hm : Meets step SparesUnborn .boot as) :
    (∀ i, (s.proc i).state = .unused → (s.proc i).killed = false) ∧
    (∀ {a t p i b pid}, step s a = some t → t.hist = s.hist ++ [.forked p i b pid] →
      (t.proc i).killed = false) ∧
    (∀ c pid, SparesUnborn s (.kill c pid) →
      ((s.kill pid).1 = 0 ↔ ∃ i, (s.proc i).state ≠ .unused ∧ (s.proc i).pid = pid)) := by
  have hborn := bornAlive_of_run hm h
  refine ⟨fun i hi => hborn i (.inl hi), ?_, ?_⟩
  · intro a t p i b pid hs ht
    obtain ⟨hp, hk⟩ := (Step.of_step hs).forked ht
    rw [hk]
    exact hborn i (.inr ((inv_of_run h).fork.embryo hp))
  · intro c pid hspares
    constructor
    · rw [State.kill]
      split
      next i hi =>
        have : (s.proc i).pid = pid := by simpa using find_eq_some hi
        exact fun _ => ⟨i, fun hu => hspares i hi (.inl hu), this⟩
      next => simp
    · rintro ⟨i, -, hi⟩
      exact (kill_fst s pid).mpr ⟨i, hi⟩

/-- The first process kills its child. -/
theorem kill_child : ∃ s ∈ run step (.boot : State Bool) (forkRun ++ [.kill false 2]),
    (s.proc ⟨1, by decide⟩).killed = true ∧
    ∀ i, (s.proc i).state = .unused → (s.proc i).killed = false := by
  obtain ⟨s, hs, hk⟩ : ∃ s ∈ run step (.boot : State Bool) (forkRun ++ [.kill false 2]),
      (s.proc ⟨1, by decide⟩).killed = true := by
    decide +kernel
  exact ⟨s, hs, hk, (kill_of_run hs (by decide +kernel)).1⟩

/-- A slot that was never used has pid zero. `kill(0)` finds it and returns zero,
although there is no process with that pid, and **the next child is born killed**. -/
theorem kill_zero : ∃ s ∈ run step (.boot : State Unit) [.acquire (), .look (), .resume ()],
    (s.kill 0).1 = 0 ∧ (∀ i, (s.proc i).state ≠ .unused → (s.proc i).pid ≠ 0) ∧
    ∃ t ∈ step s (.kill () 0),
      (t.proc ⟨1, by decide⟩).state = .unused ∧ (t.proc ⟨1, by decide⟩).killed = true ∧
      ∃ u ∈ run step t [.fork (), .kalloc () true, .copyuvm () true, .fill (), .start ()],
        (u.proc ⟨1, by decide⟩).state = .runnable ∧ (u.proc ⟨1, by decide⟩).killed = true := by
  decide +kernel

/-- **Nobody who has been killed is asleep in one of the five loops**, in every run in
which `kill` does not hit a process between its test of `killed` and the moment at
which `sleep` has `ptable.lock`. -/
theorem asleep_of_run (h : run step .boot as = some s) (hm : Meets step SparesDrowsy .boot as)
    (hp : (s.proc p).state = .sleeping)
    (hloop : (s.proc p).ctx = some .wait ∨ Dozing (s.proc p).loop) : (s.proc p).killed = false := by
  rcases hloop with hw | hd
  · exact waitersAlert_of_run h p ⟨hp, hw⟩
  · exact (alert_of_run hm h).dozing hp hd

/-- The child goes to sleep in `sys_sleep`. -/
def sleepRun : List (Act Bool) :=
  forkRun ++ [.enter true .sysSleep, .test true, .sleep true, .back true] ++
    List.replicate 63 (.look true)

theorem asleep_sleepRun : ∃ s ∈ run step (.boot : State Bool) sleepRun,
    (s.proc ⟨1, by decide⟩).state = .sleeping ∧ (s.proc ⟨1, by decide⟩).killed = false := by
  obtain ⟨s, hs, hp, hl⟩ : ∃ s ∈ run step (.boot : State Bool) sleepRun,
      (s.proc ⟨1, by decide⟩).state = .sleeping ∧
      (s.proc ⟨1, by decide⟩).loop = some (.asleep, .sysSleep) := by
    decide +kernel
  exact ⟨s, hs, hp, asleep_of_run hs (by decide +kernel) hp (.inr ⟨.sysSleep, trivial, hl⟩)⟩

/-- The child has found in `sys_sleep` that it has not been killed; **it is killed
before `sleep` has taken `ptable.lock`, and goes to sleep.** -/
theorem kill_sysSleep : ∃ s ∈ run step (.boot : State Bool)
      (forkRun ++ [.enter true .sysSleep, .test true, .kill false 2, .sleep true, .back true] ++
        List.replicate 63 (.look true)),
    s.lock = none ∧ (s.proc ⟨1, by decide⟩).state = .sleeping ∧
    (s.proc ⟨1, by decide⟩).loop = some (.asleep, .sysSleep) ∧
    (s.proc ⟨1, by decide⟩).killed = true := by
  decide +kernel

end Xv6.Ptable
