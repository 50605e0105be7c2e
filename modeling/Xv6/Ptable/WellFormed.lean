import Xv6.Ptable.Life

/-!
# The process table is well-formed

`Xv6.Ptable.WellFormed` says what holds of the table whenever `ptable.lock` is free:
the pids are different, a process is `RUNNING` on one CPU and there is no other, it
has a stack and memory while it can run, somebody is there to wait for it when it
exits, and nothing is left of it when its slot is `UNUSED`. **It holds in every run
in which the pids do not run out** (`Xv6.Ptable.wellFormed_of_run`).

To the two invariants of `Xv6.Ptable.Sched` come two more: the numbers of the slots
(`Xv6.Ptable.Births`), from which the pids follow as long as they do not wrap
around, and the parents (`Xv6.Ptable.Family`). A parent is never a zombie because
`exit` passes the children on in the same critical section in which the process
becomes one.
-/

namespace Xv6.Ptable

open Lib

variable {Cpu : Type} {s t : State Cpu}

/-! ### Births and pids -/

/-- The numbers of the slots that are in use, and their pids. -/
structure Births (s : State Cpu) : Prop where
  lt : ∀ {i}, (s.proc i).state ≠ .unused → (s.proc i).birth < s.handed
  pid : ∀ {i}, (s.proc i).state ≠ .unused →
    (s.proc i).pid = (((s.proc i).birth : ℤ) + 1).bmod (2 ^ 32)
  inj : ∀ {i j}, (s.proc i).state ≠ .unused → (s.proc j).state ≠ .unused →
    (s.proc i).birth = (s.proc j).birth → i = j
  next : s.nextpid = ((s.handed : ℤ) + 1).bmod (2 ^ 32)

/-- A pid that has not wrapped around. -/
theorem bmod_of_lt {b : ℕ} (h : b + 1 < 2 ^ 31) : ((b : ℤ) + 1).bmod (2 ^ 32) = b + 1 := by
  rw [Int.bmod_eq_of_le] <;> omega

theorem Births.life (h : Births s) (hs : Life s t) : Births t where
  lt hi := by
    rcases hs.carried hi with ⟨hu, hb⟩ | ⟨-, hb, -, hh⟩
    · have := h.lt hu
      rcases hs.counts with ⟨e, -⟩ | ⟨e, -⟩ <;> omega
    · omega
  pid hi := by
    rcases hs.carried hi with ⟨hu, hb, hp⟩ | ⟨-, hb, hp⟩ <;> rw [hb, hp]
    · exact h.pid hu
    · exact h.next
  inj {i j} hi hj hij := by
    rcases hs.carried hi with ⟨hu, hb⟩ | ⟨-, hb, -, -, ho⟩
    · rcases hs.carried hj with ⟨hu', hb'⟩ | ⟨-, hb'⟩
      · exact h.inj hu hu' (by omega)
      · have := h.lt hu
        omega
    · -- The new number is larger than the others.
      by_contra hne
      have hst := ho.steady j (Ne.symm hne)
      have := h.lt (hst.unused hj)
      have := hst.birth hj
      omega
  next := by
    rcases hs.counts with ⟨e, e'⟩ | ⟨e, e'⟩ <;> rw [e, e', h.next]
    rw [Int.bmod_add_bmod]
    push_cast
    rfl

/-! ### Parents -/

/-- Every process but the first has a parent that can wait for it. -/
structure Family (s : State Cpu) : Prop where
  init : (s.proc initproc).state.Live
  orphan : (s.proc initproc).parent = none
  stays : ¬(s.proc initproc).pc.Exits
  parent : ∀ {j}, (s.proc j).Grown → j ≠ initproc →
    ∃ p, (s.proc j).parent = some p ∧ (s.proc p).state.Live ∧ p ≠ j

/-- The slots that change are none of the first process and of the parents. -/
theorem Family.quiet (h : Family s)
    (hq : ∀ j, (s.proc j).state.Live → (s.proc j).Steady (t.proc j))
    (hinit : ¬(s.proc initproc).pc.Exits → ¬(t.proc initproc).pc.Exits)
    (hgrown : ∀ j, (t.proc j).Grown → j ≠ initproc → (s.proc j).Grown ∧ (t.proc j).parent =
      (s.proc j).parent ∨ ∃ p, (t.proc j).parent = some p ∧ (s.proc p).state.Live ∧ p ≠ j) :
    Family t where
  init := (hq _ h.init).live.mpr h.init
  orphan := by
    rw [(hq _ h.init).parent (.inl h.init)]
    exact h.orphan
  stays := hinit h.stays
  parent := by
    intro j hj hne
    obtain ⟨p, hp, hlp, hpj⟩ : ∃ p, (t.proc j).parent = some p ∧ (s.proc p).state.Live ∧ p ≠ j := by
      rcases hgrown j hj hne with ⟨hj, e⟩ | hex
      · rw [e]
        exact h.parent hj hne
      · exact hex
    exact ⟨p, hp, (hq p hlp).live.mpr hlp, hpj⟩

theorem Family.others {i : Slot} (h : Family s) (ho : Others s t i)
    (hi : (s.proc i).state ≠ .runnable ∧ (s.proc i).state ≠ .sleeping ∧
      (s.proc i).state ≠ .running)
    (hi' : (t.proc i).Grown → ∃ p, (t.proc i).parent = some p ∧ (s.proc p).state.Live ∧ p ≠ i) :
    Family t := by
  refine h.quiet (fun j hj => ho.steady j (by grind)) ho.stays fun j hj _ => ?_
  by_cases hji : j = i
  · subst hji
    exact .inr (hi' hj)
  · have hj := (ho.steady j hji).grown.mp hj
    exact .inl ⟨hj, (ho.steady j hji).parent hj⟩

theorem Family.life (h : Family s) (hs : Life s t) : Family t := by
  cases hs with
  | steady _ _ hq hinit =>
    refine h.quiet (fun j _ => hq j) hinit fun j hj _ => .inl ?_
    have hj := (hq j).grown.mp hj
    exact ⟨hj, (hq j).parent hj⟩
  | alloc i hi hi' _ _ _ _ _ ho => exact h.others ho (by simp [hi]) (by grind)
  | start p i hi hi' _ _ hpar hp _ _ ho =>
    exact h.others ho (by simp [hi]) fun _ => ⟨p, hpar, by grind, by grind⟩
  | reap p i hi _ hi' _ _ ho => exact h.others ho (by simp [hi]) (by grind)
  | exit p hp hpc hp' _ _ _ _ hq hpar hinit =>
    have hne : initproc ≠ p := fun e => h.stays (e ▸ hpc)
    have hgrown : ∀ j, (t.proc j).Grown → (s.proc j).Grown := by
      intro j hj
      by_cases hjp : j = p
      · grind
      · have := (hq j hjp).grown.mp hj
        grind
    have hparent : ∀ j, (s.proc j).Grown → (t.proc j).parent = ((s.proc j).pass p).parent := by
      intro j hj
      by_cases hjp : j = p
      · rw [hjp, hpar]
      · exact (hq j hjp).parent (by grind)
    have hlive : ∀ j ≠ p, (s.proc j).state.Live → (t.proc j).state.Live := by
      intro j hjp hj
      refine (hq j hjp).live.mpr ?_
      rwa [pass_state]
    refine ⟨hlive _ hne h.init, ?_, ?_, ?_⟩
    · rw [hparent _ (.inl h.init), Proc.pass, if_neg (by simp [h.orphan])]
      exact h.orphan
    · rw [hinit hne]
      exact h.stays
    · intro j hj hji
      have hj := hgrown j hj
      obtain ⟨p', hp', hl', hpj⟩ := h.parent hj hji
      rw [hparent j hj, Proc.pass]
      split
      next => exact ⟨initproc, rfl, hlive _ hne h.init, hji.symm⟩
      next hn => exact ⟨p', hp', hlive p' (fun e => hn (e ▸ hp')) hl', hpj⟩

variable [DecidableEq Cpu] {s : State Cpu}

/-! ### The table -/

/-- All invariants together. -/
structure Inv (s : State Cpu) : Prop where
  sched : Scheduled s
  fork : Forking s
  fit : ∀ i, (s.proc i).Fit
  births : Births s
  family : Family s

theorem Inv.step {t : State Cpu} {a : Act Cpu} (h : Inv s) (hs : Step s a t) : Inv t where
  sched := h.sched.step h.fork hs
  fork := h.fork.step h.sched h.fit hs
  fit := Proc.Fit.step h.fit h.sched h.fork hs
  births := h.births.life (hs.life h.sched h.fork)
  family := h.family.life (hs.life h.sched h.fork)

section

omit [DecidableEq Cpu]

/-- `userinit` takes the first slot. -/
theorem boot_eq : (State.boot : State Cpu) =
    { (State.zero : State Cpu).set initproc
        ((((Proc.zero.alloc 1 0).setStack.setPgdir true).setCwd).become .runnable) with
      nextpid := 2
      handed := 1 } := by
  have hfind : (State.zero : State Cpu).find (fun q => q.state = .unused) = some initproc := rfl
  have halloc : (State.zero : State Cpu).allocproc = some (initproc,
      { (State.zero : State Cpu).set initproc (Proc.zero.alloc 1 0) with
        nextpid := 2, handed := 1 }) := by
    rw [State.allocproc, hfind]
    rfl
  rw [State.boot, State.userinit, halloc]
  simp only [Option.getD_some, State.set, Function.update_idem, Function.update_self]

/-- The first process as `userinit` leaves it. -/
def initial : Proc := (((Proc.zero.alloc 1 0).setStack.setPgdir true).setCwd).become .runnable

theorem boot_proc (i : Slot) :
    (State.boot : State Cpu).proc i = if i = initproc then initial else .zero := by
  rw [boot_eq]
  exact set_proc _ _ _ _

theorem boot_init : (State.boot : State Cpu).proc initproc = initial := by
  rw [boot_proc, if_pos rfl]

theorem boot_cases {P : Proc → Prop} (hinit : P initial) (hzero : P .zero) (i : Slot) :
    P ((State.boot : State Cpu).proc i) := by
  rw [boot_proc]
  split
  · exact hinit
  · exact hzero

/-- Only the first slot is in use. -/
theorem boot_unused {i : Slot} (h : ((State.boot : State Cpu).proc i).state ≠ .unused) :
    i = initproc := by
  rw [boot_proc] at h
  split at h
  next hi => exact hi
  next => exact absurd rfl h

theorem Scheduled.boot : Scheduled (State.boot : State Cpu) := by
  have hon : ∀ c, (State.boot : State Cpu).on c = none := by
    intro c
    rw [boot_eq]
    rfl
  have hcur : ∀ c, (State.boot : State Cpu).cur c = none := by
    intro c
    rw [boot_eq]
    rfl
  refine ⟨?_, ?_, ?_, ?_, ?_, ?_, ?_⟩
  · simp [hon]
  · simp [hon]
  · intro p
    refine boot_cases (P := fun q => q.state = .running → _) ?_ ?_ p <;> rintro ⟨⟩
  · simp [hcur]
  · simp [hcur]
  · simp [hon]
  · intro p
    refine boot_cases (P := fun q => q.state = .runnable ∨ q.state = .sleeping → q.ctx ≠ none)
      ?_ ?_ p
    · rintro _ ⟨⟩
    · rintro (⟨⟨⟩⟩ | ⟨⟨⟩⟩)

theorem Forking.boot : Forking (State.boot : State Cpu) := by
  have hpc : ∀ i, ((State.boot : State Cpu).proc i).pc = .user := fun i =>
    boot_cases (P := fun q => q.pc = .user) rfl rfl i
  refine ⟨?_, ?_, ?_⟩ <;> simp [hpc]

end

theorem Proc.Fit.initial : initial.Fit :=
  ⟨by rintro ⟨⟩, fun _ => ⟨rfl, rfl⟩, by rintro ⟨⟩, by rintro _ ⟨⟩, by rintro ⟨⟩⟩

theorem Proc.Fit.zero : Proc.zero.Fit :=
  ⟨fun _ => ⟨rfl, rfl, fun _ => rfl, rfl⟩, by rintro ((⟨⟨⟩⟩ | ⟨⟨⟩⟩ | ⟨⟨⟩⟩) | ⟨⟨⟩⟩), by rintro ⟨⟩,
    by rintro _ ⟨⟩, by rintro ⟨⟩⟩

section

omit [DecidableEq Cpu]

theorem Births.boot : Births (State.boot : State Cpu) where
  lt hi := by
    rw [boot_unused hi, boot_init, boot_eq]
    exact Nat.one_pos
  pid hi := by
    rw [boot_unused hi, boot_init]
    exact (bmod_of_lt (b := 0) (by decide)).symm
  inj hi hj _ := (boot_unused hi).trans (boot_unused hj).symm
  next := by
    rw [boot_eq]
    exact (bmod_of_lt (b := 1) (by decide)).symm

theorem Family.boot : Family (State.boot : State Cpu) where
  init := by
    rw [boot_init]
    exact .inl rfl
  orphan := by
    rw [boot_init]
    rfl
  stays := by
    rw [boot_init]
    exact not_false
  parent {j} hj hne := by
    have hu : ((State.boot : State Cpu).proc j).state ≠ .unused := by
      grind [Proc.Grown, Status.Live]
    exact absurd (boot_unused hu) hne

theorem Inv.boot : Inv (State.boot : State Cpu) where
  sched := .boot
  fork := .boot
  fit := boot_cases .initial .zero
  births := .boot
  family := .boot

end

theorem inv_of_run {as : List (Act Cpu)} (h : run step .boot as = some s) : Inv s :=
  run_invariant (fun hs h => hs.step (.of_step h)) Inv.boot h

/-- What holds of the table while nobody holds `ptable.lock`. -/
structure WellFormed (s : State Cpu) : Prop where
  pid_pos : ∀ {i}, (s.proc i).state ≠ .unused → 0 < (s.proc i).pid
  pid_inj : ∀ {i j}, (s.proc i).state ≠ .unused → (s.proc j).state ≠ .unused →
    (s.proc i).pid = (s.proc j).pid → i = j
  running : ∀ i, (s.proc i).state = .running ↔ ∃! c, s.cur c = some i
  kstack : ∀ {i}, (s.proc i).state.Live → (s.proc i).kstack = true
  pgdir : ∀ {i}, (s.proc i).state.Live → (s.proc i).pgdir = true
  parent : ∀ {i}, (s.proc i).state.Live ∨ (s.proc i).state = .zombie → i ≠ initproc →
    ∃ p, (s.proc i).parent = some p ∧ (s.proc p).state ≠ .unused ∧ (s.proc p).state ≠ .zombie
  unused : ∀ {i}, (s.proc i).state = .unused → (s.proc i).kstack = false ∧
    (s.proc i).parent = none ∧ (∀ fd, (s.proc i).ofile fd = false) ∧ (s.proc i).cwd = false

/-- **Whenever `ptable.lock` is free and fewer than `2 ^ 31 - 1` pids have been
handed out, the process table is well-formed**, for any CPUs and any interleaving. -/
theorem wellFormed_of_run {as : List (Act Cpu)} (h : run step .boot as = some s)
    (hlock : s.lock = none) (hpids : s.handed < 2 ^ 31 - 1) : WellFormed s := by
  have hinv := inv_of_run h
  have hpid : ∀ {i}, (s.proc i).state ≠ .unused → (s.proc i).pid = (s.proc i).birth + 1 := by
    intro i hi
    rw [hinv.births.pid hi]
    exact bmod_of_lt (by have := hinv.births.lt hi; omega)
  refine ⟨?_, ?_, ?_, ?_, ?_, ?_, ?_⟩
  · intro i hi
    rw [hpid hi]
    omega
  · intro i j hi hj hij
    rw [hpid hi, hpid hj] at hij
    exact hinv.births.inj hi hj (by omega)
  · intro i
    constructor
    · intro hi
      obtain ⟨c, hc⟩ := hinv.sched.running_on hi
      exact ⟨c, hinv.sched.on_cur hc, fun c' hc' => hinv.sched.cur_inj hc' (hinv.sched.on_cur hc)⟩
    · rintro ⟨c, hc, -⟩
      rcases hinv.sched.back hc with hon | ⟨-, hl⟩
      · exact hinv.sched.on_running hon
      · rw [hlock] at hl
        cases hl
  · exact fun hi => ((hinv.fit _).live (.inl hi)).1
  · exact fun hi => ((hinv.fit _).live (.inl hi)).2
  · intro i hi hne
    obtain ⟨p, hp, hlive, -⟩ := hinv.family.parent hi hne
    exact ⟨p, hp, by grind [Status.Live], by grind [Status.Live]⟩
  · intro i hi
    obtain ⟨hk, hb⟩ := (hinv.fit i).unused hi
    exact ⟨hk, hb.parent, hb.ofile, hb.cwd⟩

/-- The first process forks, and the other CPU runs the child. -/
def forkRun : List (Act Bool) :=
  [.acquire false, .look false, .resume false, .fork false, .kalloc false true,
    .copyuvm false true, .fill false, .start false,
    .acquire true, .look true, .look true, .resume true]

theorem wellFormed_forkRun : ∃ s, run step .boot forkRun = some s ∧ s.lock = none ∧
    s.cur true = some ⟨1, by decide⟩ ∧ WellFormed s := by
  obtain ⟨s, hs⟩ := Option.isSome_iff_exists.mp
    (by decide : (run step .boot forkRun).isSome = true)
  have hfacts : (run step .boot forkRun).map (fun s => (s.lock, s.cur true, s.handed)) =
      some (none, some ⟨1, by decide⟩, 2) := by decide
  rw [hs] at hfacts
  obtain ⟨hl, hc, hh⟩ : s.lock = none ∧ s.cur true = some ⟨1, by decide⟩ ∧ s.handed = 2 := by
    simpa using hfacts
  exact ⟨s, hs, hl, hc, wellFormed_of_run hs hl (by rw [hh]; decide)⟩

/-- **Who runs and who forks, at any time**, also while `ptable.lock` is held: a process is `RUNNING`
just if one CPU runs it, and then no other does; who waits to run or to be woken up has its context
saved; and a slot that a `fork` has taken is `EMBRYO`, and no other `fork` works on it. -/
theorem scheduled_of_run {as : List (Act Cpu)} (h : run step .boot as = some s) :
    (∀ p, (s.proc p).state = .running ↔ ∃! c, s.on c = some p) ∧
    (∀ p, (s.proc p).state = .runnable ∨ (s.proc p).state = .sleeping →
      (s.proc p).ctx ≠ none ∧ ∀ c, s.on c ≠ some p) ∧
    ∀ p p' st st' i, (s.proc p).pc = .fork st i → (s.proc p').pc = .fork st' i →
      p = p' ∧ (s.proc i).state = .embryo := by
  obtain ⟨hs, hf, -⟩ := inv_of_run h
  refine ⟨fun p => ⟨fun hp => ?_, ?_⟩, fun p hp => ⟨hs.suspended hp, fun c hc => ?_⟩, ?_⟩
  · obtain ⟨c, hc⟩ := hs.running_on hp
    exact ⟨c, hc, fun c' hc' => hs.on_inj hc' hc⟩
  · rintro ⟨c, hc, -⟩
    exact hs.on_running hc
  · rw [hs.on_running hc] at hp
    rcases hp with hp | hp <;> cases hp
  · exact fun p p' st st' i hp hp' => ⟨hf.inj hp hp', hf.embryo hp⟩

theorem scheduled_forkRun : ∃ s, run step .boot (forkRun.take 5) = some s ∧
    ∃! c, s.on c = some initproc := by
  have hrun : (run step .boot (forkRun.take 5)).map (fun s => (s.proc initproc).state) =
      some .running := by decide
  obtain ⟨s, hs, hp⟩ := Option.map_eq_some_iff.mp hrun
  exact ⟨s, hs, ((scheduled_of_run hs).1 initproc).mp hp⟩

end Xv6.Ptable
