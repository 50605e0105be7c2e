import Xv6.Ptable.Sched

/-!
# The life of a process

Seen from far enough away, four things happen in the process table: a slot is taken,
a process is started in it, the process exits, and it is waited for. Everything else
– scheduling, sleeping, the work of `fork` on a slot, `kill` – leaves the processes
that there are as they were (`Xv6.Ptable.Proc.Steady`). `Xv6.Ptable.Life` is that
view of a step, and **every step has one** (`Xv6.Ptable.Step.life`); what is said
about pids, about parents and about `wait` is proved from it.
-/

namespace Xv6.Ptable

open Lib

/-- The process has been started and has not been waited for. -/
def Proc.Grown (q : Proc) : Prop := q.state.Live ∨ q.state = .zombie

/-- The process is in `exit`. -/
def Pc.Exits : Pc → Prop
  | exiting _ | leaving => True
  | _ => False

/-- The process is asleep in `wait`. -/
def Proc.Sleeper (q : Proc) : Prop := q.state = .sleeping ∧ q.ctx = some .wait

/-- What most steps do to a slot. -/
structure Proc.Steady (q q' : Proc) : Prop where
  unused : q'.state ≠ .unused → q.state ≠ .unused
  birth : q'.state ≠ .unused → q'.birth = q.birth
  pid : q'.state ≠ .unused → q'.pid = q.pid
  live : q'.state.Live ↔ q.state.Live
  zombie : q'.state = .zombie ↔ q.state = .zombie
  parent : q.Grown → q'.parent = q.parent

theorem Proc.Steady.refl (q : Proc) : q.Steady q :=
  ⟨id, fun _ => rfl, fun _ => rfl, Iff.rfl, Iff.rfl, fun _ => rfl⟩

theorem Proc.Steady.grown {q q' : Proc} (h : q.Steady q') : q'.Grown ↔ q.Grown :=
  or_congr h.live h.zombie

/-- The record of a step is not touched by what most steps do. -/
def Quiet (l l' : List Event) : Prop := l' = l ∨ ∃ p, l' = l ++ [.waitFailed p]

variable {Cpu : Type}

/-- Who is asleep in `wait` after a step was so before. -/
def StillAsleep (s t : State Cpu) : Prop :=
  ∀ j, (t.proc j).Sleeper → (s.proc j).Sleeper ∧ (t.proc j).chan = (s.proc j).chan

/-- A step that hands no slot out. -/
def SameCounts (s t : State Cpu) : Prop := t.handed = s.handed ∧ t.nextpid = s.nextpid

/-- What a step that changes one slot does to the others. -/
structure Others (s t : State Cpu) (i : Slot) : Prop where
  steady : ∀ j ≠ i, (s.proc j).Steady (t.proc j)
  stays : ¬(s.proc initproc).pc.Exits → ¬(t.proc initproc).pc.Exits
  asleep : StillAsleep s t

/-- A step, as far as the lives of the processes are concerned. -/
inductive Life (s t : State Cpu) : Prop
  /-- A process may have gone to sleep in `wait`. -/
  | steady (hcount : SameCounts s t) (hhist : Quiet s.hist t.hist)
      (h : ∀ j, (s.proc j).Steady (t.proc j))
      (hinit : ¬(s.proc initproc).pc.Exits → ¬(t.proc initproc).pc.Exits)
      (hsleep : ∀ j, (t.proc j).Sleeper →
        (s.proc j).Sleeper ∧ (t.proc j).chan = (s.proc j).chan ∨
        (t.proc j).chan = some (.proc j) ∧
          ∀ k, (s.proc k).parent = some j → (s.proc k).state ≠ .zombie)
  /-- `allocproc` -/
  | alloc (i : Slot) (hi : (s.proc i).state = .unused) (hi' : (t.proc i).state = .embryo)
      (hbirth : (t.proc i).birth = s.handed) (hpid : (t.proc i).pid = s.nextpid)
      (hhanded : t.handed = s.handed + 1) (hnext : t.nextpid = (s.nextpid + 1).bmod (2 ^ 32))
      (hhist : t.hist = s.hist) (h : Others s t i)
  /-- The end of `fork` -/
  | start (p i : Slot) (hi : (s.proc i).state = .embryo) (hi' : (t.proc i).state = .runnable)
      (hbirth : (t.proc i).birth = (s.proc i).birth) (hpid : (t.proc i).pid = (s.proc i).pid)
      (hparent : (t.proc i).parent = some p) (hp : (s.proc p).state = .running)
      (hcount : SameCounts s t)
      (hhist : t.hist = s.hist ++ [.forked p i (s.proc i).birth (s.proc i).pid])
      (h : Others s t i)
  /-- The end of `exit` -/
  | exit (p : Slot) (hp : (s.proc p).state = .running) (hpc : (s.proc p).pc.Exits)
      (hp' : (t.proc p).state = .zombie) (hbirth : (t.proc p).birth = (s.proc p).birth)
      (hpid : (t.proc p).pid = (s.proc p).pid) (hcount : SameCounts s t)
      (hhist : t.hist = s.hist ++ [.exited (s.proc p).birth])
      (h : ∀ j ≠ p, ((s.proc j).pass p).Steady (t.proc j))
      (hparent : (t.proc p).parent = ((s.proc p).pass p).parent)
      (hinit : initproc ≠ p → (t.proc initproc).pc = (s.proc initproc).pc)
      (hsleep : StillAsleep s t)
      (htold : ∀ j, (s.proc p).parent = some j → (t.proc j).state = .sleeping →
        (t.proc j).chan ≠ some (.proc j))
      (htold' : ∀ j, (s.proc j).parent = some p → (s.proc j).state = .zombie →
        (t.proc initproc).state = .sleeping → (t.proc initproc).chan ≠ some (.proc initproc))
  /-- `wait` returns a pid. -/
  | reap (p i : Slot) (hi : (s.proc i).state = .zombie) (hpar : (s.proc i).parent = some p)
      (hi' : (t.proc i).state = .unused) (hcount : SameCounts s t)
      (hhist : t.hist = s.hist ++ [.waited p i (s.proc i).birth (s.proc i).pid])
      (h : Others s t i)

/-- The first process does not exit. -/
theorem Own.stays {q q' : Proc} (h : Own initproc q q') (hq : ¬q.pc.Exits) : ¬q'.pc.Exits := by
  cases h with
  | fault | ofile | loop => exact hq
  | exit _ hp => exact absurd rfl hp
  | close fd _ hpc | drop fd _ hpc =>
    rw [hpc] at hq
    exact absurd trivial hq

attribute [grind =] Status.Live Proc.Grown Pc.Exits Proc.Sleeper StillAsleep

attribute [grind intro] Proc.Steady

/-! ### Counts, slots and the record -/

section

variable {s t : State Cpu} {j : Slot}

theorem Life.counts (hs : Life s t) : SameCounts s t ∨
    t.handed = s.handed + 1 ∧ t.nextpid = (s.nextpid + 1).bmod (2 ^ 32) := by
  cases hs with
  | alloc _ _ _ _ _ hh hn => exact .inr ⟨hh, hn⟩
  | steady hcount | start _ _ _ _ _ _ _ _ hcount | exit _ _ _ _ _ _ hcount
  | reap _ _ _ _ _ hcount => exact .inl hcount

/-- Where the process in a slot comes from after a step. -/
inductive Carried (s t : State Cpu) (j : Slot) : Prop
  | old (hu : (s.proc j).state ≠ .unused) (hb : (t.proc j).birth = (s.proc j).birth)
      (hp : (t.proc j).pid = (s.proc j).pid)
      (hz : (t.proc j).state = .zombie →
        (s.proc j).state = .zombie ∨ .exited (s.proc j).birth ∈ t.hist)
      (hg : (t.proc j).Grown →
        (s.proc j).Grown ∨ ∃ p, .forked p j (s.proc j).birth (s.proc j).pid ∈ t.hist)
  | new (he : (t.proc j).state = .embryo) (hb : (t.proc j).birth = s.handed)
      (hp : (t.proc j).pid = s.nextpid) (hh : t.handed = s.handed + 1) (h : Others s t j)

theorem Proc.Steady.carried (h : (s.proc j).Steady (t.proc j)) (hj : (t.proc j).state ≠ .unused) :
    Carried s t j :=
  .old (h.unused hj) (h.birth hj) (h.pid hj) (fun hz => .inl (h.zombie.mp hz))
    fun hg => .inl (h.grown.mp hg)

theorem Life.carried (hs : Life s t) (hj : (t.proc j).state ≠ .unused) : Carried s t j := by
  cases hs with
  | steady _ _ h => exact (h j).carried hj
  | alloc i _ hi' hb hp hh _ _ h =>
    by_cases hji : j = i
    · subst hji
      exact .new hi' hb hp hh h
    · exact (h.steady j hji).carried hj
  | start p i hi hi' hb hp _ _ _ hhist h =>
    by_cases hji : j = i
    · subst hji
      exact .old (by simp [hi]) hb hp (by simp [hi']) fun _ => .inr ⟨p, by simp [hhist]⟩
    · exact (h.steady j hji).carried hj
  | exit p hp _ _ hb hpid _ hhist h =>
    by_cases hjp : j = p
    · subst hjp
      exact .old (by simp [hp]) hb hpid (fun _ => .inr (by simp [hhist])) fun _ => .inl (by grind)
    · obtain ⟨hu, hb, hpid, hl, hz, -⟩ := h j hjp
      refine .old ?_ ?_ ?_ ?_ ?_ <;> grind
  | reap p i _ _ hi' _ _ h => exact (h.steady j fun e => hj (e ▸ hi')).carried hj

/-- A step records at most one event; if it is the return of `wait`, then of a child
that has exited, to its parent. -/
theorem Life.hist (hs : Life s t) : t.hist = s.hist ∨ ∃ e, t.hist = s.hist ++ [e] ∧
    ∀ {p i b pid}, e = .waited p i b pid → (t.proc i).state = .unused ∧
      (s.proc i).parent = some p ∧ (s.proc i).state = .zombie ∧ (s.proc i).birth = b ∧
      (s.proc i).pid = pid := by
  cases hs with
  | steady _ hhist =>
    rcases hhist with e | ⟨p, e⟩
    · exact .inl e
    · exact .inr ⟨_, e, nofun⟩
  | alloc _ _ _ _ _ _ _ hhist => exact .inl hhist
  | start _ _ _ _ _ _ _ _ _ hhist => exact .inr ⟨_, hhist, nofun⟩
  | exit _ _ _ _ _ _ _ hhist => exact .inr ⟨_, hhist, nofun⟩
  | reap p i hi hpar hi' _ hhist =>
    refine .inr ⟨_, hhist, fun e => ?_⟩
    cases e
    exact ⟨hi', hpar, hi, rfl, rfl⟩

end

variable [DecidableEq Cpu]

/-! ### Every step has such a view -/

/-- **Every step is one of the five.** -/
theorem Step.life {s t : State Cpu} {a : Act Cpu} (hs : Step s a t) (hr : Scheduled s)
    (hf : Forking s) : Life s t := by
  cases hs with
  | same | scan | back =>
    exact .steady ⟨rfl, rfl⟩ (.inl rfl) (fun j => .refl _) id fun j hj => .inl ⟨hj, rfl⟩
  | own c p q lk ht hown hw =>
    refine .steady ⟨rfl, rfl⟩ (.inl rfl) (fun j => ?_) ?_ ?_
    · grind
    · intro hinit
      by_cases hp : initproc = p
      · subst hp
        exact hown.stays hinit
      · grind
    · grind
  | resume c p q hon hl hq =>
    cases hq <;> refine .steady ⟨rfl, rfl⟩ (.inl rfl) ?_ ?_ ?_ <;> grind
  | pick | wakeup | kill =>
    refine .steady ⟨rfl, rfl⟩ (.inl rfl) ?_ ?_ ?_ <;> grind
  | yield c p ht hl | sleep c p _ _ _ ht =>
    have hrun := (hr.thread ht).2.1
    refine .steady ⟨rfl, rfl⟩ (.inl rfl) ?_ ?_ ?_ <;> grind
  | build c p i st st' q ht hp hq =>
    have hi := hf.embryo hp
    cases hq <;> refine .steady ⟨rfl, rfl⟩ (.inl rfl) ?_ ?_ ?_ <;> grind
  | unalloc c p i ht hp =>
    have hi := hf.embryo hp
    refine .steady ⟨rfl, rfl⟩ (.inl rfl) ?_ ?_ ?_ <;> grind
  | waitFail c p hp _ =>
    refine .steady ⟨rfl, rfl⟩ (.inr ⟨p, rfl⟩) ?_ ?_ ?_ <;> grind
  | waitSleep c p hp _ hz =>
    have hrun := hr.on_running hp.1
    refine .steady ⟨rfl, rfl⟩ (.inl rfl) ?_ ?_ fun j hj => ?_
    · grind
    · grind
    · by_cases hjp : j = p
      · subst hjp
        refine .inr ⟨?_, hz⟩
        grind
      · grind
  | alloc c p i ht hl hp hi =>
    have hrun := (hr.thread ht).2.1
    refine .alloc i hi ?_ ?_ ?_ rfl rfl rfl ⟨?_, ?_, ?_⟩ <;> grind
  | start c p i ht hl hp =>
    have hrun := (hr.thread ht).2.1
    have hi := hf.embryo hp
    have hpar := (hf.ok hp).2.2.2
    refine .start p i hi ?_ ?_ ?_ ?_ hrun ⟨rfl, rfl⟩ rfl ⟨?_, ?_, ?_⟩ <;> grind
  | exit c p q ht hl hp hq hw hpar hinit =>
    have hrun := (hr.thread ht).2.1
    refine .exit p hrun (by rw [hp]; trivial) ?_ ?_ ?_ ⟨rfl, rfl⟩ rfl ?_ ?_ ?_ ?_ hpar hinit <;>
      grind
  | reap c p i hp hi hz =>
    have hrun := hr.on_running hp.1
    refine .reap p i hz hi ?_ ⟨rfl, rfl⟩ rfl ⟨?_, ?_, ?_⟩ <;> grind

end Xv6.Ptable
