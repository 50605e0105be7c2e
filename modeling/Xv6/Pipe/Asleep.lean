import Xv6.Pipe.Fifo

/-!
# Who sleeps on a pipe

A process that sleeps on a pipe should do so for a reason: a reader because the pipe is
empty, a writer because it is full, and both only as long as the other end is open. In the
mended version of the code this is so whenever the locks are free
(`Xv6.Pipe.sleepsRightly_of_run_mended`).

In the source it is not (`Xv6.Pipe.reader_overslept`). A `pipewrite` that has filled an empty
pipe and then gives up, because the process has been killed or because the read end has been
closed, returns without a `wakeup`; readers that were asleep before it came remain
asleep although the pipe is full. **If this does not happen, the two versions of the code
do the same, and whoever sleeps does so for a reason** (`Xv6.Pipe.sleepsRightly_of_run`).
-/

namespace Xv6.Pipe

open Lib Sleep

variable {Pid : Type} [DecidableEq Pid] {junk : Fin PIPESIZE → UInt8}
  {s : State Pid Chan (Data Pid) Loc} {as : List (Act Pid Loc)}

/-- Everybody who is `SLEEPING` on the pipe has a reason to be. -/
def SleepsRightly (s : State Pid Chan (Data Pid) Loc) : Prop :=
  ∀ p, (s.sleeping p = some .nread → s.data.nread = s.data.nwrite ∧ s.data.writeopen = true) ∧
    (s.sleeping p = some .nwrite →
      s.data.nwrite = s.data.nread + BitVec.ofNat 32 PIPESIZE ∧ s.data.readopen = true)

/-- **With a `wakeup` before it gives up**, `pipewrite` leaves nobody asleep without a reason. -/
theorem sleepsRightly_of_run_mended (h : run (step (code Pid true)) (start Pid junk) as = some s)
    (hlk : s.lk = none) : SleepsRightly s := by
  have hs := holds_of_run h
  have hfree : ∀ {p ch}, s.sleeping p = some ch → s.data.Waits ch := by
    intro p ch hsl
    refine hs.waits_of_free (fun q ch' l ho => ?_) hlk hsl rfl
    -- The locations that owe a `wakeup` are all between `acquire` and `release`.
    obtain ⟨-, ho⟩ := ho
    cases l with
    | next | full | tellReaders | store | wrote | copy | take | took | tellClosed =>
      exact ⟨trivial, by rintro _ _ ⟨⟩⟩
    | idle | pipewrite | startWrite | waitSpace | retWrite | piperead | startRead | empty
    | waitData | retRead | pipeclose | shut | bothClosed | retClose => cases ch' <;> cases ho
  exact fun p => ⟨fun h => hfree h, fun h => hfree h⟩

/-- The process is about to give up, and has stored a byte since its last `wakeup`. -/
def Forsakes (d : Data Pid) (killed : Bool) : Loc → Prop
  | .full _ _ true => d.toRing.Full ∧ (d.readopen = false ∨ killed = true)
  | _ => False

instance (d : Data Pid) (killed : Bool) : DecidablePred (Forsakes d killed)
  | .full _ _ true => inferInstanceAs (Decidable (_ ∧ _))
  | .full _ _ false | .idle | .pipewrite _ _ | .startWrite _ _ | .next _ _ _ | .tellReaders _ _
  | .waitSpace _ _ | .store _ _ _ | .wrote _ _ | .retWrite _ _ | .piperead _ | .startRead _
  | .empty _ | .waitData _ | .copy _ _ | .take _ _ | .took _ _ | .retRead _ _ _ | .pipeclose _
  | .shut _ | .tellClosed _ | .bothClosed | .retClose _ => .isFalse not_false

/-- The step is not that of a `pipewrite` which finds the pipe full and gives up after it
has stored a byte, with no `wakeup` in between. -/
def TellsReaders (s : State Pid Chan (Data Pid) Loc) : Act Pid Loc → Prop
  | .next p => ¬Forsakes s.data (s.killed p) (s.loc p)
  | _ => True

instance (s : State Pid Chan (Data Pid) Loc) : DecidablePred (TellsReaders s)
  | .next _ => inferInstanceAs (Decidable (¬_))
  | .call _ _ | .kill _ => .isTrue trivial

/-- Then the two versions of the code do the same. -/
theorem step_mended {a : Act Pid Loc} (h : TellsReaders s a) :
    step (code Pid false) s a = step (code Pid true) s a := by
  have hsame : ∀ {p}, (∀ w i, s.loc p ≠ .full w i true) →
      (code Pid false).instr p (s.loc p) = (code Pid true).instr p (s.loc p) := by
    intro p hp
    cases hl : s.loc p with
    | full w i news =>
      cases news with
      | false => rfl
      | true => exact absurd hl (hp w i)
    | _ => rfl
  cases a with
  | kill p => rfl
  | call p l =>
    by_cases hp : ∃ w i, s.loc p = .full w i true
    · obtain ⟨w, i, hp⟩ := hp
      rw [step, step, effect, effect, hp]
      rfl
    · rw [step, step, effect, effect, hsame fun w i e => hp ⟨w, i, e⟩]
      rfl
  | next p =>
    by_cases hp : ∃ w i, s.loc p = .full w i true
    · obtain ⟨w, i, hp⟩ := hp
      have hno : ¬(s.data.toRing.Full ∧ (s.data.readopen = false ∨ s.killed p = true)) := by
        rwa [TellsReaders, hp] at h
      simp only [step, effect, hp, code]
      by_cases hfull : s.data.toRing.Full
      · have hgo : ¬(s.data.readopen = false ∨ s.killed p = true) := fun e => hno ⟨hfull, e⟩
        simp only [if_pos hfull, if_neg hgo]
      · simp only [if_neg hfull]
    · rw [step, step, effect, effect, hsame fun w i e => hp ⟨w, i, e⟩]

/-- **If no `pipewrite` gives up after it has stored a byte, with no `wakeup` in between**, then
whenever the locks are free a process that is `SLEEPING` on `&p->nread` is so because the pipe
is empty and its write end open, and one that is `SLEEPING` on `&p->nwrite` because the pipe is
full and its read end open. -/
theorem sleepsRightly_of_run (h : run (step (code Pid false)) (start Pid junk) as = some s)
    (hm : Meets (step (code Pid false)) TellsReaders (start Pid junk) as) (hlk : s.lk = none) :
    SleepsRightly s :=
  sleepsRightly_of_run_mended (run_congr_of_meets (fun _ _ => step_mended) hm h) hlk

/-- A process calls `piperead` and goes to sleep. -/
def waitRun : List (Act Bool Loc) :=
  .call false (.piperead 1) :: List.replicate 7 (.next false)

theorem sleepsRightly_waitRun :
    ∃ s ∈ run (step (code Bool false)) (start Bool fun _ => 0) waitRun,
      s.sleeping false = some .nread ∧ s.data.nread = s.data.nwrite ∧
        s.data.writeopen = true := by
  obtain ⟨s, hs, hlk, hsl⟩ : ∃ s ∈ run (step (code Bool false)) (start Bool fun _ => 0) waitRun,
      s.lk = none ∧ s.sleeping false = some .nread := by
    decide +kernel
  have hm : Meets (step (code Bool false)) TellsReaders (start Bool fun _ => 0) waitRun := by
    decide +kernel
  exact ⟨s, hs, hsl, (sleepsRightly_of_run hs hm hlk false).1 hsl⟩

/-- A reader goes to sleep; a writer that has been killed fills the pipe, and gives up. -/
def oversleepRun : List (Act Bool Loc) :=
  .kill true :: waitRun ++ .call true (.pipewrite (fun _ => 0) (PIPESIZE + 1)) ::
    List.replicate (2 + 3 * PIPESIZE + 3) (.next true)

/-- **A reader is left asleep** although the pipe is full and both locks are free. -/
theorem reader_overslept :
    ∃ s ∈ run (step (code Bool false)) (start Bool fun _ => 0) oversleepRun,
      s.lk = none ∧ s.ptable = none ∧ ¬SleepsRightly s := by
  obtain ⟨s, hs, hlk, hpt, hsl, hne⟩ :
      ∃ s ∈ run (step (code Bool false)) (start Bool fun _ => 0) oversleepRun,
        s.lk = none ∧ s.ptable = none ∧ s.sleeping false = some .nread ∧
          s.data.nread ≠ s.data.nwrite := by
    decide +kernel
  exact ⟨s, hs, hlk, hpt, fun h => hne ((h false).1 hsl).1⟩

end Xv6.Pipe
