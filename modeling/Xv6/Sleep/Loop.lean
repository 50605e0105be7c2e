import Xv6.Sleep.Rule

/-!
# Waiting for a condition

The pattern for which `sleep` is made. Some processes wait for a condition on the data:

    acquire(lk);
    while(!cond)
      sleep(chan, lk);
    ...
    release(lk);

and others change the data and tell them so with `wakeup(chan)`, while they still hold
`lk` or after they have released it. What is in place of the dots, and what the wakers
do to the data, is arbitrary; it is chosen at every call.
-/

namespace Xv6.Sleep

namespace Loop

open Lib

variable {Pid D : Type}

/-- The locations of the two loops; `f` is what the process does to the data. -/
inductive Loc (D : Type) where
  | idle
  /-- A waiter, about to take `lk`. -/
  | enter (f : D → D)
  /-- A waiter, about to test the condition. -/
  | test (f : D → D)
  /-- A waiter that has found the condition false. -/
  | wait (f : D → D)
  /-- A waiter that has found the condition true. -/
  | body (f : D → D)
  /-- About to release `lk`, with nothing left to do. -/
  | leave
  /-- A waker, about to take `lk`. If `late`, it calls `wakeup` after it has released
  the lock. -/
  | start (f : D → D) (late : Bool)
  /-- A waker, about to change the data. -/
  | make (f : D → D) (late : Bool)
  /-- About to call `wakeup` before the lock is released. -/
  | notify
  /-- About to release the lock before `wakeup` is called. -/
  | out
  /-- About to call `wakeup` after the lock has been released. -/
  | call

/-- The process has its call of `wakeup` to make. -/
def Loc.Pending : Loc D → Prop
  | notify | out | call => True
  | _ => False

instance : DecidablePred (Loc.Pending (D := D))
  | .notify | .out | .call => .isTrue trivial
  | .idle | .enter _ | .test _ | .wait _ | .body _ | .leave | .start _ _ | .make _ _ =>
    .isFalse not_false

/-- The code of waiters and wakers for the condition `cond`. -/
def code (Pid : Type) (cond : D → Bool) : Code Pid Unit D (Loc D) where
  instr _
    | .idle => .rest
    | .enter f => .acquire (.test f)
    | .test f => .update fun _ d => (d, if cond d then .body f else .wait f)
    | .wait f => .sleep () (.test f)
    | .body f => .update fun _ d => (f d, .leave)
    | .leave => .release .idle
    | .start f late => .acquire (.make f late)
    | .make f late => .update fun _ d => (f d, if late then .out else .notify)
    | .notify => .wakeup () .leave
    | .out => .release .call
    | .call => .wakeup () .idle
  calls _ _
    | .enter _ | .start _ _ => true
    | _ => false

/-- The lock is held from `acquire` to `release`. -/
def Loc.Held : Loc D → Prop
  | idle | enter _ | start _ _ | call => False
  | test _ | wait _ | body _ | leave | make _ _ | notify | out => True

/-- What a waiter knows after its test. -/
def Loc.Pre (cond : D → Bool) (d : D) : Loc D → Prop
  | wait _ => cond d = false
  | body _ => cond d = true
  | _ => True

/-- It is right to sleep as long as the condition is false. -/
def spec (Pid : Type) (cond : D → Bool) : Spec Pid Unit D (Loc D) where
  Inv _ := True
  Held := Loc.Held
  Pre _ l d := l.Pre cond d
  Frame _ _ _ := True
  Waits _ d := cond d = false
  Owes _ := Loc.Pending

theorem spec_valid (cond : D → Bool) : (spec Pid cond).Valid (code Pid cond) where
  allows p l := by
    cases l with
    | idle => exact ⟨not_false, fun _ => not_false⟩
    | enter f => exact ⟨not_false, trivial, fun _ => False.elim, fun _ _ _ => ⟨trivial, trivial⟩⟩
    | test f =>
      refine ⟨trivial, fun _ d _ _ => ?_⟩
      dsimp only
      split
      next h => exact ⟨trivial, h, trivial, fun _ _ _ => id, fun _ => False.elim, fun _ => .inl⟩
      next h =>
        exact ⟨trivial, Bool.eq_false_iff.mpr h, trivial, fun _ _ _ => id, fun _ => False.elim,
          fun _ => .inl⟩
    | wait f =>
      exact ⟨trivial, trivial, fun _ => False.elim, fun _ h => ⟨trivial, h⟩,
        fun _ _ _ => ⟨trivial, trivial⟩⟩
    | body f =>
      -- The condition is true, so nobody sleeps rightly whatever the waiter does.
      refine ⟨trivial, fun _ d hd _ => ?_⟩
      refine ⟨trivial, trivial, trivial, fun _ _ _ => id, fun _ => False.elim, fun _ hw => ?_⟩
      have hw : cond d = false := hw
      rw [hd] at hw
      cases hw
    | leave => exact ⟨trivial, not_false, fun _ => False.elim, fun _ _ _ => ⟨trivial, trivial⟩⟩
    | start f late =>
      exact ⟨not_false, trivial, fun _ => False.elim, fun _ _ _ => ⟨trivial, trivial⟩⟩
    | make f late =>
      refine ⟨trivial, fun _ d _ _ => ?_⟩
      cases late with
      | false =>
        exact ⟨trivial, trivial, trivial, fun _ _ _ => id, fun _ => False.elim,
          fun _ _ => .inr trivial⟩
      | true =>
        exact ⟨trivial, trivial, trivial, fun _ _ _ => id, fun _ => False.elim,
          fun _ _ => .inr trivial⟩
    | notify =>
      exact ⟨Iff.rfl, fun ch h => absurd rfl h, fun _ _ => trivial, fun _ _ _ => trivial⟩
    | out => exact ⟨trivial, not_false, fun _ _ => trivial, fun _ _ _ => ⟨trivial, trivial⟩⟩
    | call =>
      exact ⟨Iff.rfl, fun ch h => absurd rfl h, fun _ _ => trivial, fun _ _ _ => trivial⟩
  calls p l l' _ h := by
    cases l' with
    | enter | start => exact ⟨not_false, fun _ _ => trivial⟩
    | idle | test | wait | body | leave | make | notify | out | call => cases h

variable [DecidableEq Pid]

/-- If the condition is true and no waker has its `wakeup` to make, then nobody is
`SLEEPING`. -/
theorem not_sleeping_of_run {cond : D → Bool} {d : D} {s : State Pid Unit D (Loc D)}
    {as : List (Act Pid (Loc D))}
    (h : run (step (code Pid cond)) (State.init d fun _ => .idle) as = some s)
    (hcond : cond s.data = true) (hno : ∀ q, ¬(s.loc q).Pending) (p : Pid) :
    s.sleeping p = none := by
  have hinit : (spec Pid cond).Holds (code Pid cond) (State.init d fun _ => .idle) :=
    (spec_valid cond).init trivial (fun _ => rfl) fun _ => trivial
  have hs := (spec_valid cond).holds_of_run hinit h
  cases hsl : s.sleeping p with
  | none => rfl
  | some ch =>
    rcases hs.waits_of_sleeping hsl with hw | ⟨q, hq⟩
    · have hw : cond s.data = false := hw
      rw [hcond] at hw
      cases hw
    · exact absurd hq.1 (hno q)

end Loop

end Xv6.Sleep
