import Xv6.Sleep.Loop

/-!
# Sleep-locks

`sleeplock.c`. A sleep-lock is a boolean, protected by a spinlock, and processes wait for
it to become false. `acquiresleep` is the loop of `Xv6.Sleep.Loop` with the condition
that the lock is free; `releasesleep` calls `wakeup` before it releases the spinlock.

`Xv6.Sleep.Lock.Loc.Owner` are the locations at which a process holds the sleep-lock:
from the assignment in `acquiresleep` to the one in `releasesleep`. A process calls
`releasesleep` only if it holds the lock; the callers in the kernel either have taken it
themselves or ask `holdingsleep` and panic. That is all it takes for **at most one
process to hold the lock** (`Xv6.Sleep.Lock.owner_unique`), and for `holdingsleep` to give
the right answer (`Xv6.Sleep.Lock.holdingsleep_of_run`).
-/

namespace Xv6.Sleep

namespace Lock

open Lib

variable {Pid : Type}

/-- `struct sleeplock`; `pid` is the process that holds it. -/
structure Sleeplock (Pid : Type) where
  locked : Bool
  pid : Option Pid

/-- `initsleeplock` -/
def Sleeplock.init : Sleeplock Pid := ⟨false, none⟩

/-- The locations of `acquiresleep`, `releasesleep` and `holdingsleep`. -/
inductive Loc where
  /-- Outside, without the lock. -/
  | idle
  /-- In `acquiresleep`, about to take the spinlock. -/
  | acquiresleep
  /-- About to look at `locked`. -/
  | test
  /-- About to sleep. -/
  | wait
  /-- About to set `locked`. -/
  | take
  /-- About to release the spinlock. -/
  | taken
  /-- Outside, with the lock. -/
  | held
  /-- In `releasesleep`, about to take the spinlock. -/
  | releasesleep
  /-- About to clear `locked`. -/
  | clear
  /-- About to call `wakeup`. -/
  | notify
  /-- About to release the spinlock. -/
  | cleared
  /-- In `holdingsleep`, called by a process that holds the lock or one that does not. -/
  | holdingsleep (own : Bool)
  /-- About to look at the lock. -/
  | look (own : Bool)
  /-- About to release the spinlock and return `r`. -/
  | answer (own r : Bool)

/-- The process holds the sleep-lock. -/
def Loc.Owner : Loc → Prop
  | taken | held | releasesleep | clear => True
  | holdingsleep own | look own | answer own _ => own = true
  | idle | acquiresleep | test | wait | take | notify | cleared => False

/-- The code of `sleeplock.c`. -/
def code (Pid : Type) [DecidableEq Pid] : Code Pid Unit (Sleeplock Pid) Loc where
  instr p
    | .idle => .rest
    | .acquiresleep => .acquire .test
    | .test => .update fun _ lk => (lk, if lk.locked then .wait else .take)
    | .wait => .sleep () .test
    | .take => .update fun _ _ => (⟨true, some p⟩, .taken)
    | .taken => .release .held
    | .held => .rest
    | .releasesleep => .acquire .clear
    | .clear => .update fun _ _ => (⟨false, none⟩, .notify)
    | .notify => .wakeup () .cleared
    | .cleared => .release .idle
    | .holdingsleep own => .acquire (.look own)
    | .look own => .update fun _ lk => (lk, .answer own (lk.locked && decide (lk.pid = some p)))
    | .answer own _ => .release (if own then .held else .idle)
  calls _
    | .idle, .acquiresleep => true
    | .idle, .holdingsleep false => true
    | .held, .releasesleep => true
    | .held, .holdingsleep true => true
    | _, _ => false

/-- The spinlock is held from `acquire` to `release`. -/
def Loc.Held : Loc → Prop
  | idle | acquiresleep | held | releasesleep | holdingsleep _ => False
  | test | wait | take | taken | clear | notify | cleared | look _ | answer _ _ => True

/-- What the holder of the spinlock knows. -/
def Loc.Pre (lk : Sleeplock Pid) : Loc → Prop
  | wait => lk.locked = true
  | take => lk.locked = false
  | answer own r => r = own
  | _ => True

/-- It is right to sleep as long as the lock is taken, and the lock says who holds it. -/
def spec (Pid : Type) : Spec Pid Unit (Sleeplock Pid) Loc where
  Inv _ := True
  Held := Loc.Held
  Pre _ l lk := l.Pre lk
  Frame p l lk := lk.locked = true ∧ lk.pid = some p ↔ l.Owner
  Waits _ lk := lk.locked = true
  Owes _ l := l = .notify

variable [DecidableEq Pid] {s : State Pid Unit (Sleeplock Pid) Loc} {as : List (Act Pid Loc)}

theorem spec_valid : (spec Pid).Valid (code Pid) where
  allows p l := by
    cases l with
    | idle => exact ⟨not_false, fun _ => by rintro ⟨⟩⟩
    | held => exact ⟨not_false, fun _ => by rintro ⟨⟩⟩
    | acquiresleep | releasesleep | holdingsleep =>
      exact ⟨not_false, trivial, fun _ => by rintro ⟨⟩, fun _ _ h => ⟨trivial, h⟩⟩
    | test =>
      refine ⟨trivial, fun _ d _ hf => ?_⟩
      dsimp only
      split
      next h => exact ⟨trivial, h, hf, fun _ _ _ => id, fun _ => by rintro ⟨⟩, fun _ => .inl⟩
      next h =>
        exact ⟨trivial, Bool.eq_false_iff.mpr h, hf, fun _ _ _ => id, fun _ => by rintro ⟨⟩,
          fun _ => .inl⟩
    | wait =>
      exact ⟨trivial, trivial, fun _ => by rintro ⟨⟩, fun _ h => ⟨trivial, h⟩,
        fun _ _ h => ⟨trivial, h⟩⟩
    | take =>
      refine ⟨trivial, fun _ d hd _ => ?_⟩
      refine ⟨trivial, trivial, iff_of_true ⟨rfl, rfl⟩ trivial, ?_, fun _ => by rintro ⟨⟩, ?_⟩
      · intro q l hq hl
        have hno : ¬l.Owner := fun ho => by
          have := (hl.mpr ho).1
          rw [hd] at this
          cases this
        exact iff_of_false (fun e => hq (Option.some.inj e.2).symm) hno
      · intro _ hw
        have hw : d.locked = true := hw
        rw [hd] at hw
        cases hw
    | taken => exact ⟨trivial, not_false, fun _ => by rintro ⟨⟩, fun _ _ h => ⟨trivial, h⟩⟩
    | clear =>
      refine ⟨trivial, fun _ d _ hf => ?_⟩
      have hd := hf.mpr trivial
      refine ⟨trivial, trivial, iff_of_false (fun e => by cases e.1) not_false, ?_,
        fun _ => by rintro ⟨⟩, fun _ _ => .inr rfl⟩
      intro q l hq hl
      have hno : ¬l.Owner := fun ho => hq (Option.some.inj ((hl.mpr ho).2.symm.trans hd.2))
      exact iff_of_false (fun e => by cases e.1) hno
    | notify => exact ⟨Iff.rfl, fun _ h => absurd rfl h, fun _ h => h, fun _ _ _ => trivial⟩
    | cleared => exact ⟨trivial, not_false, fun _ => by rintro ⟨⟩, fun _ _ h => ⟨trivial, h⟩⟩
    | look own =>
      refine ⟨trivial, fun _ d _ hf => ?_⟩
      refine ⟨trivial, ?_, hf, fun _ _ _ => id, fun _ => by rintro ⟨⟩, fun _ => .inl⟩
      have hf : d.locked = true ∧ d.pid = some p ↔ own = true := hf
      change (d.locked && decide (d.pid = some p)) = own
      rw [Bool.eq_iff_iff, ← hf]
      simp
    | answer own r =>
      have hown : ∀ own : Bool, ¬(if own then Loc.held else .idle).Held ∧
          ((if own then Loc.held else .idle).Owner ↔ own = true) := by
        rintro (_ | _)
        · exact ⟨not_false, iff_of_false not_false (by rintro ⟨⟩)⟩
        · exact ⟨not_false, iff_of_true trivial rfl⟩
      exact ⟨trivial, (hown own).1, fun _ => by rintro ⟨⟩,
        fun _ _ h => ⟨trivial, h.trans (hown own).2.symm⟩⟩
  calls p l l' hi h := by
    cases l with
    | idle =>
      cases l' with
      | acquiresleep => exact ⟨not_false, fun _ h => h⟩
      | holdingsleep own =>
        cases own with
        | false => exact ⟨not_false, fun _ h => h.trans (iff_of_false not_false (by rintro ⟨⟩))⟩
        | true => cases h
      | idle | test | wait | take | taken | held | releasesleep | clear | notify | cleared | look
      | answer => cases h
    | held =>
      cases l' with
      | releasesleep => exact ⟨not_false, fun _ h => h⟩
      | holdingsleep own =>
        cases own with
        | false => cases h
        | true => exact ⟨not_false, fun _ h => h.trans (iff_of_true trivial rfl)⟩
      | idle | acquiresleep | test | wait | take | taken | held | clear | notify | cleared | look
      | answer => cases h
    | acquiresleep | test | wait | take | taken | releasesleep | clear | notify | cleared
    | holdingsleep | look | answer => cases hi

/-- The state in which nobody has called `acquiresleep` yet. -/
def start (Pid : Type) : State Pid Unit (Sleeplock Pid) Loc := .init .init fun _ => .idle

variable (h : run (step (code Pid)) (start Pid) as = some s)
include h

theorem holds_of_run :
    (spec Pid).Holds (code Pid) s := by
  refine spec_valid.holds_of_run (spec_valid.init trivial (fun _ => rfl) fun _ => ?_) h
  exact iff_of_false (fun e => by cases e.1) not_false

/-- At most one process holds the sleep-lock. -/
theorem owner_unique {p q : Pid}
    (hp : (s.loc p).Owner) (hq : (s.loc q).Owner) : p = q := by
  have hs := holds_of_run h
  have hp := ((hs.frame p).mpr hp).2
  have hq := ((hs.frame q).mpr hq).2
  exact Option.some.inj (hp.symm.trans hq)

/-- `holdingsleep` says whether the process holds the lock. -/
theorem holdingsleep_of_run {p : Pid}
    {own r : Bool} (hp : s.loc p = .answer own r) : r = true ↔ (s.loc p).Owner := by
  have hs := holds_of_run h
  have hlk : s.lk = some p := hs.holder (by simp [hp, code]) (by rw [hp]; trivial)
  have hpre := hs.pre p hlk
  rw [hp] at hpre ⊢
  rw [hpre]
  exact Iff.rfl

omit h

/-- Process `true` takes the lock, and then a process asks if it has it. -/
def askRun (p : Bool) : List (Act Bool Loc) :=
  .call true .acquiresleep :: List.replicate 4 (.next true) ++
    .call p (.holdingsleep p) :: List.replicate 2 (.next p)

theorem holdingsleep_askRun :
    (∃ s ∈ run (step (code Bool)) (start Bool) (askRun true), (s.loc true).Owner) ∧
    ∃ s ∈ run (step (code Bool)) (start Bool) (askRun false),
      s.data.locked = true ∧ ¬(s.loc false).Owner := by
  obtain ⟨s, hs, hp⟩ : ∃ s ∈ run (step (code Bool)) (start Bool) (askRun true),
    s.loc true = .answer true true := ⟨_, rfl, rfl⟩
  obtain ⟨t, ht, hq, hl⟩ : ∃ s ∈ run (step (code Bool)) (start Bool) (askRun false),
    s.loc false = .answer false false ∧ s.data.locked = true := ⟨_, rfl, rfl, rfl⟩
  exact ⟨⟨s, hs, (holdingsleep_of_run hs hp).mp rfl⟩,
    t, ht, hl, fun h => absurd ((holdingsleep_of_run ht hq).mpr h) Bool.false_ne_true⟩

include h

/-- Nobody is `SLEEPING` on a sleep-lock that is free, once the spinlock is. -/
theorem not_sleeping_of_free
    (hlk : s.lk = none) (hfree : s.data.locked = false) (p : Pid) : s.sleeping p = none := by
  cases hsl : s.sleeping p with
  | none => rfl
  | some ch =>
    have hwaits : s.data.locked = true := by
      refine (holds_of_run h).waits_of_free (fun q ch l ho => ?_) hlk hsl
      obtain rfl : l = .notify := ho
      exact ⟨trivial, by rintro _ _ ⟨⟩⟩
    rw [hfree] at hwaits
    cases hwaits

omit h

/-- **No wakeup is lost.** In every state that processes can reach which wait for a
condition or make it true: if the condition is true, both locks are free and no waker
has its `wakeup` to make, then nobody is `SLEEPING`. For the sleep-lock: at most one
process holds it, and if it is free and both locks are, nobody is `SLEEPING` on it. -/
theorem no_wakeup_lost :
    (∀ {D : Type} {cond : D → Bool} {d : D} {s : State Pid Unit D (Loop.Loc D)}
      {as : List (Act Pid (Loop.Loc D))},
      run (step (Loop.code Pid cond)) (.init d fun _ => .idle) as = some s →
      cond s.data = true → s.lk = none → s.ptable = none → (∀ q, ¬(s.loc q).Pending) →
      ∀ p, s.sleeping p = none) ∧
    ∀ {s : State Pid Unit (Sleeplock Pid) Loc} {as : List (Act Pid Loc)},
      run (step (code Pid)) (start Pid) as = some s →
      (∀ p q, (s.loc p).Owner → (s.loc q).Owner → p = q) ∧
      (s.data.locked = false → s.lk = none → s.ptable = none → ∀ p, s.sleeping p = none) := by
  refine ⟨fun h hcond _ _ hno p => Loop.not_sleeping_of_run h hcond hno p, fun h => ⟨?_, ?_⟩⟩
  · exact fun p q hp hq => owner_unique h hp hq
  · exact fun hfree hlk _ p => not_sleeping_of_free h hlk hfree p

/-- A waiter goes to sleep, and a waker wakes it up after it has released the lock. -/
def lateRun : List (Act Bool (Loop.Loc Bool)) :=
  .call true (.enter id) :: List.replicate 6 (.next true) ++
    .call false (.start (fun _ => true) true) :: List.replicate 6 (.next false)

theorem no_wakeup_lost_lateRun :
    ∃ s ∈ run (step (Loop.code Bool id)) (.init false fun _ => .idle) lateRun,
      s.stage true = .asleep ∧ s.sleeping true = none := by
  obtain ⟨s, hs, hst, hd, hl, hpt, hno⟩ :
      ∃ s ∈ run (step (Loop.code Bool id)) (.init false fun _ => .idle) lateRun,
        s.stage true = .asleep ∧ s.data = true ∧ s.lk = none ∧ s.ptable = none ∧
        ∀ q, ¬(s.loc q).Pending := by
    decide
  exact ⟨s, hs, hst, no_wakeup_lost.1 hs hd hl hpt hno true⟩

end Lock

end Xv6.Sleep
