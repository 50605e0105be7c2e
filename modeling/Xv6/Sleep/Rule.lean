import Xv6.Sleep.Thread

/-!
# A rule for processes that sleep and wake each other up

To show that no wakeup is lost one has to say three things about the code, and
`Xv6.Sleep.Spec` has a place for each:

* what holds of the data whenever `lk` is free (`Inv`), what the holder of `lk` knows
  at a location (`Pre`), and what a process knows at a location whether it holds `lk`
  or not (`Frame`), which no other process may spoil;
* for every channel, when it is right to sleep on it (`Waits`);
* and for every channel, at which locations a process has yet to call `wakeup` on it
  (`Owes`).

`Xv6.Sleep.Spec.Valid` are the conditions on the code, one for every kind of
instruction: a process goes to sleep only if it is right to, and an instruction after
which it is no longer right to sleep on a channel leads to a location that owes a
`wakeup` on it. **If the conditions hold, then a process that is `SLEEPING` on a channel
sleeps rightly, or some process owes the channel a `wakeup`**
(`Xv6.Sleep.Spec.Holds.waits_of_sleeping`), in every run
(`Xv6.Sleep.Spec.Valid.holds_of_run`).

The reason is that `sleep` takes `ptable.lock` before it releases `lk`. From the test
to that moment the data cannot change; from that moment to the one in which the
process is `SLEEPING` the data may change, but whoever changes it has to take
`ptable.lock` before it can look for sleepers.
-/

namespace Xv6.Sleep

open Lib Function

variable {Pid Chan D L : Type}

/-! ### What is said about the code -/

/-- Annotations of the code. -/
structure Spec (Pid Chan D L : Type) where
  /-- What holds of the data while `lk` is free. -/
  Inv : D → Prop
  /-- The locations at which `lk` is held. -/
  Held : L → Prop
  /-- What the process knows at a location at which it holds `lk`. -/
  Pre : Pid → L → D → Prop
  /-- What the process knows at a location, whoever holds `lk`. -/
  Frame : Pid → L → D → Prop
  /-- When it is right to sleep on a channel. -/
  Waits : Chan → D → Prop
  /-- The locations at which a `wakeup` on the channel has yet to be called. -/
  Owes : Chan → L → Prop

/-- What an update has to do, from `d` at `l` to `d'` at `l'`. -/
structure Spec.Updates (σ : Spec Pid Chan D L) (p : Pid) (l l' : L) (d d' : D) : Prop where
  held : σ.Held l'
  pre : σ.Pre p l' d'
  frame : σ.Frame p l' d'
  others : ∀ q l'', q ≠ p → σ.Frame q l'' d → σ.Frame q l'' d'
  owes : ∀ ch, σ.Owes ch l → σ.Owes ch l'
  waits : ∀ ch, σ.Waits ch d → σ.Waits ch d' ∨ σ.Owes ch l'

/-- The condition on the instruction at the location `l`. -/
def Spec.Allows (σ : Spec Pid Chan D L) (p : Pid) (l : L) : Instr Chan D L → Prop
  | .acquire k => ¬σ.Held l ∧ σ.Held k ∧ (∀ ch, σ.Owes ch l → σ.Owes ch k) ∧
      ∀ d, σ.Inv d → σ.Frame p l d → σ.Pre p k d ∧ σ.Frame p k d
  | .release k => σ.Held l ∧ ¬σ.Held k ∧ (∀ ch, σ.Owes ch l → σ.Owes ch k) ∧
      ∀ d, σ.Pre p l d → σ.Frame p l d → σ.Inv d ∧ σ.Frame p k d
  | .update f => σ.Held l ∧
      ∀ b d, σ.Pre p l d → σ.Frame p l d → σ.Updates p l (f b d).2 d (f b d).1
  | .wakeup ch k => (σ.Held l ↔ σ.Held k) ∧ (∀ ch', ch' ≠ ch → σ.Owes ch' l → σ.Owes ch' k) ∧
      (∀ d, σ.Frame p l d → σ.Frame p k d) ∧ ∀ d, σ.Held l → σ.Pre p l d → σ.Pre p k d
  | .sleep ch k => σ.Held l ∧ σ.Held k ∧ (∀ ch', σ.Owes ch' l → σ.Owes ch' k) ∧
      (∀ d, σ.Pre p l d → σ.Inv d ∧ σ.Waits ch d) ∧
      ∀ d, σ.Inv d → σ.Frame p l d → σ.Pre p k d ∧ σ.Frame p k d
  | .rest => ¬σ.Held l ∧ ∀ ch, ¬σ.Owes ch l

/-- The conditions on the code. -/
structure Spec.Valid (σ : Spec Pid Chan D L) (c : Code Pid Chan D L) : Prop where
  allows : ∀ p l, σ.Allows p l (c.instr p l)
  calls : ∀ p l l', c.instr p l = .rest → c.calls p l l' = true →
    ¬σ.Held l' ∧ ∀ d, σ.Frame p l d → σ.Frame p l' d

/-! ### What holds of the runs -/

/-- At these stages of an instruction at which `lk` is held, it is held still. -/
def Stage.Keeps : Stage → Prop
  | run | wakeup | woke | unlock => True
  | doze | sched | asleep | resume | relock => False

/-- At these stages the process holds `ptable.lock`. -/
def Stage.Ptable : Stage → Prop
  | wakeup | woke | unlock | doze | sched | resume => True
  | run | asleep | relock => False

/-- The stages that belong to an instruction. -/
def Stage.In : Stage → Instr Chan D L → Prop
  | run, _ => True
  | wakeup, .wakeup _ _ | woke, .wakeup _ _ => True
  | unlock, .sleep _ _ | doze, .sleep _ _ | sched, .sleep _ _ | asleep, .sleep _ _ => True
  | resume, .sleep _ _ | relock, .sleep _ _ => True
  | _, _ => False

section

variable (σ : Spec Pid Chan D L) (c : Code Pid Chan D L)

/-- The process has yet to run `wakeup1` on the channel. -/
def Spec.Owing (s : State Pid Chan D L) (ch : Chan) (q : Pid) : Prop :=
  σ.Owes ch (s.loc q) ∧ (s.stage q = .woke → ∀ k, c.instr q (s.loc q) ≠ .wakeup ch k)

/-- What holds in every state. -/
structure Spec.Holds (s : State Pid Chan D L) : Prop where
  stage : ∀ p, (s.stage p).In (c.instr p (s.loc p))
  lk : ∀ p, s.lk = some p ↔ (s.stage p).Keeps ∧ σ.Held (s.loc p)
  ptable : ∀ p, s.ptable = some p ↔ (s.stage p).Ptable
  inv : s.lk = none → σ.Inv s.data
  pre : ∀ p, s.lk = some p → σ.Pre p (s.loc p) s.data
  frame : ∀ p, σ.Frame p (s.loc p) s.data
  /-- Who is `SLEEPING` is in a `sleep` on that channel. -/
  sleeping : ∀ p ch, s.sleeping p = some ch → (s.stage p = .sched ∨ s.stage p = .asleep) ∧
    ∃ k, c.instr p (s.loc p) = .sleep ch k
  /-- Who is `SLEEPING`, or about to be, is so rightly or will be woken up. -/
  waits : ∀ p ch k, c.instr p (s.loc p) = .sleep ch k →
    s.stage p = .doze ∨ s.sleeping p = some ch → σ.Waits ch s.data ∨ ∃ q, σ.Owing c s ch q

end

/-! ### Steps -/

variable [DecidableEq Pid] [DecidableEq Chan] {c : Code Pid Chan D L} {s t : State Pid Chan D L}
  {p : Pid}

/-- What an action can do. -/
inductive Step (c : Code Pid Chan D L) (s : State Pid Chan D L) : State Pid Chan D L → Prop
  | call (p : Pid) (l : L) (hi : c.instr p (s.loc p) = .rest)
      (hl : c.calls p (s.loc p) l = true) : Step c s (s.goto p l)
  | acquire (p : Pid) (k : L) (hlk : s.lk = none)
      (hi : c.instr p (s.loc p) = .acquire k ∨
        (∃ ch, c.instr p (s.loc p) = .sleep ch k) ∧ s.stage p = .relock) :
      Step c s ({ s with lk := some p }.goto p k)
  | release (p : Pid) (k : L) (hi : c.instr p (s.loc p) = .release k) :
      Step c s ({ s with lk := none }.goto p k)
  | update (p : Pid) (f : Bool → D → D × L) (hi : c.instr p (s.loc p) = .update f) :
      Step c s ({ s with data := (f (s.killed p) s.data).1 }.goto p (f (s.killed p) s.data).2)
  /-- Take `ptable.lock`. -/
  | take (p : Pid) (st : Stage) (hpt : s.ptable = none)
      (hi : ((∃ ch k, c.instr p (s.loc p) = .wakeup ch k) ∧ s.stage p = .run ∧ st = .wakeup) ∨
        ((∃ ch k, c.instr p (s.loc p) = .sleep ch k) ∧ s.stage p = .run ∧ st = .unlock) ∨
        ((∃ ch k, c.instr p (s.loc p) = .sleep ch k) ∧ s.stage p = .asleep ∧
          s.sleeping p = none ∧ st = .resume)) :
      Step c s ({ s with ptable := some p }.enter p st)
  | wakeup1 (p : Pid) (ch : Chan) (k : L) (hi : c.instr p (s.loc p) = .wakeup ch k)
      (hst : s.stage p = .wakeup) : Step c s ((s.wakeup1 ch).enter p .woke)
  | woke (p : Pid) (ch : Chan) (k : L) (hi : c.instr p (s.loc p) = .wakeup ch k)
      (hst : s.stage p = .woke) : Step c s ({ s with ptable := none }.goto p k)
  | unlock (p : Pid) (ch : Chan) (k : L) (hi : c.instr p (s.loc p) = .sleep ch k)
      (hst : s.stage p = .unlock) : Step c s ({ s with lk := none }.enter p .doze)
  | doze (p : Pid) (ch : Chan) (k : L) (hi : c.instr p (s.loc p) = .sleep ch k)
      (hst : s.stage p = .doze) :
      Step c s ({ s with sleeping := update s.sleeping p (some ch) }.enter p .sched)
  /-- Release `ptable.lock` in `sleep`. -/
  | drop (p : Pid) (ch : Chan) (k : L) (st : Stage) (hi : c.instr p (s.loc p) = .sleep ch k)
      (hst : s.stage p = .sched ∧ st = .asleep ∨ s.stage p = .resume ∧ st = .relock) :
      Step c s ({ s with ptable := none }.enter p st)
  | kill (p : Pid) : Step c s { s with
      killed := update s.killed p true
      sleeping := update s.sleeping p none }

section

omit [DecidableEq Chan]

theorem acquire_eq_ok {k : L} :
    s.acquire p k = .ok t ↔ s.lk = none ∧ t = { s with lk := some p }.goto p k := by
  rw [State.acquire]
  cases s.lk with
  | none => simp [eq_comm]
  | some q =>
    dsimp only
    split <;> simp

theorem acquirePtable_eq_ok {st : Stage} :
    s.acquirePtable p st = .ok t ↔ s.ptable = none ∧ t = { s with ptable := some p }.enter p st := by
  rw [State.acquirePtable]
  cases s.ptable with
  | none => simp [eq_comm]
  | some q =>
    dsimp only
    split <;> simp

theorem release_eq_ok {f : State Pid Chan D L → State Pid Chan D L} :
    (s.release p).map f = .ok t ↔ s.lk = some p ∧ t = f { s with lk := none } := by
  rw [State.release]
  split <;> simp [Effect.map, *, eq_comm]

theorem releasePtable_eq_ok {f : State Pid Chan D L → State Pid Chan D L} :
    (s.releasePtable p).map f = .ok t ↔ s.ptable = some p ∧ t = f { s with ptable := none } := by
  rw [State.releasePtable]
  split <;> simp [Effect.map, *, eq_comm]

end

/-- **Every action is a step.** -/
theorem Step.of_step {a : Act Pid L} (h : step c s a = some t) :
    Step c s t := by
  have h : effect c s a = .ok t := Effect.toOption_eq_some.mp h
  cases a with
  | call p l =>
    rw [effect] at h
    split at h
    next hi =>
      split at h
      next hl =>
        cases h
        exact .call p l hi hl
      next => cases h
    next => cases h
  | kill p =>
    rw [effect] at h
    split at h
    next =>
      cases h
      exact .kill p
    next => cases h
  | next p =>
    rw [effect] at h
    split at h
    next k hi =>
      obtain ⟨hlk, rfl⟩ := acquire_eq_ok.mp h
      exact .acquire p k hlk (.inl hi)
    next k hi =>
      obtain ⟨-, rfl⟩ := release_eq_ok.mp h
      exact .release p k hi
    next f hi =>
      cases h
      exact .update p f hi
    next ch k hi =>
      rw [State.inWakeup] at h
      split at h
      next hst =>
        obtain ⟨hpt, rfl⟩ := acquirePtable_eq_ok.mp h
        exact .take p .wakeup hpt (.inl ⟨⟨ch, k, hi⟩, hst, rfl⟩)
      next hst =>
        cases h
        exact .wakeup1 p ch k hi hst
      next hst =>
        obtain ⟨-, rfl⟩ := releasePtable_eq_ok.mp h
        exact .woke p ch k hi hst
      next => cases h
    next ch k hi =>
      rw [State.inSleep] at h
      split at h
      next hst =>
        obtain ⟨hpt, rfl⟩ := acquirePtable_eq_ok.mp h
        exact .take p .unlock hpt (.inr (.inl ⟨⟨ch, k, hi⟩, hst, rfl⟩))
      next hst =>
        obtain ⟨-, rfl⟩ := release_eq_ok.mp h
        exact .unlock p ch k hi hst
      next hst =>
        cases h
        exact .doze p ch k hi hst
      next hst =>
        obtain ⟨-, rfl⟩ := releasePtable_eq_ok.mp h
        exact .drop p ch k .asleep hi (.inl ⟨hst, rfl⟩)
      next hst =>
        split at h
        next hsl =>
          obtain ⟨hpt, rfl⟩ := acquirePtable_eq_ok.mp h
          exact .take p .resume hpt (.inr (.inr ⟨⟨ch, k, hi⟩, hst, hsl, rfl⟩))
        next => cases h
      next hst =>
        obtain ⟨-, rfl⟩ := releasePtable_eq_ok.mp h
        exact .drop p ch k .relock hi (.inr ⟨hst, rfl⟩)
      next hst =>
        obtain ⟨hlk, rfl⟩ := acquire_eq_ok.mp h
        exact .acquire p k hlk (.inr ⟨⟨ch, hi⟩, hst⟩)
      next => cases h
      next => cases h
    next => cases h

/-! ### The invariant is kept -/

section

variable {σ : Spec Pid Chan D L} {s t : State Pid Chan D L} {p : Pid} {st : Stage} {l : L}
  {ch : Chan}

omit [DecidableEq Chan] in
/-- Who has yet to call `wakeup` has so after a step of another process. -/
theorem Spec.Owing.of_ne {q : Pid} (h : σ.Owing c s ch q) (hq : q ≠ p)
    (hstage : t.stage = update s.stage p st) (hloc : t.loc = update s.loc p l) :
    σ.Owing c t ch q := by
  rwa [Spec.Owing, hstage, hloc, update_of_ne hq, update_of_ne hq]

omit [DecidableEq Pid] [DecidableEq Chan] in
/-- Who is `SLEEPING`, or about to be, at the stage `st` of the instruction at `l`, is so rightly or
will be woken up. -/
def Spec.Sleepy (σ : Spec Pid Chan D L) (c : Code Pid Chan D L) (t : State Pid Chan D L) (p : Pid)
    (st : Stage) (l : L) : Prop :=
  ∀ ch, (t.sleeping p = some ch → (st = .sched ∨ st = .asleep) ∧ ∃ k, c.instr p l = .sleep ch k) ∧
    ∀ k, c.instr p l = .sleep ch k → st = .doze ∨ t.sleeping p = some ch →
      σ.Waits ch t.data ∨ ∃ q, σ.Owing c t ch q

omit [DecidableEq Pid] [DecidableEq Chan] in
theorem Spec.sleepy_of_awake (hst : st ≠ .doze) (h : ∀ ch, t.sleeping p ≠ some ch) :
    σ.Sleepy c t p st l := fun ch =>
  ⟨fun e => absurd e (h ch), fun _ _ hor => hor.elim (absurd · hst) (absurd · (h ch))⟩

omit [DecidableEq Chan] in
/-- **A step of process `p`**, which leads it to the stage `st` of the instruction at `l`:
what is to be shown is about `p`, and about what `p` does to the others. As a rule it does not
change the data, nor who else sleeps or has a lock. -/
structure Spec.Moves (σ : Spec Pid Chan D L) (c : Code Pid Chan D L) (s t : State Pid Chan D L)
    (p : Pid) (st : Stage) (l : L) : Prop where
  stage : t.stage = update s.stage p st := by rfl
  loc : t.loc = update s.loc p l := by rfl
  at_in : st.In (c.instr p l)
  lk : t.lk = some p ↔ st.Keeps ∧ σ.Held l
  lk' : ∀ q ≠ p, t.lk = some q ↔ s.lk = some q := by exact fun _ _ => Iff.rfl
  ptable : t.ptable = some p ↔ st.Ptable
  ptable' : ∀ q ≠ p, t.ptable = some q ↔ s.ptable = some q := by exact fun _ _ => Iff.rfl
  data : s.lk ≠ some p → t.data = s.data := by exact fun _ => rfl
  inv : t.lk = none → s.lk ≠ none → σ.Inv t.data := by exact fun e e' => absurd e e'
  pre : t.lk = some p → σ.Pre p l t.data
  frame : σ.Frame p l t.data
  frame' : ∀ q ≠ p, ∀ l', σ.Frame q l' s.data → σ.Frame q l' t.data := by exact fun _ _ _ => id
  sleeping' : ∀ q ≠ p, ∀ ch, t.sleeping q = some ch → s.sleeping q = some ch := by
    exact fun _ _ _ => id
  waits : ∀ ch, σ.Waits ch s.data → σ.Waits ch t.data ∨ σ.Owing c t ch p := by exact fun _ => .inl
  owes : ∀ ch, σ.Owing c s ch p → σ.Owing c t ch p ∨
    ∀ q ≠ p, s.stage q ≠ .doze ∧ t.sleeping q ≠ some ch
  self : σ.Sleepy c t p st l

omit [DecidableEq Chan] in
theorem Spec.Holds.move (h : σ.Holds c s) (st : Stage) (hm : σ.Moves c s t p st l) :
    σ.Holds c t := by
  have hp : t.stage p = st ∧ t.loc p = l := by
    rw [hm.stage, hm.loc, update_self, update_self]
    exact ⟨rfl, rfl⟩
  have hq : ∀ {q}, q ≠ p → t.stage q = s.stage q ∧ t.loc q = s.loc q := by
    intro q hne
    rw [hm.stage, hm.loc, update_of_ne hne, update_of_ne hne]
    exact ⟨rfl, rfl⟩
  refine ⟨?_, ?_, ?_, fun ht => ?_, ?_, ?_, ?_, ?_⟩
  case refine_4 =>
    by_cases hs : s.lk = none
    · rw [hm.data (by rw [hs]; exact nofun)]
      exact h.inv hs
    · exact hm.inv ht hs
  all_goals intro q; by_cases hne : q = p
  · subst hne
    rw [hp.1, hp.2]
    exact hm.at_in
  · rw [(hq hne).1, (hq hne).2]
    exact h.stage q
  · subst hne
    rw [hp.1, hp.2]
    exact hm.lk
  · rw [(hq hne).1, (hq hne).2, hm.lk' q hne]
    exact h.lk q
  · subst hne
    rw [hp.1]
    exact hm.ptable
  · rw [(hq hne).1, hm.ptable' q hne]
    exact h.ptable q
  · subst hne
    rw [hp.2]
    exact hm.pre
  · intro hlkq
    have hs := (hm.lk' q hne).mp hlkq
    rw [(hq hne).2, hm.data (by rw [hs]; exact fun e => hne (Option.some.inj e))]
    exact h.pre q hs
  · subst hne
    rw [hp.2]
    exact hm.frame
  · rw [(hq hne).2]
    exact hm.frame' q hne _ (h.frame q)
  · subst hne
    rw [hp.1, hp.2]
    exact fun ch => (hm.self ch).1
  · intro ch hch
    rw [(hq hne).1, (hq hne).2]
    exact h.sleeping q ch (hm.sleeping' q hne ch hch)
  · subst hne
    rw [hp.1, hp.2]
    exact fun ch => (hm.self ch).2
  · intro ch k hi hor
    rw [(hq hne).2] at hi
    rw [(hq hne).1] at hor
    rcases h.waits q ch k hi (hor.imp_right (hm.sleeping' q hne ch)) with hw | ⟨q', hq'⟩
    · rcases hm.waits ch hw with hw | ho
      · exact .inl hw
      · exact .inr ⟨p, ho⟩
    · by_cases hq'p : q' = p
      · subst hq'p
        rcases hm.owes ch hq' with ho | hno
        · exact .inr ⟨q', ho⟩
        · exact absurd hor (not_or.mpr (hno q hne))
      · exact .inr ⟨q', hq'.of_ne hq'p hm.stage hm.loc⟩

omit [DecidableEq Pid] [DecidableEq Chan] in
/-- Only `wakeup` and `sleep` have stages. -/
theorem Spec.Holds.run (h : σ.Holds c s) (hw : ∀ ch k, c.instr p (s.loc p) ≠ .wakeup ch k)
    (hs : ∀ ch k, c.instr p (s.loc p) ≠ .sleep ch k) : s.stage p = .run := by
  have hst := h.stage p
  cases hi : c.instr p (s.loc p) with
  | wakeup ch k => exact absurd hi (hw ch k)
  | sleep ch k => exact absurd hi (hs ch k)
  | acquire | release | update | rest =>
    rw [hi] at hst
    cases he : s.stage p with
    | run => rfl
    | wakeup | woke | unlock | doze | sched | asleep | resume | relock =>
      rw [he] at hst
      exact absurd hst not_false

omit [DecidableEq Pid] [DecidableEq Chan] in
/-- Who is not in `sleep` is not `SLEEPING`. -/
theorem Spec.Holds.awake (h : σ.Holds c s)
    (hp : (∀ ch k, c.instr p (s.loc p) ≠ .sleep ch k) ∨ s.stage p ≠ .sched ∧ s.stage p ≠ .asleep)
    (ch : Chan) : s.sleeping p ≠ some ch := by
  intro hsl
  obtain ⟨hst, k, hi⟩ := h.sleeping p ch hsl
  rcases hp with hp | ⟨hp, hp'⟩
  · exact hp ch k hi
  · exact hst.elim hp hp'

section

omit [DecidableEq Chan]

omit [DecidableEq Pid] in
/-- Somebody takes a lock. -/
theorem take_iff {x : Option Pid} (h : x = none) : ∀ q ≠ p, some p = some q ↔ x = some q := by
  subst h
  exact fun q hq => iff_of_false (fun e => hq (Option.some.inj e).symm) nofun

omit [DecidableEq Pid] in
/-- Somebody gives a lock back. -/
theorem drop_iff {x : Option Pid} (h : x = some p) : ∀ q ≠ p, none = some q ↔ x = some q := by
  subst h
  exact fun q hq => iff_of_false nofun fun e => hq (Option.some.inj e).symm

/-- A process that runs at its location is not in the middle of a call, and its
obligations are those of the location. -/
theorem Spec.Owing.goto (h : σ.Owes ch l) (hstage : t.stage = update s.stage p .run)
    (hloc : t.loc = update s.loc p l) : σ.Owing c t ch p := by
  refine ⟨?_, ?_⟩
  · rwa [hloc, update_self]
  · rw [hstage, update_self]
    rintro ⟨⟩

/-- A process inside of a call keeps its obligations. -/
theorem Spec.Owing.enter (h : σ.Owing c s ch p) (hst : st ≠ .woke)
    (hstage : t.stage = update s.stage p st) (hloc : t.loc = s.loc) : σ.Owing c t ch p := by
  refine ⟨?_, ?_⟩
  · rw [hloc]
    exact h.1
  · rw [hstage, update_self]
    exact fun e => absurd e hst

/-- A step inside of a call spoils no obligation. -/
theorem Spec.Owing.of_enter (h : ∃ q, σ.Owing c s ch q) (hst : st ≠ .woke)
    (hstage : t.stage = update s.stage p st) (hloc : t.loc = s.loc) : ∃ q, σ.Owing c t ch q := by
  obtain ⟨q, hq⟩ := h
  refine ⟨q, ?_⟩
  by_cases hqp : q = p
  · subst hqp
    exact hq.enter hst hstage hloc
  · exact hq.of_ne hqp hstage (hloc.trans (update_eq_self p s.loc).symm)

end

omit [DecidableEq Pid] in
theorem wakeup1_sleeping {ch' : Chan} {q : Pid} :
    (s.wakeup1 ch).sleeping q = some ch' ↔ s.sleeping q = some ch' ∧ ch' ≠ ch := by
  simp only [State.wakeup1]
  split
  next h => simp [h, eq_comm]
  next h =>
    refine ⟨fun e => ⟨e, ?_⟩, And.left⟩
    rintro rfl
    exact h e

theorem Spec.Valid.holds_step (hv : σ.Valid c) (h : σ.Holds c s) (hs : Step c s t) : σ.Holds c t := by
  have hallow := fun p => hv.allows p (s.loc p)
  have hloc : ∀ p, s.loc = update s.loc p (s.loc p) := fun p => (update_eq_self p s.loc).symm
  cases hs with
  | call p l hi hl =>
    have hrun : s.stage p = .run := h.run (by simp [hi]) (by simp [hi])
    have hrest := hallow p
    rw [hi] at hrest
    obtain ⟨hheld, hframe⟩ := hv.calls p _ l hi hl
    have hlk := h.lk p
    have hpt := h.ptable p
    rw [hrun] at hlk hpt
    exact h.move .run (l := l)
      { at_in := trivial
        lk := hlk.trans (and_congr_right fun _ => iff_of_false hrest.1 hheld)
        ptable := hpt
        pre := fun e => absurd (hlk.mp e).2 hrest.1
        frame := hframe _ (h.frame p)
        owes := fun ch ho => absurd ho.1 (hrest.2 ch)
        self := sleepy_of_awake (by simp) (h.awake (.inl (by simp [hi]))) }
  | acquire p k hlk hi =>
    -- In `acquire` itself, and at the end of `sleep`.
    obtain ⟨hst, hheld, howes, hpre, hawake⟩ : ¬(s.stage p).Ptable ∧ σ.Held k ∧
        (∀ ch, σ.Owes ch (s.loc p) → σ.Owes ch k) ∧
        (∀ d, σ.Inv d → σ.Frame p (s.loc p) d → σ.Pre p k d ∧ σ.Frame p k d) ∧
        ∀ ch, s.sleeping p ≠ some ch := by
      have hallow := hallow p
      rcases hi with hi | ⟨⟨ch, hi⟩, hst⟩
      · have hrun : s.stage p = .run := h.run (by simp [hi]) (by simp [hi])
        rw [hi] at hallow
        exact ⟨by rw [hrun]; exact not_false, hallow.2.1, hallow.2.2.1, hallow.2.2.2,
          h.awake (.inl (by simp [hi]))⟩
      · rw [hi] at hallow
        exact ⟨by rw [hst]; exact not_false, hallow.2.1, hallow.2.2.1, hallow.2.2.2.2,
          h.awake (.inr (by simp [hst]))⟩
    obtain ⟨hpre, hframe⟩ := hpre _ (h.inv hlk) (h.frame p)
    exact h.move .run (l := k)
      { at_in := trivial
        lk := iff_of_true rfl ⟨trivial, hheld⟩
        lk' := take_iff hlk
        ptable := iff_of_false (fun e => hst ((h.ptable p).mp e)) not_false
        inv := nofun
        pre := fun _ => hpre
        frame := hframe
        owes := fun ch ho => .inl (.goto (howes ch ho.1) rfl rfl)
        self := sleepy_of_awake (by simp) hawake }
  | release p k hi =>
    have hrun : s.stage p = .run := h.run (by simp [hi]) (by simp [hi])
    have hallow := hallow p
    rw [hi] at hallow
    obtain ⟨hheld, hheld', howes, hpre⟩ := hallow
    have hlk := (h.lk p).mpr ⟨by rw [hrun]; trivial, hheld⟩
    have hpt := h.ptable p
    rw [hrun] at hpt
    obtain ⟨hinv, hframe⟩ := hpre _ (h.pre p hlk) (h.frame p)
    exact h.move .run (l := k)
      { at_in := trivial
        lk := iff_of_false nofun fun e => hheld' e.2
        lk' := drop_iff hlk
        ptable := hpt
        inv := fun _ _ => hinv
        pre := nofun
        frame := hframe
        owes := fun ch ho => .inl (.goto (howes ch ho.1) rfl rfl)
        self := sleepy_of_awake (by simp) (h.awake (.inl (by simp [hi]))) }
  | update p f hi =>
    have hrun : s.stage p = .run := h.run (by simp [hi]) (by simp [hi])
    have hallow := hallow p
    rw [hi] at hallow
    have hlk := (h.lk p).mpr ⟨by rw [hrun]; trivial, hallow.1⟩
    have hpt := h.ptable p
    rw [hrun] at hpt
    have hup := hallow.2 (s.killed p) s.data (h.pre p hlk) (h.frame p)
    exact h.move .run (l := (f (s.killed p) s.data).2)
      { at_in := trivial
        lk := iff_of_true hlk ⟨trivial, hup.held⟩
        ptable := hpt
        data := fun hne => absurd hlk hne
        pre := fun _ => hup.pre
        frame := hup.frame
        frame' := fun q hq l' => hup.others q l' hq
        waits := fun ch hw => (hup.waits ch hw).imp_right fun ho => .goto ho rfl rfl
        owes := fun ch ho => .inl (.goto (hup.owes ch ho.1) rfl rfl)
        self := sleepy_of_awake (by simp) (h.awake (.inl (by simp [hi]))) }
  | take p st hpt hi =>
    obtain ⟨hin, hkeeps, hst, hne, hawake, hdoze⟩ : st.In (c.instr p (s.loc p)) ∧
        ((s.stage p).Keeps ↔ st.Keeps) ∧ st.Ptable ∧ st ≠ .woke ∧
        (∀ ch, s.sleeping p ≠ some ch) ∧ st ≠ .doze := by
      rcases hi with ⟨⟨ch, k, hi⟩, hst, rfl⟩ | ⟨⟨ch, k, hi⟩, hst, rfl⟩ | ⟨⟨ch, k, hi⟩, hst, hsl, rfl⟩
      · rw [hi, hst]
        exact ⟨trivial, Iff.rfl, trivial, by simp, h.awake (.inl (by simp [hi])), by simp⟩
      · rw [hi, hst]
        exact ⟨trivial, Iff.rfl, trivial, by simp, h.awake (.inr (by simp [hst])), by simp⟩
      · rw [hi, hst]
        exact ⟨trivial, Iff.rfl, trivial, by simp, by simp [hsl], by simp⟩
    exact h.move st
      { loc := hloc p
        at_in := hin
        lk := (h.lk p).trans (and_congr_left fun _ => hkeeps)
        ptable := iff_of_true rfl hst
        ptable' := take_iff hpt
        pre := h.pre p
        frame := h.frame p
        owes := fun ch ho => .inl (ho.enter hne rfl rfl)
        self := sleepy_of_awake hdoze hawake }
  | wakeup1 p ch k hi hst =>
    have hlk := h.lk p
    have hpt := h.ptable p
    rw [hst] at hlk hpt
    refine h.move .woke
      { loc := hloc p
        at_in := by rw [hi]; trivial
        lk := hlk
        ptable := hpt
        pre := h.pre p
        frame := h.frame p
        sleeping' := fun q _ ch' e => (wakeup1_sleeping.mp e).1
        owes := fun ch' ho => ?_
        self := sleepy_of_awake (by simp) fun ch' e =>
          h.awake (p := p) (.inl (by simp [hi])) ch' (wakeup1_sleeping.mp e).1 }
    by_cases hch : ch' = ch
    · refine .inr fun q hq => ⟨fun e => hq ?_, fun e => (wakeup1_sleeping.mp e).2 hch⟩
      -- Nobody is between the two locks while this process holds `ptable.lock`.
      have hother := (h.ptable q).mpr (by rw [e]; trivial)
      exact Option.some.inj (hother.symm.trans (hpt.mpr trivial))
    · refine .inl ⟨ho.1, fun _ k' e => hch ?_⟩
      rw [show ((s.wakeup1 ch).enter p .woke).loc = s.loc from rfl, hi] at e
      cases e
      rfl
  | woke p ch k hi hst =>
    have hallow := hallow p
    rw [hi] at hallow
    obtain ⟨hheld, howes, hframe, hpre⟩ := hallow
    have hlk := h.lk p
    rw [hst] at hlk
    refine h.move .run (l := k)
      { at_in := trivial
        lk := hlk.trans (and_congr Iff.rfl hheld)
        ptable := iff_of_false nofun not_false
        ptable' := drop_iff ((h.ptable p).mpr (by rw [hst]; trivial))
        pre := fun e => hpre _ (hlk.mp e).2 (h.pre p e)
        frame := hframe _ (h.frame p)
        owes := fun ch' ho => ?_
        self := sleepy_of_awake (by simp) (h.awake (.inl (by simp [hi]))) }
    have hne : ch' ≠ ch := by
      rintro rfl
      exact ho.2 hst k hi
    exact .inl (.goto (howes ch' hne ho.1) rfl rfl)
  | unlock p ch k hi hst =>
    have hallow := hallow p
    rw [hi] at hallow
    obtain ⟨hheld, -, -, hpre, -⟩ := hallow
    have hlk := (h.lk p).mpr ⟨by rw [hst]; trivial, hheld⟩
    obtain ⟨hinv, hwaits⟩ := hpre _ (h.pre p hlk)
    refine h.move .doze
      { loc := hloc p
        at_in := by rw [hi]; trivial
        lk := iff_of_false nofun fun e => e.1
        lk' := drop_iff hlk
        ptable := iff_of_true ((h.ptable p).mpr (by rw [hst]; trivial)) trivial
        inv := fun _ _ => hinv
        pre := nofun
        frame := h.frame p
        owes := fun ch' ho => .inl (ho.enter (by simp) rfl rfl)
        self := fun ch' => ⟨fun e => absurd e (h.awake (.inr (by simp [hst])) ch'),
          fun k' hi' _ => .inl ?_⟩ }
    rw [hi] at hi'
    cases hi'
    exact hwaits
  | doze p ch k hi hst =>
    have hlk := h.lk p
    rw [hst] at hlk
    refine h.move .sched
      { loc := hloc p
        at_in := by rw [hi]; trivial
        lk := hlk
        ptable := iff_of_true ((h.ptable p).mpr (by rw [hst]; trivial)) trivial
        pre := h.pre p
        frame := h.frame p
        sleeping' := fun q hq ch' e => by rwa [← update_of_ne hq (some ch) s.sleeping]
        owes := fun ch' ho => .inl (ho.enter (by simp) rfl rfl)
        self := fun ch' => ⟨fun e => ?_, fun k' hi' _ => (h.waits p ch' k' hi' (.inl hst)).imp_right
          fun ho => Spec.Owing.of_enter ho (p := p) (by simp) rfl rfl⟩ }
    change update s.sleeping p (some ch) p = some ch' at e
    rw [update_self] at e
    cases e
    exact ⟨.inl rfl, k, hi⟩
  | drop p ch k st hi hst =>
    have hpt : s.ptable = some p := by
      refine (h.ptable p).mpr ?_
      rcases hst with ⟨e, -⟩ | ⟨e, -⟩ <;> rw [e] <;> trivial
    obtain ⟨hin, hkeeps, hst', hne, hdoze, hsl⟩ : st.In (c.instr p (s.loc p)) ∧
        ((s.stage p).Keeps ↔ st.Keeps) ∧ ¬st.Ptable ∧ st ≠ .woke ∧ st ≠ .doze ∧
        ∀ ch, s.sleeping p = some ch → st = .sched ∨ st = .asleep := by
      rcases hst with ⟨hst, rfl⟩ | ⟨hst, rfl⟩
      · rw [hi, hst]
        exact ⟨trivial, Iff.rfl, not_false, by simp, by simp, fun _ _ => .inr rfl⟩
      · rw [hi, hst]
        exact ⟨trivial, Iff.rfl, not_false, by simp, by simp,
          fun ch e => absurd e (h.awake (.inr (by simp [hst])) ch)⟩
    exact h.move st
      { loc := hloc p
        at_in := hin
        lk := (h.lk p).trans (and_congr_left fun _ => hkeeps)
        ptable := iff_of_false nofun hst'
        ptable' := drop_iff hpt
        pre := h.pre p
        frame := h.frame p
        owes := fun ch' ho => .inl (ho.enter hne rfl rfl)
        self := fun ch' => ⟨fun e => ⟨hsl ch' e, (h.sleeping p ch' e).2⟩, fun k' hi' hor =>
          (h.waits p ch' k' hi' (.inr (hor.resolve_left hdoze))).imp_right fun ho =>
            Spec.Owing.of_enter ho (p := p) hne rfl rfl⟩ }
  | kill p =>
    have hsl : ∀ q ch, update s.sleeping p none q = some ch → s.sleeping q = some ch := by
      intro q ch e
      rw [update_apply] at e
      split at e
      · cases e
      · exact e
    exact ⟨h.stage, h.lk, h.ptable, h.inv, h.pre, h.frame, fun q ch e => h.sleeping q ch (hsl q ch e),
      fun q ch k hi hor => h.waits q ch k hi (hor.imp_right (hsl q ch))⟩

/-! ### The rule -/

omit [DecidableEq Pid] [DecidableEq Chan] in
/-- The invariant holds initially. -/
theorem Spec.Valid.init (hv : σ.Valid c) {d : D} {l₀ : Pid → L} (hinv : σ.Inv d)
    (hrest : ∀ p, c.instr p (l₀ p) = .rest) (hframe : ∀ p, σ.Frame p (l₀ p) d) :
    σ.Holds c (State.init d l₀) where
  stage _ := trivial
  lk p := by
    have := hv.allows p (l₀ p)
    rw [hrest] at this
    exact iff_of_false (by rintro ⟨⟩) fun e => this.1 e.2
  ptable _ := iff_of_false (by rintro ⟨⟩) not_false
  inv _ := hinv
  pre _ := by rintro ⟨⟩
  frame := hframe
  sleeping _ _ := by rintro ⟨⟩
  waits p ch k hi := by
    rw [show (State.init d l₀ : State Pid Chan D L).loc p = l₀ p from rfl, hrest] at hi
    cases hi

/-- **The invariant holds in every run.** -/
theorem Spec.Valid.holds_of_run (hv : σ.Valid c) (h : σ.Holds c s) {as : List (Act Pid L)}
    (hrun : run (step c) s as = some t) : σ.Holds c t :=
  run_invariant (fun hs ht => hv.holds_step hs (.of_step ht)) h hrun

section

omit [DecidableEq Pid] [DecidableEq Chan]

/-- **No wakeup is lost**: who is `SLEEPING` on a channel although it is no longer right
to, is going to be woken up by some process. -/
theorem Spec.Holds.waits_of_sleeping (h : σ.Holds c s) (hsl : s.sleeping p = some ch) :
    σ.Waits ch s.data ∨ ∃ q, σ.Owing c s ch q := by
  obtain ⟨-, k, hi⟩ := h.sleeping p ch hsl
  exact h.waits p ch k hi (.inr hsl)

/-- Outside of `sleep`, `lk` is held at the locations that say so. -/
theorem Spec.Holds.holder (h : σ.Holds c s) (hs : ∀ ch k, c.instr p (s.loc p) ≠ .sleep ch k)
    (hheld : σ.Held (s.loc p)) : s.lk = some p := by
  refine (h.lk p).mpr ⟨?_, hheld⟩
  have hin := h.stage p
  cases hi : c.instr p (s.loc p) with
  | sleep ch k => exact absurd hi (hs ch k)
  | acquire | release | update | wakeup | rest =>
    rw [hi] at hin
    cases he : s.stage p with
    | run | wakeup | woke => trivial
    | unlock | doze | sched | asleep | resume | relock =>
      rw [he] at hin
      exact absurd hin not_false

/-- **If every `wakeup` is called before `lk` is released**, then whoever is `SLEEPING` while
`lk` is free is so rightly. -/
theorem Spec.Holds.waits_of_free (h : σ.Holds c s)
    (howes : ∀ q ch l, σ.Owes ch l → σ.Held l ∧ ∀ ch' k, c.instr q l ≠ .sleep ch' k)
    (hlk : s.lk = none) (hsl : s.sleeping p = some ch) : σ.Waits ch s.data := by
  rcases h.waits_of_sleeping hsl with hw | ⟨q, hq⟩
  · exact hw
  · obtain ⟨hheld, hs⟩ := howes q ch _ hq.1
    have := h.holder hs hheld
    rw [hlk] at this
    cases this

end

end

end Xv6.Sleep
