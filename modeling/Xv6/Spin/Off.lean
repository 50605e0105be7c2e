import Mathlib.Data.Finset.Card
import Xv6.Spin.Cpu

/-!
# Interrupts are off while a lock is held

`ncli` of a CPU counts what is to be undone there (`Xv6.Spin.Fit.count`): the `pushcli` calls of
the thread that it runs, the locks that have been acquired on it, and one more when the thread is
in the middle of `acquire` or `release`. A lock belongs to the CPU and not to the
thread, and so the count stays right when `sched` and the scheduler switch from one thread to
another. Since a process can only be switched away from when there is one lock and nothing else
to be undone, it finds the same when it goes on, on whatever CPU (`Xv6.Spin.interrupts_off`).
-/

namespace Xv6.Spin

open Lib Function List

/-! ### `pushcli` and `popcli` -/

namespace Core

variable {k : Core} {e : Bool}

theorem popcli_eq (hk : 0 < k.ncli) (hoff : k.iff = false) :
    k.popcli = .ok { k with ncli := k.ncli - 1, iff := decide (k.ncli - 1 = 0) && k.intena } := by
  rw [popcli, if_neg (by rw [hoff]; exact Bool.false_ne_true), if_neg (by omega)]

/-- What is left of a `pushcli` and a `popcli`: interrupts are on if they were before. -/
def paired (k : Core) (e : Bool) : Core where
  ncli := k.ncli
  intena := if k.ncli = 0 then e else k.intena
  iff := decide (k.ncli = 0) && e

theorem pair_eq (hk : 0 ≤ k.ncli) : k.pair e = .ok (k.paired e) := by
  rw [pair, popcli_eq (by change 0 < k.ncli + 1; omega) rfl]
  simp only [pushcli, Int.add_sub_cancel, paired]
  by_cases h : k.ncli = 0
  · simp only [if_pos h]
  · simp only [if_neg h, decide_eq_false h, Bool.false_and]

theorem mycpu_eq (h : k.iff = false) : k.mycpu = .ok k :=
  if_neg (by rw [h]; exact Bool.false_ne_true)

theorem paired_eq (hk : 0 < k.ncli) (hoff : k.iff = false) : k.paired e = k := by
  rw [paired, if_neg (by omega), decide_eq_false (by omega), Bool.false_and, ← hoff]

end Core

/-! ### The invariant -/

variable {Cpu Pid Lock : Type}

/-- Whether there is a `pushcli` to be undone that is not yet, or no longer, counted
with a lock. -/
def Pc.excess : Pc Lock → ℕ
  | .spin _ | .took _ | .unlock _ | .pop => 1
  | _ => 0

/-- Where interrupts can be on. -/
def Pc.Open : Pc Lock → Prop
  | .code | .cli _ _ | .sched _ => True
  | _ => False

/-- The thread has a lock that does not show its CPU. -/
def Pc.Keeps (pc : Pc Lock) (l : Lock) : Prop := pc = .took l ∨ pc = .unlock l

variable {ptable : Lock} {c c' : Cpu} {lock lock' : Lock → Spinlock Cpu}

/-- What is known where a thread is. -/
def Pc.Fact (ptable : Lock) (c : Cpu) (lock : Lock → Spinlock Cpu) (k : Core) : Pc Lock → Prop
  | .cli _ (.myproc v) | .cli _ (.holding v) | .sched v => 0 < k.ncli → k.intena = v
  | .took l | .unlock l => (lock l).cpu = none
  | .drop l => (lock l).cpu = some c
  | .check v => (lock ptable).cpu = some c ∧ k.intena = v
  | .resumed i v => (lock ptable).cpu = some c ∧ k.ncli = 1 ∧ i = v
  | .returned v => (lock ptable).cpu = some c ∧ k.ncli = 1 ∧ k.intena = v
  | .parked _ _ | .fresh => False
  | _ => True

/-- What `ncli` is where the scheduler is. -/
def Pos.Fact (ptable : Lock) (c : Cpu) (lock : Lock → Spinlock Cpu) (n : ℤ) :
    Pos → Pc Lock → Prop
  | .top, .code | .locking, .code => n = 0
  | .top, .cli _ (.release _) | .top, .drop _ | .top, .unlock _ | .top, .pop => n = 1
  | .scanning, .cli _ (.acquire l) => n = 0 ∧ l = ptable
  | .scanning, .spin l | .scanning, .took l => n = 1 ∧ l = ptable
  | .scanning, .code => n = 1 ∧ (lock ptable).cpu = some c
  | _, _ => False

/-- **What holds of a CPU.** -/
structure Fit (ptable : Lock) (c : Cpu) (lock : Lock → Spinlock Cpu) (x : CpuState Pid Lock) :
    Prop where
  count : ∃ L : Finset Lock, (∀ l, l ∈ L ↔ (lock l).cpu = some c) ∧
    x.core.ncli = x.thread.pushed + L.card + x.thread.pc.excess
  off : 0 < x.core.ncli → x.core.iff = false
  fact : x.thread.pc.Fact ptable c lock x.core
  frames : ∀ f ∈ x.thread.frames, f.Open
  base : x.proc = none → x.thread.frames = [] →
    x.pos.Fact ptable c lock x.core.ncli x.thread.pc
  last : x.proc = none → ∀ f, x.thread.frames.getLast? = some f →
    x.pos.Fact ptable c lock 0 f
  scheduler : x.proc ≠ none → x.scheduler = ⟨.code, [], 0⟩ ∧ x.pos = .scanning

/-- A process that does not run has nothing to be undone. -/
def Thread.Parked (t : Thread Lock) : Prop :=
  t.pushed = 0 ∧ (∀ f ∈ t.frames, f.Open) ∧ (t.pc = .fresh ∨ ∃ v, t.pc = .parked v v)

/-- **The invariant.** -/
structure Inv (ptable : Lock) (s : State Cpu Pid Lock) : Prop where
  fit : ∀ c, Fit ptable c s.lock (s.cpu c)
  locked : ∀ {c l}, (s.lock l).cpu = some c ∨ (s.cpu c).thread.pc.Keeps l →
    (s.lock l).locked = true
  keeps : ∀ {c c' l}, (s.cpu c).thread.pc.Keeps l → (s.cpu c').thread.pc.Keeps l → c = c'
  pool : ∀ {p t}, s.pool p = some t → t.Parked

theorem inv_start (intena : Cpu → Bool) : Inv ptable (start intena : State Cpu Pid Lock) where
  fit _ :=
    { count := ⟨∅, fun _ => iff_of_false (Finset.notMem_empty _) (fun h => by cases h), rfl⟩
      off := fun h => absurd h (lt_irrefl _)
      fact := trivial
      frames := forall_mem_nil _
      base := fun _ _ => rfl
      last := fun _ _ h => by cases h
      scheduler := fun h => absurd rfl h }
  locked h := by rcases h with h | h | h <;> cases h
  keeps h := by rcases h with h | h <;> cases h
  pool h := by
    obtain rfl := Option.some.inj h
    exact ⟨rfl, forall_mem_singleton.mpr trivial, .inl rfl⟩

/-! ### What follows -/

namespace Pos.Fact

variable {pos : Pos} {n : ℤ} {e : Bool} {l : Lock}

theorem acquire (h : pos.Fact ptable c lock n (.cli e (.acquire l))) :
    pos.Fact ptable c lock (n + 1) (.spin l) := by
  cases pos with
  | top | locking => exact h.elim
  | scanning => exact ⟨by rw [h.1]; rfl, h.2⟩

theorem spin (h : pos.Fact ptable c lock n (.spin l)) : pos.Fact ptable c lock' n (.took l) := by
  cases pos with
  | top | locking => exact h.elim
  | scanning => exact h

theorem took (h : pos.Fact ptable c lock n (.took l)) (hl : (lock' l).cpu = some c) :
    pos.Fact ptable c lock' n .code := by
  cases pos with
  | top | locking => exact h.elim
  | scanning => exact ⟨h.1, h.2 ▸ hl⟩

theorem release (h : pos.Fact ptable c lock n (.cli e (.release l))) :
    pos.Fact ptable c lock n (.drop l) := by
  cases pos with
  | top => exact h
  | locking | scanning => exact h.elim

theorem drop (h : pos.Fact ptable c lock n (.drop l)) : pos.Fact ptable c lock' n (.unlock l) := by
  cases pos with
  | top => exact h
  | locking | scanning => exact h.elim

theorem unlock (h : pos.Fact ptable c lock n (.unlock l)) : pos.Fact ptable c lock' n .pop := by
  cases pos with
  | top => exact h
  | locking | scanning => exact h.elim

theorem pop (h : pos.Fact ptable c lock n .pop) : pos.Fact ptable c lock (n - 1) .code := by
  cases pos with
  | top =>
    obtain rfl : n = 1 := h
    rfl
  | locking | scanning => exact h.elim

/-- The lock matters only while the scheduler has it. -/
theorem of_zero {pc : Pc Lock} (h : pos.Fact ptable c lock 0 pc) :
    pos.Fact ptable c lock' 0 pc := by
  unfold Pos.Fact at h ⊢
  split at h
  all_goals first
    | exact h
    | exact absurd h.1 (by decide)

/-- The scheduler is in no other call. -/
theorem elim {pc : Pc Lock} (h : pos.Fact ptable c lock n pc) :
    match pc with
    | .cli _ .pushcli | .cli _ (.myproc _) | .cli _ (.holding _) | .sched _ | .check _
    | .parked _ _ | .fresh | .resumed _ _ | .returned _ => False
    | _ => True := by
  cases pos <;> cases pc <;> try trivial
  all_goals rename_i k; cases k <;> trivial

end Pos.Fact

namespace Fit

variable {x : CpuState Pid Lock} {l : Lock}

variable (h : Fit ptable c lock x)
include h

theorem nonneg : 0 ≤ x.core.ncli := by
  obtain ⟨L, -, hn⟩ := h.count
  omega

variable (hl : (lock l).cpu = some c)
include hl

/-- A CPU with a lock has something to undo. -/
theorem pos_of_cpu :
    x.thread.pushed + x.thread.pc.excess < x.core.ncli := by
  obtain ⟨L, hL, hn⟩ := h.count
  have hcard := Finset.card_pos.mpr ⟨l, (hL l).mpr hl⟩
  omega

theorem ncli_pos :
    0 < x.core.ncli := by
  have := h.pos_of_cpu hl
  omega

theorem off_of_cpu :
    x.core.iff = false :=
  h.off (h.ncli_pos hl)

omit hl

theorem excess_le :
    (x.thread.pushed + x.thread.pc.excess : ℤ) ≤ x.core.ncli := by
  obtain ⟨L, -, hn⟩ := h.count
  omega

/-- The locks are the same. -/
theorem recount {n : ℤ} {k m : ℕ}
    (hn : n + (x.thread.pushed + x.thread.pc.excess) = x.core.ncli + (k + m)) :
    ∃ L : Finset Lock, (∀ l, l ∈ L ↔ (lock l).cpu = some c) ∧ n = k + L.card + m := by
  obtain ⟨L, hL, hc⟩ := h.count
  exact ⟨L, hL, by omega⟩

theorem ncli_eq_zero (hon : x.core.iff = true) : x.core.ncli = 0 := by
  have hnn := h.nonneg
  by_contra hne
  rw [h.off (by omega)] at hon
  cases hon

/-- Where a thread is when interrupts are on. -/
theorem isOpen (hon : x.core.iff = true) : x.thread.pc.Open := by
  have hz := h.ncli_eq_zero hon
  have hex := h.excess_le
  have hfact := h.fact
  have hno : ∀ l, (lock l).cpu ≠ some c := fun l hl => (h.ncli_pos hl).ne' hz
  cases hpc : x.thread.pc with
  | code | cli | sched => trivial
  | spin l | took l | unlock l | pop =>
    rw [hpc, Pc.excess] at hex
    omega
  | drop l =>
    rw [hpc] at hfact
    exact absurd hfact (hno l)
  | check v | resumed i v | returned v =>
    rw [hpc] at hfact
    exact absurd hfact.1 (hno ptable)
  | parked i v | fresh =>
    rw [hpc] at hfact
    exact hfact.elim

/-- The thread goes on. -/
theorem goto {k : Core} {pc pc' : Pc Lock} (hpc : x.thread.pc = pc)
    (hn : k.ncli + pc.excess = x.core.ncli + pc'.excess)
    (hoff : 0 < k.ncli → k.iff = false) (hfact : pc'.Fact ptable c lock k)
    (hbase : x.proc = none → x.thread.frames = [] → x.pos.Fact ptable c lock x.core.ncli pc →
      x.pos.Fact ptable c lock k.ncli pc') :
    Fit ptable c lock (x.goto k pc') where
  count := h.recount (by rw [hpc]; change k.ncli + _ = _ + (x.thread.pushed + pc'.excess); omega)
  off := hoff
  fact := hfact
  frames := h.frames
  base hp hf := hbase hp hf (hpc ▸ h.base hp hf)
  last := h.last
  scheduler := h.scheduler

/-- The thread goes on, and a lock of its CPU changes. -/
theorem relock {pc pc' : Pc Lock} (hpc : x.thread.pc = pc)
    (hcount : ∃ L : Finset Lock, (∀ l, l ∈ L ↔ (lock' l).cpu = some c) ∧
      x.core.ncli = x.thread.pushed + L.card + pc'.excess)
    (hfact : pc'.Fact ptable c lock' x.core)
    (hbase : x.pos.Fact ptable c lock x.core.ncli pc →
      x.pos.Fact ptable c lock' x.core.ncli pc') :
    Fit ptable c lock' (x.goto x.core pc') where
  count := hcount
  off := h.off
  fact := hfact
  frames := h.frames
  base hp hf := hbase (hpc ▸ h.base hp hf)
  last hp f hf := (h.last hp f hf).of_zero
  scheduler := h.scheduler

/-- A lock changes that is none of the CPU's. -/
theorem frame (hcpu : ∀ l, (lock' l).cpu = some c ↔ (lock l).cpu = some c)
    (hkeeps : ∀ l, x.thread.pc.Keeps l → (lock' l).cpu = (lock l).cpu) : Fit ptable c lock' x := by
  have hpos : ∀ {n pc}, x.pos.Fact ptable c lock n pc → x.pos.Fact ptable c lock' n pc := by
    intro n pc hp
    unfold Pos.Fact at hp ⊢
    split at hp
    all_goals first
      | exact hp
      | exact ⟨hp.1, (hcpu _).mpr hp.2⟩
  refine ⟨?_, h.off, ?_, h.frames, fun hp hf => hpos (h.base hp hf),
    fun hp f hf => hpos (h.last hp f hf), h.scheduler⟩
  · obtain ⟨L, hL, hn⟩ := h.count
    exact ⟨L, fun l => (hL l).trans (hcpu l).symm, hn⟩
  · have hfact := h.fact
    cases hpc : x.thread.pc with
    | code | spin | pop | parked | fresh => rwa [hpc] at hfact
    | cli e k =>
      rw [hpc] at hfact
      cases k <;> exact hfact
    | sched => rwa [hpc] at hfact
    | took l =>
      rw [hpc] at hfact
      exact (hkeeps l (.inl hpc)).trans hfact
    | unlock l =>
      rw [hpc] at hfact
      exact (hkeeps l (.inr hpc)).trans hfact
    | drop l =>
      rw [hpc] at hfact
      exact (hcpu l).mpr hfact
    | check v | resumed i v | returned v =>
      rw [hpc] at hfact
      exact ⟨(hcpu _).mpr hfact.1, hfact.2⟩

end Fit

variable [DecidableEq Cpu]

theorem cpu_of_holding {s : State Cpu Pid Lock} {l : Lock} (h : s.holding c l = true) :
    (s.lock l).cpu = some c :=
  of_decide_eq_true (Bool.and_eq_true_iff.mp h).2

namespace Inv

variable {s : State Cpu Pid Lock} {x : CpuState Pid Lock}

/-- A CPU does something that is not about the locks. -/
theorem set (h : Inv ptable s) (hx : Fit ptable c s.lock x)
    (hk : ∀ l, x.thread.pc.Keeps l → (s.cpu c).thread.pc.Keeps l) : Inv ptable (s.set c x) := by
  have hkeeps : ∀ {d l}, ((s.set c x).cpu d).thread.pc.Keeps l → (s.cpu d).thread.pc.Keeps l := by
    intro d l hd
    by_cases hdc : d = c
    · subst hdc
      exact hk l (by rwa [State.set_cpu_self] at hd)
    · rwa [State.set_cpu_of_ne _ _ _ hdc] at hd
  refine ⟨fun d => ?_, fun hl => h.locked (hl.imp_right hkeeps),
    fun hd hd' => h.keeps (hkeeps hd) (hkeeps hd'), h.pool⟩
  exact (forall_update_iff s.cpu (Fit ptable · s.lock)).mpr ⟨hx, fun d _ => h.fit d⟩ d

end Inv

/-! ### The steps -/

/-- The state is right after a step, and the only panics are those that find a mistake in the use
of the locks. -/
def Good (ptable : Lock) : Except Panic (State Cpu Pid Lock) → Prop
  | .ok t => Inv ptable t
  | .error e => e = .acquire ∨ e = .release ∨ e = .schedPtable ∨ e = .schedLocks

omit [DecidableEq Cpu] in
theorem Pc.not_keeps {pc : Pc Lock} {l : Lock} (h : pc.excess = 0) : ¬pc.Keeps l := by
  rintro (rfl | rfl) <;> cases h

namespace Inv

variable {s : State Cpu Pid Lock} {l : Lock} {v e : Bool}

variable (h : Inv ptable s)
include h

/-- The thread of a CPU goes on, without doing something to a lock. -/
theorem goto {k : Core} {pc pc' : Pc Lock} (hpc : (s.cpu c).thread.pc = pc)
    (hn : k.ncli + pc.excess = (s.cpu c).core.ncli + pc'.excess)
    (hoff : 0 < k.ncli → k.iff = false) (hfact : pc'.Fact ptable c s.lock k)
    (hbase : (s.cpu c).pos.Fact ptable c s.lock (s.cpu c).core.ncli pc →
      (s.cpu c).pos.Fact ptable c s.lock k.ncli pc')
    (hk : ∀ l, ¬pc'.Keeps l) : Inv ptable (s.set c ((s.cpu c).goto k pc')) :=
  h.set ((h.fit c).goto hpc hn hoff hfact fun _ _ => hbase) fun l hl => absurd hl (hk l)

omit [DecidableEq Cpu] in
theorem fact {pc : Pc Lock} (hpc : (s.cpu c).thread.pc = pc) :
    pc.Fact ptable c s.lock (s.cpu c).core :=
  hpc ▸ (h.fit c).fact

theorem acquire (hpc : (s.cpu c).thread.pc = .cli e (.acquire l)) :
    Good ptable ((((s.cpu c).core.pushcli e).pair false).bind fun k =>
      if s.holding c l then .error .acquire else .ok (s.set c ((s.cpu c).goto k (.spin l)))) := by
  have hnn := (h.fit c).nonneg
  have hpos : 0 < ((s.cpu c).core.pushcli e).ncli := by
    change 0 < (s.cpu c).core.ncli + 1
    omega
  rw [Core.pair_eq hpos.le, Core.paired_eq hpos rfl]
  split
  · exact .inl rfl
  · refine h.goto hpc ?_ (fun _ => rfl) trivial (fun hb => hb.acquire) fun l' hl' => ?_
    · simp only [Pc.excess, Core.pushcli]
      omega
    · rcases hl' with hl' | hl' <;> cases hl'

theorem release (hpc : (s.cpu c).thread.pc = .cli e (.release l)) :
    Good ptable (((s.cpu c).core.pair e).bind fun k =>
      if s.holding c l then .ok (s.set c ((s.cpu c).goto k (.drop l))) else .error .release) := by
  rw [Core.pair_eq (h.fit c).nonneg]
  split
  · next hh =>
    have hcpu := cpu_of_holding hh
    rw [Core.paired_eq ((h.fit c).ncli_pos hcpu) ((h.fit c).off_of_cpu hcpu)]
    exact h.goto hpc rfl (h.fit c).off hcpu (fun hb => hb.release) fun l' => Pc.not_keeps rfl
  · exact .inr (.inl rfl)

/-- A thread calls `pushcli` or `popcli`, which changes how often it is to call `popcli`. -/
theorem setPushed {k : Core} {n : ℕ}
    (hn : k.ncli + ((s.cpu c).thread.pushed + (s.cpu c).thread.pc.excess) =
      (s.cpu c).core.ncli + n)
    (hoff : 0 < k.ncli → k.iff = false)
    (hbase : (s.cpu c).proc ≠ none ∨ (s.cpu c).thread.frames ≠ []) :
    Inv ptable (s.set c { s.cpu c with
      core := k, thread := { (s.cpu c).thread with pc := .code, pushed := n } }) := by
  refine h.set ⟨(h.fit c).recount (by simpa [Pc.excess] using hn), hoff, trivial,
    (h.fit c).frames, fun hp hf => ?_, (h.fit c).last, (h.fit c).scheduler⟩
    fun l hk => absurd hk (Pc.not_keeps rfl)
  rcases hbase with hb | hb
  · exact absurd hp hb
  · exact absurd hf hb

omit [DecidableEq Cpu] in
/-- The thread is not the scheduler itself. -/
theorem ne_base
    (hpc : ¬(s.cpu c).pos.Fact ptable c s.lock (s.cpu c).core.ncli (s.cpu c).thread.pc) :
    (s.cpu c).proc ≠ none ∨ (s.cpu c).thread.frames ≠ [] := by
  by_contra hb
  obtain ⟨hp, hf⟩ := not_or.mp hb
  exact hpc ((h.fit c).base (not_not.mp hp) (not_not.mp hf))

theorem pushcli (hpc : (s.cpu c).thread.pc = .cli e .pushcli) :
    Inv ptable (s.set c { s.cpu c with
      core := (s.cpu c).core.pushcli e
      thread := { (s.cpu c).thread with
        pc := .code, pushed := (s.cpu c).thread.pushed + 1 } }) := by
  refine h.setPushed ?_ (fun _ => rfl) (h.ne_base fun hb => ?_)
  · rw [hpc]
    simp only [Core.pushcli, Pc.excess]
    omega
  · rw [hpc] at hb
    exact hb.elim

/-- The `popcli` of `release`. -/
theorem pop (hpc : (s.cpu c).thread.pc = .pop) :
    Good ptable ((s.cpu c).core.popcli.map fun k => s.set c ((s.cpu c).goto k .code)) := by
  have hex := (h.fit c).excess_le
  rw [hpc] at hex
  simp only [Pc.excess] at hex
  rw [Core.popcli_eq (by omega) ((h.fit c).off (by omega))]
  refine h.goto hpc ?_ (fun hpos => ?_) trivial (fun hb => hb.pop) fun l => Pc.not_keeps rfl
  · simp only [Pc.excess]
    omega
  · change 0 < (s.cpu c).core.ncli - 1 at hpos
    rw [decide_eq_false (by omega), Bool.false_and]

/-- `myproc` in `sched`. -/
theorem myproc (hpc : (s.cpu c).thread.pc = .cli e (.myproc v)) :
    Good ptable (((s.cpu c).core.pair e).map fun k => s.set c ((s.cpu c).goto k (.sched v))) := by
  rw [Core.pair_eq (h.fit c).nonneg]
  refine h.goto hpc rfl (fun hpos => ?_) (fun hpos => ?_) (fun hb => hb.elim.elim)
    fun l => Pc.not_keeps rfl
  · change 0 < (s.cpu c).core.ncli at hpos
    change (decide _ && _) = false
    rw [decide_eq_false (by omega), Bool.false_and]
  · change 0 < (s.cpu c).core.ncli at hpos
    change (if _ then _ else _) = v
    rw [if_neg (by omega)]
    exact h.fact hpc hpos

/-- `holding` in `sched`. -/
theorem holding (hpc : (s.cpu c).thread.pc = .cli e (.holding v)) :
    Good ptable (((s.cpu c).core.pair e).bind fun k =>
      if s.holding c ptable then .ok (s.set c ((s.cpu c).goto k (.check v)))
      else .error .schedPtable) := by
  rw [Core.pair_eq (h.fit c).nonneg]
  split
  · next hh =>
    have hcpu := cpu_of_holding hh
    have hpos := (h.fit c).ncli_pos hcpu
    rw [Core.paired_eq hpos ((h.fit c).off hpos)]
    exact h.goto hpc rfl (h.fit c).off ⟨hcpu, h.fact hpc hpos⟩ (fun hb => hb.elim.elim)
      fun l => Pc.not_keeps rfl
  · exact .inr (.inr (.inl rfl))

theorem sched (hpc : (s.cpu c).thread.pc = .sched v) :
    Inv ptable (s.set c ((s.cpu c).goto (s.cpu c).core (.cli (s.cpu c).core.iff (.holding v)))) :=
  h.goto hpc rfl (h.fit c).off (h.fact hpc :) (fun hb => hb.elim.elim) fun _ => Pc.not_keeps rfl

/-- `intena` is restored. -/
theorem resumed {i : Bool} (hpc : (s.cpu c).thread.pc = .resumed i v) :
    Good ptable ((s.cpu c).core.mycpu.map fun k =>
      s.set c ((s.cpu c).goto { k with intena := i } (.returned v))) := by
  obtain ⟨hcpu, hn, rfl⟩ := h.fact hpc
  rw [Core.mycpu_eq ((h.fit c).off_of_cpu hcpu)]
  exact h.goto hpc rfl (h.fit c).off ⟨hcpu, hn, rfl⟩ (fun hb => hb.elim.elim)
    fun l => Pc.not_keeps rfl

theorem returned (hpc : (s.cpu c).thread.pc = .returned v) :
    Inv ptable (s.set c ((s.cpu c).goto (s.cpu c).core .code)) :=
  h.goto hpc rfl (h.fit c).off trivial (fun hb => hb.elim.elim) fun _ => Pc.not_keeps rfl

/-- A thread calls a function. -/
theorem cli (hx : (s.cpu c).Plain) {k : Call Lock}
    (hf : Pc.Fact ptable c s.lock (s.cpu c).core (.cli (s.cpu c).core.iff k)) :
    Inv ptable (s.set c ((s.cpu c).goto (s.cpu c).core (.cli (s.cpu c).core.iff k))) := by
  refine h.set ((h.fit c).goto hx.1 rfl (h.fit c).off hf fun hp hfr => ?_)
    fun l hk => absurd hk (Pc.not_keeps rfl)
  rcases hx.2 with hb | hb
  · exact absurd hp hb
  · exact absurd hfr hb

omit h

/-- **A process is switched away from.** There is nothing to be undone but `ptable.lock`, which
stays with the CPU. -/
theorem park [DecidableEq Pid] (h : Inv ptable s) {p : Pid} (hpc : (s.cpu c).thread.pc = .check v)
    (hp : (s.cpu c).proc = some p) :
    Good ptable ((s.cpu c).core.mycpu.bind fun k =>
      if k.ncli ≠ 1 then .error .schedLocks
      else if k.iff then .error .schedInterruptible
      else .ok { s.set c { s.cpu c with proc := none, thread := (s.cpu c).scheduler } with
        pool := update s.pool p
          (some { (s.cpu c).thread with pc := .parked k.intena v }) }) := by
  have hfit := h.fit c
  obtain ⟨hcpu, hint⟩ := h.fact hpc
  have hoff := hfit.off_of_cpu hcpu
  obtain ⟨hsch, hpos⟩ := hfit.scheduler (by rw [hp]; exact Option.some_ne_none p)
  rw [Core.mycpu_eq hoff]
  change Good ptable (if _ then _ else _)
  split
  · exact .inr (.inr (.inr rfl))
  next hn =>
  have hn := not_not.mp hn
  rw [if_neg (by rw [hoff]; exact Bool.false_ne_true)]
  have hpushed : (s.cpu c).thread.pushed = 0 := by
    have := hfit.pos_of_cpu hcpu
    omega
  have hset : Inv ptable (s.set c
      { s.cpu c with proc := none, thread := (s.cpu c).scheduler }) := by
    refine h.set ⟨?_, hfit.off, ?_, ?_, fun _ _ => ?_, fun _ f hf => ?_, fun hc => absurd rfl hc⟩
      fun l hk => ?_
    · obtain ⟨L, hL, hc⟩ := hfit.count
      refine ⟨L, hL, ?_⟩
      rw [hpushed, hpc] at hc
      simp only [hsch]
      exact hc
    all_goals simp only [hsch] at *
    · exact trivial
    · exact forall_mem_nil _
    · rw [hpos]
      exact ⟨hn, hcpu⟩
    · cases hf
    · exact absurd hk (Pc.not_keeps rfl)
  refine ⟨hset.fit, hset.locked, hset.keeps, fun {q t} hq => ?_⟩
  by_cases hqp : q = p
  · subst hqp
    change update s.pool q _ q = some t at hq
    rw [update_self] at hq
    obtain rfl := Option.some.inj hq
    exact ⟨hpushed, hfit.frames, .inr ⟨v, by rw [← hint]⟩⟩
  · exact h.pool ((update_of_ne hqp ..).symm.trans hq)

/-- **The scheduler switches to a process.** -/
theorem pick [DecidableEq Pid] (h : Inv ptable s) {p : Pid} {t t' : Thread Lock}
    (hx : (s.cpu c).Base .scanning) (ht : s.pool p = some t) (ht' : t.resume = some t') :
    Good ptable (((s.cpu c).core.pair (s.cpu c).core.iff).map fun k =>
      { s.set c { s.cpu c with
          core := k, proc := some p, thread := t', scheduler := (s.cpu c).thread } with
        pool := update s.pool p none }) := by
  have hfit := h.fit c
  obtain ⟨hpc, hproc, hframes, hpos⟩ := hx
  obtain ⟨hn, hcpu⟩ : (s.cpu c).core.ncli = 1 ∧ (s.lock ptable).cpu = some c := by
    have hb := hfit.base hproc hframes
    rwa [hpos, hpc] at hb
  have hoff := hfit.off_of_cpu hcpu
  have hpushed : (s.cpu c).thread.pushed = 0 := by
    have := hfit.pos_of_cpu hcpu
    omega
  have hthread : (s.cpu c).thread = ⟨.code, [], 0⟩ := by
    rw [← hpc, ← hframes, ← hpushed]
  obtain ⟨hpushed', hframes', hexcess, hfact⟩ : t'.pushed = 0 ∧ (∀ f ∈ t'.frames, f.Open) ∧
      t'.pc.excess = 0 ∧ t'.pc.Fact ptable c s.lock (s.cpu c).core := by
    obtain ⟨hpu, hfr, hfresh | ⟨v, hparked⟩⟩ := h.pool ht
    · rw [Thread.resume, hfresh] at ht'
      obtain rfl := Option.some.inj ht'
      exact ⟨hpu, hfr, rfl, trivial⟩
    · rw [Thread.resume, hparked] at ht'
      obtain rfl := Option.some.inj ht'
      exact ⟨hpu, hfr, rfl, hcpu, hn, rfl⟩
  rw [Core.pair_eq hfit.nonneg, Core.paired_eq (by omega) hoff]
  have hset : Inv ptable (s.set c { s.cpu c with
      proc := some p, thread := t', scheduler := (s.cpu c).thread }) := by
    refine h.set ⟨?_, hfit.off, hfact, hframes', fun hc => absurd hc (Option.some_ne_none p),
      fun hc => absurd hc (Option.some_ne_none p), fun _ => ⟨hthread, hpos⟩⟩
      fun l hk => absurd hk (Pc.not_keeps hexcess)
    obtain ⟨L, hL, hc⟩ := hfit.count
    refine ⟨L, hL, ?_⟩
    rw [hpushed, hpc] at hc
    rwa [hpushed', hexcess]
  refine ⟨hset.fit, hset.locked, hset.keeps, fun {q u} hq => ?_⟩
  by_cases hqp : q = p
  · subst hqp
    cases (update_self ..).symm.trans hq
  · exact h.pool ((update_of_ne hqp ..).symm.trans hq)

variable (h : Inv ptable s)
include h

/-- A thread undoes a `pushcli` of its own. -/
theorem popcli (hx : (s.cpu c).Plain) (hpu : 0 < (s.cpu c).thread.pushed) :
    Good ptable ((s.cpu c).core.popcli.map fun k => s.set c { s.cpu c with
      core := k
      thread := { (s.cpu c).thread with pushed := (s.cpu c).thread.pushed - 1 } }) := by
  have hex := (h.fit c).excess_le
  have hpc := hx.1
  rw [Core.popcli_eq (by omega) ((h.fit c).off (by omega))]
  have key := h.setPushed (c := c) (n := (s.cpu c).thread.pushed - 1)
    (k := { (s.cpu c).core with
      ncli := (s.cpu c).core.ncli - 1
      iff := decide ((s.cpu c).core.ncli - 1 = 0) && (s.cpu c).core.intena })
    (by
      rw [hpc]
      simp only [Pc.excess]
      omega)
    (fun hpos => by
      change 0 < (s.cpu c).core.ncli - 1 at hpos
      rw [decide_eq_false (by omega), Bool.false_and])
    hx.2
  rwa [← hpc] at key

/-- A thread is interrupted. -/
theorem interrupt (hon : (s.cpu c).core.iff = true) :
    Inv ptable (s.set c { s.cpu c with
      core := { (s.cpu c).core with iff := false }
      thread := { (s.cpu c).thread with
        pc := .code, frames := (s.cpu c).thread.pc :: (s.cpu c).thread.frames } }) := by
  have hfit := h.fit c
  have hz := hfit.ncli_eq_zero hon
  have hex := hfit.excess_le
  have hcount := hfit.recount (n := (s.cpu c).core.ncli) (k := (s.cpu c).thread.pushed) (m := 0)
    (by omega)
  refine h.set ⟨hcount, fun _ => rfl, trivial,
    forall_mem_cons.mpr ⟨hfit.isOpen hon, hfit.frames⟩,
    fun _ hf => absurd hf (cons_ne_nil _ _), fun hp f hf => ?_, hfit.scheduler⟩
    fun l hk => absurd hk (Pc.not_keeps rfl)
  cases hfr : (s.cpu c).thread.frames with
  | nil =>
    rw [hfr] at hf
    obtain rfl := Option.some.inj hf
    have hb := hfit.base hp hfr
    rwa [hz] at hb
  | cons g gs =>
    rw [hfr, getLast?_cons_cons] at hf
    exact hfit.last hp f (hfr ▸ hf)

/-- An interrupt handler returns. -/
theorem iret {f : Pc Lock} {fs : List (Pc Lock)}
    (hfr : (s.cpu c).thread.frames = f :: fs) (hpc : (s.cpu c).thread.pc = .code)
    (hz : (s.cpu c).core.ncli = 0) :
    Inv ptable (s.set c { s.cpu c with
      core := { (s.cpu c).core with iff := true }
      thread := { (s.cpu c).thread with pc := f, frames := fs } }) := by
  have hfit := h.fit c
  have hframes := hfit.frames
  rw [hfr] at hframes
  obtain ⟨hopen, hfs⟩ := forall_mem_cons.mp hframes
  have hexcess : f.excess = 0 := by
    cases f <;> first | rfl | exact hopen.elim
  refine h.set ⟨hfit.recount (by rw [hpc, hexcess]; rfl), fun hpos => absurd hz hpos.ne', ?_, hfs,
    fun hp hf => ?_, fun hp g hg => ?_, hfit.scheduler⟩
    fun l hk => absurd hk (Pc.not_keeps hexcess)
  · have hnot : ¬0 < (s.cpu c).core.ncli := by omega
    cases f with
    | code => trivial
    | cli e k => cases k <;> first | trivial | exact fun hpos => absurd hpos hnot
    | sched v => exact fun hpos => absurd hpos hnot
    | _ => exact hopen.elim
  · change fs = [] at hf
    have hlast := hfit.last hp f (by rw [hfr, hf]; rfl)
    rwa [hz]
  · refine hfit.last hp g ?_
    rw [hfr]
    cases fs with
    | nil => cases hg
    | cons a as => rwa [getLast?_cons_cons]

/-- The scheduler turns interrupts on. -/
theorem sti (hx : (s.cpu c).Base .top) :
    Inv ptable (s.set c { s.cpu c with
      core := { (s.cpu c).core with iff := true }, pos := .locking }) := by
  have hfit := h.fit c
  obtain ⟨hpc, hproc, hframes, hpos⟩ := hx
  have hz : (s.cpu c).core.ncli = 0 := by
    have hb := hfit.base hproc hframes
    rwa [hpos, hpc] at hb
  refine h.set ⟨hfit.count, fun hpos => absurd hz hpos.ne', ?_, hfit.frames, fun _ _ => ?_,
    fun _ f hf => ?_, fun hc => absurd hproc hc⟩ fun l hk => hk
  · rw [hpc]
    trivial
  · rwa [hpc]
  · rw [hframes] at hf
    cases hf

/-- The scheduler calls a function. -/
theorem schedulerCall {pos pos' : Pos} {k : Call Lock}
    (hx : (s.cpu c).Base pos)
    (hf : Pc.Fact ptable c s.lock (s.cpu c).core (.cli (s.cpu c).core.iff k))
    (hb : pos.Fact ptable c s.lock (s.cpu c).core.ncli .code →
      pos'.Fact ptable c s.lock (s.cpu c).core.ncli (.cli (s.cpu c).core.iff k)) :
    Inv ptable (s.set c { (s.cpu c).goto (s.cpu c).core (.cli (s.cpu c).core.iff k) with
      pos := pos' }) := by
  have hfit := h.fit c
  obtain ⟨hpc, hproc, hframes, hpos⟩ := hx
  refine h.set ⟨hfit.recount (by rw [hpc]; rfl), hfit.off, hf, hfit.frames, fun _ _ => hb ?_,
    fun _ f hf => ?_, fun hc => absurd hproc hc⟩ fun l hk => absurd hk (Pc.not_keeps rfl)
  · have hb := hfit.base hproc hframes
    rwa [hpos, hpc] at hb
  · change (s.cpu c).thread.frames.getLast? = some f at hf
    rw [hframes] at hf
    cases hf

theorem lockTable (hx : (s.cpu c).Base .locking) :
    Inv ptable (s.set c { (s.cpu c).goto (s.cpu c).core
      (.cli (s.cpu c).core.iff (.acquire ptable)) with pos := .scanning }) :=
  h.schedulerCall hx trivial fun hb => ⟨hb, rfl⟩

theorem unlockTable (hx : (s.cpu c).Base .scanning) :
    Inv ptable (s.set c { (s.cpu c).goto (s.cpu c).core
      (.cli (s.cpu c).core.iff (.release ptable)) with pos := .top }) :=
  h.schedulerCall hx trivial fun hb => hb.1

omit h

section Locks

variable [DecidableEq Lock]

/-- A CPU does something to a lock that is its own, or free. -/
theorem setLock (h : Inv ptable s) {y : Spinlock Cpu} (hx : Fit ptable c (update s.lock l y) x)
    (hcpu : ∀ d, d ≠ c → (y.cpu = some d ↔ (s.lock l).cpu = some d))
    (hfree : ∀ d, d ≠ c → ¬(s.cpu d).thread.pc.Keeps l)
    (hlocked : y.locked = true ∨ y.cpu = none ∧ ¬x.thread.pc.Keeps l)
    (hk : ∀ l', l' ≠ l → ¬x.thread.pc.Keeps l') : Inv ptable ((s.setLock l y).set c x) := by
  have hpc : ∀ {d l'}, (((s.setLock l y).set c x).cpu d).thread.pc.Keeps l' →
      d = c ∧ l' = l ∨ d ≠ c ∧ l' ≠ l ∧ (s.cpu d).thread.pc.Keeps l' := by
    intro d l' hd
    by_cases hdc : d = c
    · subst hdc
      rw [State.set_cpu_self] at hd
      exact .inl ⟨rfl, by_contra fun hl => hk l' hl hd⟩
    · rw [State.set_cpu_of_ne _ _ _ hdc] at hd
      exact .inr ⟨hdc, fun hl => hfree d hdc (hl ▸ hd), hd⟩
  refine ⟨fun d => ?_, fun {d l'} hl => ?_, fun hd hd' => ?_, h.pool⟩
  · by_cases hdc : d = c
    · subst hdc
      rwa [State.set_cpu_self]
    · rw [State.set_cpu_of_ne _ _ _ hdc]
      refine (h.fit d).frame (fun l' => ?_) (fun l' hl' => ?_)
      · by_cases hl : l' = l
        · subst hl
          change (update s.lock l' y l').cpu = some d ↔ _
          rw [update_self]
          exact hcpu d hdc
        · change (update s.lock l y l').cpu = some d ↔ _
          rw [update_of_ne hl]
      · have hl : l' ≠ l := fun hl => hfree d hdc (hl ▸ hl')
        change (update s.lock l y l').cpu = _
        rw [update_of_ne hl]
  · change (update s.lock l y l').cpu = some d ∨ _ at hl
    change (update s.lock l y l').locked = true
    by_cases hll : l' = l
    · subst hll
      rw [update_self] at hl ⊢
      refine hlocked.resolve_right fun hy => ?_
      rcases hl with hl | hl
      · rw [hy.1] at hl
        cases hl
      · rcases hpc hl with ⟨rfl, -⟩ | ⟨-, hne, -⟩
        · rw [State.set_cpu_self] at hl
          exact hy.2 hl
        · exact hne rfl
    · rw [update_of_ne hll] at hl ⊢
      refine h.locked (c := d) (hl.imp_right fun hd => ?_)
      rcases hpc hd with ⟨-, hl'⟩ | ⟨-, -, hd⟩
      · exact absurd hl' hll
      · exact hd
  · rcases hpc hd with ⟨rfl, rfl⟩ | ⟨hdc, hl, hd⟩
    · rcases hpc hd' with ⟨hdc', -⟩ | ⟨-, hl', -⟩
      · exact hdc'.symm
      · exact absurd rfl hl'
    · rcases hpc hd' with ⟨-, hl'⟩ | ⟨-, -, hd'⟩
      · exact absurd hl' hl
      · exact h.keeps hd hd'

omit [DecidableEq Cpu] in
theorem cpu_update_locked (s : State Cpu Pid Lock) (l : Lock) (b : Bool) (l' : Lock) :
    (update s.lock l { s.lock l with locked := b } l').cpu = (s.lock l').cpu := by
  by_cases hll : l' = l
  · subst hll
    rw [update_self]
  · rw [update_of_ne hll]

variable (h : Inv ptable s)
include h

/-- The lock is taken. -/
theorem spin (hpc : (s.cpu c).thread.pc = .spin l)
    (hl : (s.lock l).locked ≠ true) :
    Inv ptable ((s.setLock l { s.lock l with locked := true }).set c
      ((s.cpu c).goto (s.cpu c).core (.took l))) := by
  have hfree : ∀ d, ¬(s.cpu d).thread.pc.Keeps l := fun d hd => hl (h.locked (.inr hd))
  have hnone : (s.lock l).cpu = none := by
    cases hcpu : (s.lock l).cpu with
    | none => rfl
    | some d => exact absurd (h.locked (.inl hcpu)) hl
  have hsame := cpu_update_locked s l true
  refine h.setLock ?_ (fun _ _ => Iff.rfl) (fun d _ => hfree d) (.inl rfl) fun l' hne hk => ?_
  · exact ((h.fit c).frame (fun l' => by rw [hsame]) fun l' _ => hsame l').goto hpc rfl
      (h.fit c).off ((hsame l).trans hnone) fun _ _ hb => hb.spin
  · rcases hk with hk | hk
    · injection hk with hk
      exact hne hk.symm
    · cases hk

/-- `lk->cpu` is set. -/
theorem took (hpc : (s.cpu c).thread.pc = .took l) :
    Inv ptable ((s.setLock l { s.lock l with cpu := some c }).set c
      ((s.cpu c).goto (s.cpu c).core .code)) := by
  have hfit := h.fit c
  have hnone : (s.lock l).cpu = none := h.fact hpc
  have hself : (s.cpu c).thread.pc.Keeps l := .inl hpc
  refine h.setLock (hfit.relock hpc ?_ trivial fun hb => hb.took (by rw [update_self]))
    (fun d hd => ?_)
    (fun d hd hk => hd (h.keeps hk hself)) (.inl (h.locked (.inr hself)))
    fun l' _ => Pc.not_keeps rfl
  · obtain ⟨L, hL, hn⟩ := hfit.count
    have hnotin : l ∉ L := fun hl => by
      rw [hL, hnone] at hl
      cases hl
    refine ⟨insert l L, fun l' => ?_, ?_⟩
    · by_cases hll : l' = l
      · subst hll
        rw [update_self]
        exact iff_of_true (Finset.mem_insert_self ..) rfl
      · rw [update_of_ne hll, ← hL, Finset.mem_insert, or_iff_right hll]
    · rw [hpc] at hn
      rw [Finset.card_insert_of_notMem hnotin, hn]
      simp only [Pc.excess]
      omega
  · rw [hnone]
    exact iff_of_false (fun hc => hd (Option.some.inj hc).symm) (fun hc => by cases hc)

/-- `lk->cpu` is cleared. -/
theorem drop (hpc : (s.cpu c).thread.pc = .drop l) :
    Inv ptable ((s.setLock l { s.lock l with cpu := none }).set c
      ((s.cpu c).goto (s.cpu c).core (.unlock l))) := by
  have hfit := h.fit c
  have hcpu : (s.lock l).cpu = some c := h.fact hpc
  refine h.setLock (hfit.relock hpc ?_ (by rw [Pc.Fact, update_self]) fun hb => hb.drop)
    (fun d hd => ?_) (fun d hd hk => ?_) (.inl (h.locked (.inl hcpu))) fun l' hne hk => ?_
  · obtain ⟨L, hL, hn⟩ := hfit.count
    have hmem : l ∈ L := (hL l).mpr hcpu
    refine ⟨L.erase l, fun l' => ?_, ?_⟩
    · by_cases hll : l' = l
      · subst hll
        rw [update_self]
        exact iff_of_false (Finset.notMem_erase _ _) (fun hc => by cases hc)
      · rw [update_of_ne hll, ← hL, Finset.mem_erase, and_iff_right hll]
    · have hcard := Finset.card_erase_add_one hmem
      rw [hpc] at hn
      rw [hn]
      simp only [Pc.excess]
      omega
  · rw [hcpu]
    exact iff_of_false (fun hc => by cases hc) (fun hc => hd (Option.some.inj hc).symm)
  · have hf := (h.fit d).fact
    rcases hk with hk | hk
    all_goals
      rw [hk, Pc.Fact, hcpu] at hf
      cases hf
  · rcases hk with hk | hk
    · cases hk
    · injection hk with hk
      exact hne hk.symm

/-- `lk->locked` is cleared. -/
theorem unlock (hpc : (s.cpu c).thread.pc = .unlock l) :
    Inv ptable ((s.setLock l { s.lock l with locked := false }).set c
      ((s.cpu c).goto (s.cpu c).core .pop)) := by
  have hfit := h.fit c
  have hself : (s.cpu c).thread.pc.Keeps l := .inr hpc
  have hcpu := cpu_update_locked s l false
  refine h.setLock (hfit.relock hpc ?_ trivial fun hb => hb.unlock) (fun _ _ => Iff.rfl)
    (fun d hd hk => hd (h.keeps hk hself)) (.inr ⟨h.fact hpc, fun hk => ?_⟩) fun l' _ hk => ?_
  · obtain ⟨L, hL, hn⟩ := hfit.count
    rw [hpc] at hn
    exact ⟨L, fun l' => by rw [hcpu]; exact hL l', hn⟩
  all_goals rcases hk with hk | hk <;> cases hk

end Locks

variable [DecidableEq Pid] [DecidableEq Lock] {r : Except Panic (State Cpu Pid Lock)}

/-- A thread goes on in the function that it has called. -/
theorem go (h : Inv ptable s) (hr : s.go c ptable = some r) : Good ptable r := by
  unfold State.go at hr
  cases hpc : (s.cpu c).thread.pc with
  | code | parked | fresh =>
    simp only [hpc] at hr
    cases hr
  | cli e k =>
    cases k <;> simp only [hpc, Option.some.injEq] at hr <;> subst hr
    · exact h.pushcli hpc
    · exact h.acquire hpc
    · exact h.release hpc
    · exact h.myproc hpc
    · exact h.holding hpc
  | spin l =>
    simp only [hpc, Option.some.injEq] at hr
    subst hr
    split
    · exact h
    · next hl => exact h.spin hpc hl
  | took l =>
    have hex := (h.fit c).excess_le
    rw [hpc] at hex
    simp only [Pc.excess] at hex
    simp only [hpc, Option.some.injEq] at hr
    subst hr
    rw [Core.mycpu_eq ((h.fit c).off (by omega))]
    exact h.took hpc
  | drop l =>
    simp only [hpc, Option.some.injEq] at hr
    exact hr ▸ h.drop hpc
  | unlock l =>
    simp only [hpc, Option.some.injEq] at hr
    exact hr ▸ h.unlock hpc
  | pop =>
    simp only [hpc, Option.some.injEq] at hr
    exact hr ▸ h.pop hpc
  | sched v =>
    simp only [hpc, Option.some.injEq] at hr
    exact hr ▸ h.sched hpc
  | check v =>
    simp only [hpc] at hr
    obtain ⟨p, hp, rfl⟩ := Option.map_eq_some_iff.mp hr
    exact h.park hpc hp
  | resumed i v =>
    simp only [hpc, Option.some.injEq] at hr
    exact hr ▸ h.resumed hpc
  | returned v =>
    simp only [hpc, Option.some.injEq] at hr
    exact hr ▸ h.returned hpc

omit [DecidableEq Pid] in
/-- A thread calls a function. -/
theorem call {f : Fn Lock} {t : State Cpu Pid Lock} (h : Inv ptable s)
    (ht : s.call c f = some t) : Inv ptable t := by
  obtain ⟨hx, ht⟩ := Option.ite_none_right_eq_some.mp ht
  cases f with
  | pushcli | acquire l | release l =>
    obtain rfl := Option.some.inj ht
    exact h.cli hx trivial
  | sched =>
    obtain ⟨-, ht⟩ := Option.ite_none_left_eq_some.mp ht
    obtain rfl := Option.some.inj ht
    exact h.cli hx fun _ => rfl

/-- **What a CPU does.** -/
theorem effect {a : Act Cpu Pid Lock} (h : Inv ptable s) (hr : effect ptable s a = some r) :
    Good ptable r := by
  cases a with
  | call c f =>
    obtain ⟨t, ht, rfl⟩ := Option.map_eq_some_iff.mp hr
    exact h.call ht
  | popcli c =>
    obtain ⟨⟨hx, hpu⟩, hr⟩ := Option.ite_none_right_eq_some.mp hr
    obtain rfl := Option.some.inj hr
    exact h.popcli hx hpu
  | go c => exact h.go hr
  | interrupt c =>
    obtain ⟨hon, hr⟩ := Option.ite_none_right_eq_some.mp hr
    obtain rfl := Option.some.inj hr
    exact h.interrupt hon
  | iret c =>
    unfold Spin.effect at hr
    cases hfr : (s.cpu c).thread.frames with
    | nil =>
      simp only [hfr] at hr
      cases hr
    | cons f fs =>
      simp only [hfr] at hr
      obtain ⟨⟨hpc, hz⟩, hr⟩ := Option.ite_none_right_eq_some.mp hr
      obtain rfl := Option.some.inj hr
      exact h.iret hfr hpc hz
  | sti c =>
    obtain ⟨hx, hr⟩ := Option.ite_none_right_eq_some.mp hr
    obtain rfl := Option.some.inj hr
    exact h.sti hx
  | lock c =>
    obtain ⟨hx, hr⟩ := Option.ite_none_right_eq_some.mp hr
    obtain rfl := Option.some.inj hr
    exact h.lockTable hx
  | pick c p =>
    obtain ⟨hx, hr⟩ := Option.ite_none_right_eq_some.mp hr
    obtain ⟨t', ht', rfl⟩ := Option.map_eq_some_iff.mp hr
    obtain ⟨t, ht, ht'⟩ := Option.bind_eq_some_iff.mp ht'
    exact h.pick hx ht ht'
  | unlock c =>
    obtain ⟨hx, hr⟩ := Option.ite_none_right_eq_some.mp hr
    obtain rfl := Option.some.inj hr
    exact h.unlockTable hx

theorem step {a : Act Cpu Pid Lock} {t : State Cpu Pid Lock} (h : Inv ptable s)
    (ht : step ptable s a = some t) : Inv ptable t := by
  obtain ⟨r, hr, ht⟩ := Option.bind_eq_some_iff.mp ht
  have hgood := h.effect hr
  cases r with
  | error e => cases ht
  | ok u =>
    obtain rfl := Option.some.inj ht
    exact hgood

end Inv

/-- **Interrupts are off while a lock is held.** Whatever the CPUs do, on each of them `ncli` is
the number of `pushcli` calls that are to be undone there: by the thread that it runs, for the locks
that have been acquired on it, and for the call of `acquire` or `release` that is under way. If it
is not zero, interrupts are off; neither panic of `popcli` is reached, nor that of
`mycpu`; and a process that returns from `sched` finds that `ncli` is one and `intena` what it was
when `sched` was entered. -/
theorem interrupts_off [DecidableEq Pid] [DecidableEq Lock] {intena : Cpu → Bool}
    {as : List (Act Cpu Pid Lock)} {s : State Cpu Pid Lock}
    (hrun : run (step ptable) (start intena) as = some s) :
    (∀ c, ∃ L : Finset Lock, (∀ l, l ∈ L ↔ (s.lock l).cpu = some c) ∧
      (s.cpu c).core.ncli =
        (s.cpu c).thread.pushed + L.card + (s.cpu c).thread.pc.excess) ∧
    (∀ c, 0 < (s.cpu c).core.ncli → (s.cpu c).core.iff = false) ∧
    (∀ a, effect ptable s a ≠ some (.error .popcliInterruptible) ∧
      effect ptable s a ≠ some (.error .popcli) ∧ effect ptable s a ≠ some (.error .mycpu)) ∧
    ∀ c v, (s.cpu c).thread.pc = .returned v →
      (s.cpu c).core.ncli = 1 ∧ (s.cpu c).core.intena = v := by
  have h : Inv ptable s := run_invariant Inv.step (inv_start intena) hrun
  refine ⟨fun c => (h.fit c).count, fun c => (h.fit c).off, fun a => ?_, fun c v hpc => ?_⟩
  · refine ⟨fun he => ?_, fun he => ?_, fun he => ?_⟩
    all_goals
      rcases h.effect he with he | he | he | he <;> cases he
  · exact (h.fact hpc).2

/-- A CPU steps. -/
def steps (c : Bool) (n : ℕ) : List (Act Bool Unit Unit) := List.replicate n (.go c)

/-- The scheduler of a CPU has acquired `ptable.lock` and switches to the process. -/
def picks (c : Bool) : List (Act Bool Unit Unit) :=
  [.sti c, .lock c] ++ steps c 3 ++ [.pick c ()]

/-- A process starts, is interrupted in user mode and calls `sched`. Meanwhile another CPU waits for
`ptable.lock`. -/
def waits : List (Act Bool Unit Unit) :=
  picks false ++ [.call false (.release ())] ++ steps false 4 ++
    [.iret false, .interrupt false, .call false (.acquire ())] ++ steps false 3 ++
    [.sti true, .lock true] ++ steps true 3 ++ [.call false .sched] ++ steps false 4

/-- A process calls `sched` on one CPU and goes on on another. It comes from an interrupt handler,
which has interrupts off, while the scheduler of the other CPU has turned them on. -/
theorem interrupts_off_again :
    let as := waits ++ [.unlock false] ++ steps false 4 ++ steps true 2
    (∃ s ∈ run (step ()) (start fun _ => true) as, (s.cpu true).core.intena = true) ∧
    ∃ s ∈ run (step ()) (start fun _ => true) (as ++ [.pick true (), .go true]),
      (s.cpu true).thread.pc = .returned false ∧
      (s.cpu true).core.ncli = 1 ∧ (s.cpu true).core.intena = false := by
  intro as
  obtain ⟨s, hs, hret⟩ : ∃ s ∈ run (step ()) (start fun _ => true) (as ++ [.pick true (), .go true]),
      (s.cpu true).thread.pc = .returned false := by decide +kernel
  exact ⟨by decide +kernel, s, hs, hret, (interrupts_off hs).2.2.2 true false hret⟩

/-- A CPU has a lock from the end of the loop of `acquire` until `release` clears `locked`. -/
def State.Has (s : State Cpu Pid Lock) (c : Cpu) (l : Lock) : Prop :=
  (s.lock l).cpu = some c ∨ (s.cpu c).thread.pc.Keeps l

/-- **Only one CPU has a lock.** Whatever the CPUs do, no two of them have the same lock, and while
one has it, `locked` is set and interrupts are off there. -/
theorem spinlock_exclusive [DecidableEq Pid] [DecidableEq Lock] {intena : Cpu → Bool}
    {as : List (Act Cpu Pid Lock)} {s : State Cpu Pid Lock}
    (hrun : run (step ptable) (start intena) as = some s) (l : Lock) :
    (∀ c c', s.Has c l → s.Has c' l → c = c') ∧
      ∀ c, s.Has c l → (s.lock l).locked = true ∧ (s.cpu c).core.iff = false := by
  have h : Inv ptable s := run_invariant Inv.step (inv_start intena) hrun
  -- `cpu` is clear at both ends of the time in which a CPU has the lock
  have hnone : ∀ {c}, (s.cpu c).thread.pc.Keeps l → (s.lock l).cpu = none := by
    rintro c (hk | hk) <;> exact h.fact hk
  refine ⟨fun c c' hc hc' => ?_, fun c hc => ⟨h.locked hc, ?_⟩⟩
  · rcases hc with hc | hc <;> rcases hc' with hc' | hc'
    · exact Option.some.inj (hc.symm.trans hc')
    · cases hc.symm.trans (hnone hc')
    · cases hc'.symm.trans (hnone hc)
    · exact h.keeps hc hc'
  · have hex := (h.fit c).excess_le
    rcases hc with hc | hc | hc
    · exact (h.fit c).off_of_cpu hc
    all_goals
      rw [hc, Pc.excess] at hex
      exact (h.fit c).off (by omega)

/-- While one CPU has `ptable.lock` another waits for it, and has not got it. -/
theorem spinlock_exclusive_scheduler :
    ∃ s ∈ run (step ()) (start fun _ => true) waits, (s.cpu true).thread.pc = .spin () ∧
      s.Has false () ∧ ¬s.Has true () ∧ (s.lock ()).locked = true ∧ (s.cpu false).core.iff = false := by
  obtain ⟨s, hs, hpc, hc⟩ : ∃ s ∈ run (step ()) (start fun _ => true) waits,
      (s.cpu true).thread.pc = .spin () ∧ (s.lock ()).cpu = some false := by
    decide +kernel
  obtain ⟨hone, hlock⟩ := spinlock_exclusive hs ()
  exact ⟨s, hs, hpc, .inl hc, fun h => absurd (hone true false h (.inl hc)) (by decide),
    hlock false (.inl hc)⟩

end Xv6.Spin
