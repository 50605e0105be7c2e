import Xv6.Console.Input

/-!
# The line discipline of the console

What the buffer of `Xv6.Console.Input` is for: what is typed makes up a line, which can
be edited until it is committed, by a newline, by the end of the file or when there is no more
room, and what has been committed is read in order (`Xv6.Console.Line`). The console does just
this, whatever is typed and read, and however often the counters wrap
(`Xv6.Console.Holds.intr`, `Xv6.Console.Holds.readLoop`).

Several processes may read from the console at the same time. Each run of one of them takes what
comes next; a call during which no other process runs returns a line, or what it
asked for of it (`Xv6.Console.console_discipline`).
-/

namespace Xv6.Console

open Lib Function List

/-! ### Lines -/

/-- **The line discipline**: what has been committed, how much of it has been read, and the line
that is being typed. -/
structure Line where
  committed : List UInt8
  taken : ℕ
  line : List UInt8

namespace Line

/-- What has been committed and not read. -/
def queue (a : Line) : List UInt8 := a.committed.drop a.taken

/-- How much there is in the buffer. -/
def pending (a : Line) : ℕ := a.queue.length + a.line.length

/-- A character is added to the line. -/
def type (a : Line) (c : UInt8) : Line :=
  if c = newline ∨ c = eof ∨ a.pending + 1 = INPUT_BUF then
    { a with committed := a.committed ++ (a.line ++ [c]), line := [] }
  else
    { a with line := a.line ++ [c] }

/-- What a character does. -/
def intr (a : Line) (c : UInt8) : Line :=
  if c = 0 ∨ c = procs then a
  else if c = killLine then { a with line := [] }
  else if c = backspace ∨ c = delete then { a with line := a.line.dropLast }
  else if a.pending < INPUT_BUF then a.type (if c = carriageReturn then newline else c)
  else a

end Line

/-- What `consoleread` gets from what has been committed, and how much of it this is. -/
def readQueue (target : ℕ) : ℕ → List UInt8 → List UInt8 → Progress × ℕ
  | 0, bs, _ => (.returned bs, 0)
  | n + 1, bs, [] => (.asleep (n + 1) bs, 0)
  | n + 1, bs, c :: q =>
    if c = eof then (.returned bs, if n + 1 < target then 0 else 1)
    else if c = newline then (.returned (bs ++ [c]), 1)
    else ((readQueue target n (bs ++ [c]) q).1, (readQueue target n (bs ++ [c]) q).2 + 1)

/-- What the process that runs returns, if it does: `none` for `-1`. -/
def result (killed : Bool) : Progress → Option (Option (List UInt8))
  | .returned bs => some (some bs)
  | .asleep _ _ => if killed then some none else none

/-! ### The buffer -/

/-- **What the buffer stands for.** -/
structure Holds (i : Input) (a : Line) : Prop where
  taken : a.taken ≤ a.committed.length
  ring : i.ring.Models (a.committed ++ a.line) (a.committed.take a.taken)
  w : i.w = BitVec.ofNat 32 a.committed.length
  plain : newline ∉ a.line

namespace Holds

variable {i : Input} {a : Line} {c : UInt8}

variable (h : Holds i a)
include h

theorem length_taken : (a.committed.take a.taken).length = a.taken :=
  length_take_of_le h.taken

theorem r : i.r = BitVec.ofNat 32 a.taken := by
  have hr := h.ring.nread
  rwa [h.length_taken] at hr

theorem e : i.e = BitVec.ofNat 32 (a.committed.length + a.line.length) := by
  have he := h.ring.nwrite
  rwa [length_append] at he

/-- There are at most `INPUT_BUF` bytes in the buffer. -/
theorem bound : a.committed.length + a.line.length ≤ a.taken + INPUT_BUF := by
  have hb := h.ring.bound
  rwa [length_append, h.length_taken] at hb

theorem pending_add : a.taken + a.pending = a.committed.length + a.line.length := by
  have := h.taken
  rw [Line.pending, Line.queue, length_drop]
  omega

theorem toNat_e_sub_r : (i.e - i.r).toNat = a.pending := by
  have hsub := h.ring.toNat_sub INPUT_BUF_lt
  have hadd := h.pending_add
  rw [length_append, h.length_taken] at hsub
  exact hsub.trans (by omega)

theorem toNat_w_sub_r : (i.w - i.r).toNat = a.queue.length := by
  have ht := h.taken
  have hb := h.bound
  have hlt := INPUT_BUF_lt
  have heq : i.w - i.r = BitVec.ofNat 32 a.queue.length := by
    rw [h.w, h.r, Line.queue, length_drop]
    conv_lhs => rw [← Nat.sub_add_cancel ht, BitVec.ofNat_add]
    exact BitVec.add_sub_cancel _ _
  rw [heq, BitVec.toNat_ofNat]
  refine Nat.mod_eq_of_lt ?_
  rw [Line.queue, length_drop]
  omega

theorem e_eq_w_iff : i.e = i.w ↔ a.line = [] := by
  have hb := h.bound
  have hlt := INPUT_BUF_lt
  have ht := h.taken
  rw [h.e, h.w, eq_comm, Ring.ofNat_eq_ofNat_iff (Nat.le_add_right ..) (by omega),
    ← length_eq_zero_iff]
  omega

theorem r_eq_w_iff : i.r = i.w ↔ a.queue = [] := by
  have hb := h.bound
  have hlt := INPUT_BUF_lt
  have ht := h.taken
  rw [h.r, h.w, Ring.ofNat_eq_ofNat_iff ht (by omega), ← length_eq_zero_iff, Line.queue,
    length_drop]
  omega

theorem e_ne_w {l : List UInt8} (hl : a.line = l ++ [c]) : i.e ≠ i.w := by
  intro he
  have hnil := h.e_eq_w_iff.mp he
  rw [hl] at hnil
  exact append_ne_nil_of_right_ne_nil l (cons_ne_nil c []) hnil

/-- The last character of the line. -/
theorem last {l : List UInt8} (hl : a.line = l ++ [c]) :
    i.cell (i.e - 1) = c ∧ Holds { i with e := i.e - 1 } { a with line := l } := by
  have hring := h.ring
  rw [hl, ← append_assoc] at hring
  have hle : (a.committed.take a.taken).length ≤ (a.committed ++ l).length := by
    rw [h.length_taken, length_append]
    exact h.taken.trans (Nat.le_add_right ..)
  refine ⟨hring.back_eq INPUT_BUF_dvd hle, h.taken, hring.unpush hle, h.w, fun hmem => ?_⟩
  exact h.plain (hl ▸ mem_append_left _ hmem)

/-! ### Typing -/

/-- Killing the line. -/
theorem kill : Holds i.kill { a with line := [] } := by
  obtain ⟨committed, taken, line⟩ := a
  induction line using List.reverseRecOn generalizing i with
  | nil =>
    rwa [Input.kill, if_neg (fun hc => hc.1 (h.e_eq_w_iff.mpr rfl))]
  | append_singleton l c ih =>
    obtain ⟨hlast, hi⟩ := h.last rfl
    have hplain : i.cell (i.e - 1) ≠ newline := by
      rw [hlast]
      rintro rfl
      exact h.plain (mem_append_right _ (mem_singleton_self _))
    rw [Input.kill, if_pos ⟨h.e_ne_w rfl, hplain⟩]
    exact ih hi

/-- Taking back a character. -/
theorem backspace :
    Holds (if i.e ≠ i.w then { i with e := i.e - 1 } else i)
      { a with line := a.line.dropLast } := by
  rcases eq_nil_or_concat a.line with hl | ⟨l, c, hl⟩
  · have hdrop : a.line.dropLast = a.line := by rw [hl]; rfl
    rwa [if_neg (not_not_intro (h.e_eq_w_iff.mpr hl)), hdrop]
  · rw [concat_eq_append] at hl
    rw [if_pos (h.e_ne_w hl), hl, dropLast_concat]
    exact (h.last hl).2

/-- Storing a character. -/
theorem store (hroom : a.pending < INPUT_BUF) (c : UInt8) :
    Holds (i.store c) (a.type c) := by
  have hadd := h.pending_add
  have hfull : ¬i.ring.Full := by
    rw [h.ring.full_iff INPUT_BUF_lt, length_append, h.length_taken]
    omega
  have hring := h.ring.push INPUT_BUF_dvd INPUT_BUF_lt hfull c
  rw [append_assoc] at hring
  -- the buffer is full now
  have hlast : i.e + 1 = i.r + BitVec.ofNat 32 INPUT_BUF ↔ a.pending + 1 = INPUT_BUF := by
    have hlt := INPUT_BUF_lt
    rw [h.e, h.r, ← BitVec.ofNat_add, ← hadd]
    change BitVec.ofNat 32 _ + BitVec.ofNat 32 1 = _ ↔ _
    rw [← BitVec.ofNat_add, Ring.ofNat_eq_ofNat_iff (by omega) (by omega)]
    omega
  unfold Input.store Line.type
  simp only [hlast]
  split
  · refine ⟨?_, ?_, ?_, not_mem_nil⟩
    · exact h.taken.trans (length_append ▸ Nat.le_add_right ..)
    · rwa [append_nil, take_append_of_le_length h.taken]
    · have hw := hring.nwrite
      exact hw
  · rename_i hplain
    refine ⟨h.taken, hring, h.w, fun hmem => ?_⟩
    rcases mem_append.mp hmem with hmem | hmem
    · exact h.plain hmem
    · exact hplain (.inl (mem_singleton.mp hmem).symm)

/-- **A character is typed.** -/
theorem intr (c : UInt8) : Holds (i.intr c) (a.intr c) := by
  by_cases hp : c = procs
  · have hi : i.intr c = i := if_pos hp
    have ha : a.intr c = a := if_pos (.inr hp)
    rwa [hi, ha]
  by_cases hk : c = killLine
  · subst hk
    exact h.kill
  by_cases hb : c = Console.backspace ∨ c = delete
  · rcases hb with rfl | rfl
    · exact h.backspace
    · exact h.backspace
  by_cases h0 : c = 0
  · subst h0
    exact h
  have hi : i.intr c = if c ≠ 0 ∧ (i.e - i.r).toNat < INPUT_BUF then
      i.store (if c = carriageReturn then newline else c) else i := by
    unfold Input.intr
    rw [if_neg hp, if_neg hk, if_neg hb]
  have ha : a.intr c = if a.pending < INPUT_BUF then
      a.type (if c = carriageReturn then newline else c) else a := by
    unfold Line.intr
    rw [if_neg (not_or.mpr ⟨h0, hp⟩), if_neg hk, if_neg hb]
  rw [hi, ha, h.toNat_e_sub_r]
  by_cases hroom : a.pending < INPUT_BUF
  · rw [if_pos ⟨h0, hroom⟩, if_pos hroom]
    exact h.store hroom _
  · rwa [if_neg (fun hc => hroom hc.2), if_neg hroom]

/-! ### Reading -/

/-- The next character is read. -/
theorem pop {q : List UInt8} (hq : a.queue = c :: q) :
    i.cell i.r = c ∧ Holds { i with r := i.r + 1 } { a with taken := a.taken + 1 } := by
  have hget : a.committed[a.taken]? = some c := by
    have hhead := congrArg (·[0]?) hq
    rwa [Line.queue, List.getElem?_drop] at hhead
  obtain ⟨hlt, -⟩ := List.getElem?_eq_some_iff.mp hget
  have hempty : ¬i.ring.Empty := by
    rw [h.ring.empty_iff INPUT_BUF_lt, h.length_taken, length_append]
    omega
  have hfront := h.ring.getElem?_front INPUT_BUF_dvd INPUT_BUF_lt hempty
  rw [h.length_taken, List.getElem?_append_left hlt, hget] at hfront
  obtain rfl := Option.some.inj hfront
  have hring := h.ring.pop INPUT_BUF_dvd INPUT_BUF_lt hempty
  refine ⟨rfl, hlt, ?_, h.w, h.plain⟩
  rwa [take_add_one, hget]

omit h

/-- **A process reads.** -/
theorem readLoop (target : ℕ) : ∀ {n : ℕ} {bs : List UInt8} {i : Input} {a : Line}, Holds i a →
    (Console.readLoop target n bs i).1 = (readQueue target n bs a.queue).1 ∧
      Holds (Console.readLoop target n bs i).2
        { a with taken := a.taken + (readQueue target n bs a.queue).2 } := by
  intro n
  induction n with
  | zero => exact fun h => ⟨rfl, h⟩
  | succ n ih =>
    intro bs i a h
    rw [Console.readLoop]
    cases hq : a.queue with
    | nil =>
      rw [if_pos (h.r_eq_w_iff.mpr hq)]
      exact ⟨rfl, h⟩
    | cons c q =>
      have hne : i.r ≠ i.w := fun hr => by
        have hnil := h.r_eq_w_iff.mp hr
        rw [hq] at hnil
        cases hnil
      obtain ⟨hc, hpop⟩ := h.pop hq
      have hrest : Line.queue { a with taken := a.taken + 1 } = q := by
        rw [Line.queue, ← drop_drop, ← Line.queue, hq]
        rfl
      rw [if_neg hne, readQueue]
      simp only [hc]
      by_cases heof : c = eof
      · rw [if_pos heof, if_pos heof]
        refine ⟨rfl, ?_⟩
        simp only
        split
        · rwa [BitVec.add_sub_cancel]
        · exact hpop
      rw [if_neg heof, if_neg heof]
      by_cases hnl : c = newline
      · rw [if_pos hnl, if_pos hnl]
        exact ⟨rfl, hpop⟩
      rw [if_neg hnl, if_neg hnl]
      obtain ⟨h1, h2⟩ := @ih (bs ++ [c]) _ _ hpop
      rw [hrest] at h1 h2
      refine ⟨h1, ?_⟩
      rwa [Nat.add_comm _ 1, ← Nat.add_assoc]

/-- The bytes between `r` and `w`. -/
theorem slice_queue (h : Holds i a) : i.ring.slice i.r (i.w - i.r).toNat = a.queue := by
  have ht := h.taken
  have hlen : a.taken + a.queue.length ≤ (a.committed ++ a.line).length := by
    rw [Line.queue, length_drop, length_append]
    omega
  rw [h.toNat_w_sub_r, h.r, h.ring.slice_eq INPUT_BUF_dvd h.length_taken.le hlen,
    drop_append_of_le_length ht]
  exact take_left

/-- The bytes between `w` and `e`. -/
theorem slice_line (h : Holds i a) : i.ring.slice i.w (i.e - i.w).toNat = a.line := by
  have ht := h.taken
  have hb := h.bound
  have hsub : (i.e - i.w).toNat = a.line.length := by
    have hlt := INPUT_BUF_lt
    rw [h.e, h.w, BitVec.ofNat_add, BitVec.add_comm, BitVec.add_sub_cancel, BitVec.toNat_ofNat]
    exact Nat.mod_eq_of_lt (by omega)
  rw [hsub, h.w, h.ring.slice_eq INPUT_BUF_dvd (h.length_taken.trans_le ht)
    (length_append ..).ge, drop_left, take_length]

end Holds

/-! ### The processes -/

variable {Pid : Type}

/-- The line discipline and the processes that are in `consoleread`. -/
structure Session (Pid : Type) where
  line : Line
  reader : Pid → Option Reader

namespace Session

variable [DecidableEq Pid]

/-- A process takes some of what has been committed. -/
def setReader (s : Session Pid) (p : Pid) (k : ℕ) (x : Option Reader) : Session Pid where
  line := { s.line with taken := s.line.taken + k }
  reader := update s.reader p x

/-- A process runs until it sleeps or returns. -/
def resume (s : Session Pid) (p : Pid) (killed : Bool) (x : Reader) : Session Pid :=
  match readQueue x.target x.n x.bs s.line.queue with
  | (.returned _, k) => s.setReader p k none
  | (.asleep n bs, k) =>
    s.setReader p k (if killed then none else some { x with n := n, bs := bs })

/-- What is left of a call. -/
def next (killed : Bool) (x : Reader) : Progress → Option Reader
  | .returned _ => none
  | .asleep n bs => if killed then none else some { x with n := n, bs := bs }

theorem resume_eq (s : Session Pid) (p : Pid) (killed : Bool) (x : Reader) :
    s.resume p killed x = s.setReader p (readQueue x.target x.n x.bs s.line.queue).2
      (next killed x (readQueue x.target x.n x.bs s.line.queue).1) := by
  unfold resume
  obtain ⟨m, k⟩ := readQueue x.target x.n x.bs s.line.queue
  cases m <;> rfl

def step (s : Session Pid) : Act Pid → Option (Session Pid)
  | .intr c => some { s with line := s.line.intr c }
  | .read p n => if s.reader p = none then some (s.setReader p 0 (some ⟨n, n, []⟩)) else none
  | .run p killed => (s.reader p).map fun x => s.resume p killed x

/-- When the system starts. -/
def start : Session Pid := ⟨⟨[], 0, []⟩, fun _ => none⟩

end Session

/-- The console is in a state of the line discipline. -/
structure Refines (s : State Pid) (a : Session Pid) : Prop where
  holds : Holds s.input a.line
  reader : s.reader = a.reader

theorem refines_start (buf : Fin INPUT_BUF → UInt8) :
    Refines (start buf : State Pid) Session.start :=
  ⟨⟨le_rfl, .nil, rfl, not_mem_nil⟩, rfl⟩

variable [DecidableEq Pid] {q bs : List UInt8} {c : UInt8} {n : ℕ}

namespace Refines

variable {s t : State Pid} {a : Session Pid} {p : Pid} {x : Reader}

/-- A process runs: it returns what the line discipline gives it, or goes on. -/
theorem resume (h : Refines s a) (killed : Bool) :
    (s.resume p killed x).1 = result killed (readQueue x.target x.n x.bs a.line.queue).1 ∧
      Refines (s.resume p killed x).2 (a.resume p killed x) := by
  obtain ⟨hp, hh⟩ := @Holds.readLoop x.target x.n x.bs _ _ h.holds
  unfold State.resume Session.resume
  cases hl : readLoop x.target x.n x.bs s.input with
  | mk m i =>
    cases hq : readQueue x.target x.n x.bs a.line.queue with
    | mk m' k =>
      rw [hl, hq] at hp hh
      obtain rfl : m = m' := hp
      have hset : ∀ y, Refines (State.setReader { s with input := i } p y)
          (a.setReader p k y) := fun y =>
        ⟨hh, congrArg (fun r : Pid → Option Reader => update r p y) h.reader⟩
      cases m with
      | returned bs => exact ⟨rfl, hset none⟩
      | asleep n bs =>
        cases killed with
        | true => exact ⟨rfl, hset none⟩
        | false => exact ⟨rfl, hset _⟩

/-- **A step of the console is a step of the line discipline.** -/
theorem step {x : Act Pid} (h : Refines s a) (hs : Console.step s x = some t) :
    ∃ b, a.step x = some b ∧ Refines t b := by
  cases x with
  | intr c =>
    obtain rfl := Option.some.inj hs
    exact ⟨_, rfl, h.holds.intr c, h.reader⟩
  | read p n =>
    obtain ⟨hidle, ht⟩ := Option.ite_none_right_eq_some.mp hs
    obtain rfl := Option.some.inj ht
    rw [h.reader] at hidle
    exact ⟨_, if_pos hidle, h.holds, congrArg (update · p _) h.reader⟩
  | run p killed =>
    obtain ⟨y, hy, ht⟩ := Option.map_eq_some_iff.mp hs
    obtain rfl := ht
    rw [h.reader] at hy
    refine ⟨a.resume p killed y, ?_, (h.resume killed).2⟩
    rw [Session.step, hy]
    rfl

end Refines

/-! ### Calls -/

/-- The end of a line is not among some characters. -/
def Plain (bs : List UInt8) : Prop := ∀ c ∈ bs, c ≠ eof ∧ c ≠ newline

instance (bs : List UInt8) : Decidable (Plain bs) := inferInstanceAs (Decidable (∀ c ∈ bs, _))

/-- **What a call for `n` bytes is to return**: the next `n` bytes, up to the first newline,
which is included, or the first end of file, which is not. -/
def takeLine : ℕ → List UInt8 → List UInt8
  | 0, _ => []
  | _ + 1, [] => []
  | n + 1, c :: q => if c = eof then [] else if c = newline then [c] else c :: takeLine n q

/-- There is not yet enough for a call to return. -/
def Short (n : ℕ) (q : List UInt8) : Prop := q.length < n ∧ Plain q

instance (n : ℕ) (q : List UInt8) : Decidable (Short n q) := inferInstanceAs (Decidable (_ ∧ _))

theorem plain_nil : Plain [] := forall_mem_nil _

theorem plain_cons :
    Plain (c :: q) ↔ (c ≠ eof ∧ c ≠ newline) ∧ Plain q :=
  forall_mem_cons

theorem plain_append : Plain (bs ++ q) ↔ Plain bs ∧ Plain q :=
  forall_mem_append

theorem short_append (h : Plain bs) (n : ℕ) :
    Short (bs.length + n) (bs ++ q) ↔ Short n q := by
  rw [Short, Short, length_append, plain_append, Nat.add_lt_add_iff_left]
  exact and_congr_right fun _ => and_iff_right h

theorem short_cons (h : c ≠ eof ∧ c ≠ newline) :
    Short (n + 1) (c :: q) ↔ Short n q := by
  rw [Short, Short, length_cons, plain_cons, Nat.add_lt_add_iff_right]
  exact and_congr_right fun _ => and_iff_right h

theorem not_short_cons (h : ¬(c ≠ eof ∧ c ≠ newline)) :
    ¬Short n (c :: q) :=
  fun hs => h (plain_cons.mp hs.2).1

theorem takeLine_append (h : Plain bs) (n : ℕ) :
    takeLine (bs.length + n) (bs ++ q) = bs ++ takeLine n q := by
  induction bs with
  | nil => rw [length_nil, Nat.zero_add, nil_append, nil_append]
  | cons c bs ih =>
    obtain ⟨⟨heof, hnl⟩, hbs⟩ := plain_cons.mp h
    rw [length_cons, Nat.add_right_comm, cons_append, takeLine, if_neg heof,
      if_neg hnl, ih hbs, cons_append]

/-- A call returns no bytes just at the end of the file. -/
theorem takeLine_eq_nil (hn : 0 < n) (h : ¬Short n q) :
    takeLine n q = [] ↔ q.head? = some eof := by
  obtain ⟨n, rfl⟩ := Nat.exists_eq_add_of_lt hn
  cases q with
  | nil => exact absurd ⟨hn, plain_nil⟩ h
  | cons c q =>
    rw [Nat.zero_add, takeLine, head?_cons, Option.some_inj]
    by_cases heof : c = eof
    · exact iff_of_true (if_pos heof) heof
    · rw [if_neg heof]
      refine iff_of_false (fun hnil => ?_) heof
      split at hnil <;> cases hnil

/-- What a process that runs comes to. -/
theorem readQueue_fst {target : ℕ} : ∀ {n : ℕ} {bs q : List UInt8},
    (readQueue target n bs q).1 =
      if Short n q then .asleep (n - q.length) (bs ++ q) else .returned (bs ++ takeLine n q) := by
  intro n
  induction n with
  | zero =>
    intro bs q
    rw [if_neg fun h => absurd h.1 (Nat.not_lt_zero _), takeLine, append_nil]
    rfl
  | succ n ih =>
    intro bs q
    cases q with
    | nil =>
      rw [if_pos ⟨Nat.succ_pos n, plain_nil⟩, append_nil]
      rfl
    | cons c q =>
      rw [readQueue, takeLine]
      by_cases heof : c = eof
      · rw [if_pos heof, if_pos heof, if_neg (not_short_cons fun h => h.1 heof),
          append_nil]
      rw [if_neg heof, if_neg heof]
      by_cases hnl : c = newline
      · rw [if_pos hnl, if_pos hnl, if_neg (not_short_cons fun h => h.2 hnl)]
      rw [if_neg hnl, if_neg hnl, ih]
      simp only [short_cons ⟨heof, hnl⟩, append_assoc, singleton_append,
        length_cons, Nat.add_sub_add_right]

/-- How much it takes. -/
theorem readQueue_snd {target : ℕ} : ∀ {n : ℕ} {bs q : List UInt8}, bs.length + n = target →
    (readQueue target n bs q).2 =
      if Short n q then q.length
      else if 0 < n ∧ bs ++ takeLine n q = [] then 1 else (takeLine n q).length := by
  intro n
  induction n with
  | zero =>
    intro bs q _
    rw [if_neg fun h => absurd h.1 (Nat.not_lt_zero _), if_neg fun h => absurd h.1 (lt_irrefl 0)]
    rfl
  | succ n ih =>
    intro bs q hlen
    cases q with
    | nil =>
      rw [if_pos ⟨Nat.succ_pos n, plain_nil⟩]
      rfl
    | cons c q =>
      rw [readQueue, takeLine]
      by_cases heof : c = eof
      · rw [if_pos heof, if_pos heof, if_neg (not_short_cons fun h => h.1 heof),
          append_nil]
        have hiff : n + 1 < target ↔ ¬(0 < n + 1 ∧ bs = []) := by
          rw [← hlen, ← length_eq_zero_iff]
          omega
        simp only [hiff, ite_not, length_nil]
      rw [if_neg heof, if_neg heof]
      by_cases hnl : c = newline
      · rw [if_pos hnl, if_pos hnl, if_neg (not_short_cons fun h => h.2 hnl),
          if_neg fun h => append_ne_nil_of_right_ne_nil bs (cons_ne_nil _ _) h.2]
        rfl
      rw [if_neg hnl, if_neg hnl]
      have hlen' : (bs ++ [c]).length + n = target := by
        rw [length_append, length_singleton, ← hlen]
        omega
      have hne : ∀ l, ¬(0 < n ∧ bs ++ [c] ++ l = []) := fun l h => by simp at h
      have hne' : ∀ l, ¬(0 < n + 1 ∧ bs ++ c :: l = []) := fun l h => by simp at h
      simp only [ih hlen', short_cons ⟨heof, hnl⟩, if_neg (hne _), if_neg (hne' _),
        length_cons]
      split <;> rfl

/-- A character typed only adds to what has been committed. -/
theorem Line.intr_committed (a : Line) (c : UInt8) :
    (∃ z, (a.intr c).committed = a.committed ++ z) ∧ (a.intr c).taken = a.taken := by
  unfold Line.intr Line.type
  split_ifs
  all_goals first
    | exact ⟨⟨_, rfl⟩, rfl⟩
    | exact ⟨⟨[], (append_nil _).symm⟩, rfl⟩

/-- What can happen during a call of a process that is not killed, if no other process runs. -/
def Undisturbed (p : Pid) : Act Pid → Prop
  | .intr _ => True
  | .read q _ => q ≠ p
  | .run q killed => q = p ∧ killed = false

/-- **A call**: a process has called `consoleread` for `n` bytes when `t` had been taken, and
has got some of them. -/
structure Calling (p : Pid) (n t : ℕ) (a : Session Pid) (x : Reader) : Prop where
  reader : a.reader p = some x
  target : x.target = n
  length : x.bs.length + x.n = n
  plain : Plain x.bs
  le : a.line.taken ≤ a.line.committed.length
  taken : a.line.taken = t + x.bs.length
  got : a.line.committed.drop t = x.bs ++ a.line.queue

namespace Calling

variable {p : Pid} {n t : ℕ} {a b : Session Pid} {x : Reader}

variable (h : Calling p n t a x)
include h

theorem resume_of_short (hs : Short x.n a.line.queue) :
    a.resume p false x = a.setReader p a.line.queue.length
      (some { x with n := x.n - a.line.queue.length, bs := x.bs ++ a.line.queue }) := by
  rw [Session.resume_eq, readQueue_fst, readQueue_snd (h.length.trans h.target.symm), if_pos hs,
    if_pos hs]
  rfl

theorem resume_of_not_short (hs : ¬Short x.n a.line.queue)
    (killed : Bool) :
    a.resume p killed x =
      a.setReader p
        (if 0 < x.n ∧ x.bs ++ takeLine x.n a.line.queue = [] then 1
         else (takeLine x.n a.line.queue).length) none := by
  rw [Session.resume_eq, readQueue_fst, readQueue_snd (h.length.trans h.target.symm), if_neg hs,
    if_neg hs]
  rfl

/-- A process that sleeps has taken everything. -/
theorem sleep (hs : Short x.n a.line.queue) :
    Calling p n t (a.resume p false x)
      { x with n := x.n - a.line.queue.length, bs := x.bs ++ a.line.queue } := by
  have hle := h.le
  have htaken := h.taken
  have hlen := h.length
  have hqlen : a.line.queue.length = a.line.committed.length - a.line.taken := length_drop
  rw [h.resume_of_short hs]
  refine ⟨update_self .., h.target, ?_, plain_append.mpr ⟨h.plain, hs.2⟩, ?_, ?_, ?_⟩
  · have hlt := hs.1
    change (x.bs ++ a.line.queue).length + (x.n - a.line.queue.length) = n
    rw [length_append]
    omega
  · change a.line.taken + a.line.queue.length ≤ a.line.committed.length
    omega
  · change a.line.taken + a.line.queue.length = t + (x.bs ++ a.line.queue).length
    rw [length_append]
    omega
  · have hall : a.line.committed.drop (a.line.taken + a.line.queue.length) = [] :=
      drop_eq_nil_of_le (by omega)
    change a.line.committed.drop t = x.bs ++ a.line.queue ++
      a.line.committed.drop (a.line.taken + a.line.queue.length)
    rw [hall, append_nil, h.got]

/-- A call goes on, or it returns. -/
theorem step {z : Act Pid} (hz : Undisturbed p z)
    (hs : a.step z = some b) : (∃ y, Calling p n t b y) ∨ b.reader p = none := by
  cases z with
  | intr c =>
    obtain rfl := Option.some.inj hs
    obtain ⟨⟨z, hz⟩, ht⟩ := a.line.intr_committed c
    have hle := h.le
    have htaken := h.taken
    refine .inl ⟨x, h.reader, h.target, h.length, h.plain, ?_, ht.trans h.taken, ?_⟩
    · rw [ht, hz, length_append]
      exact hle.trans (Nat.le_add_right ..)
    · rw [Line.queue, ht, hz, drop_append_of_le_length (by omega),
        drop_append_of_le_length hle, h.got, append_assoc, Line.queue]
  | read q m =>
    obtain ⟨-, ht⟩ := Option.ite_none_right_eq_some.mp hs
    obtain rfl := Option.some.inj ht
    exact .inl ⟨x, (update_of_ne (Ne.symm hz) ..).trans h.reader, h.target, h.length,
      h.plain, h.le, h.taken, h.got⟩
  | run q killed =>
    obtain ⟨rfl, rfl⟩ := hz
    rw [Session.step, h.reader] at hs
    obtain rfl : a.resume q false x = b := Option.some.inj hs
    by_cases hshort : Short x.n a.line.queue
    · exact .inl ⟨_, h.sleep hshort⟩
    · rw [h.resume_of_not_short hshort]
      exact .inr (update_self ..)

omit h

/-- A process that is not in a call stays so. -/
theorem step_idle (h : a.reader p = none) {z : Act Pid} (hz : Undisturbed p z)
    (hs : a.step z = some b) : b.reader p = none := by
  cases z with
  | intr c =>
    obtain rfl := Option.some.inj hs
    exact h
  | read q m =>
    obtain ⟨-, ht⟩ := Option.ite_none_right_eq_some.mp hs
    obtain rfl := Option.some.inj ht
    exact (update_of_ne (Ne.symm hz) ..).trans h
  | run q killed =>
    obtain ⟨rfl, -⟩ := hz
    rw [Session.step, h] at hs
    cases hs

/-- **A call during which no other process runs.** -/
theorem run {y : Reader} {zs : List (Act Pid)} : ∀ {a : Session Pid} {x : Reader},
    Calling p n t a x → (∀ z ∈ zs, Undisturbed p z) → Lib.run Session.step a zs = some b →
      b.reader p = some y → Calling p n t b y := by
  have key : ∀ {a : Session Pid}, ((∃ x, Calling p n t a x) ∨ a.reader p = none) →
      (∀ z ∈ zs, Undisturbed p z) → Lib.run Session.step a zs = some b →
        (∃ x, Calling p n t b x) ∨ b.reader p = none := by
    induction zs with
    | nil =>
      intro a h _ hrun
      obtain rfl := Option.some.inj hrun
      exact h
    | cons z zs ih =>
      intro a h hz hrun
      obtain ⟨u, hu, hrest⟩ := run_cons.mp hrun
      obtain ⟨hz, hzs⟩ := forall_mem_cons.mp hz
      refine ih ?_ hzs hrest
      rcases h with ⟨x, hx⟩ | hidle
      · exact hx.step hz hu
      · exact .inr (step_idle hidle hz hu)
  intro a x h hz hrun hy
  rcases key (.inl ⟨x, h⟩) hz hrun with ⟨x', hx'⟩ | hidle
  · obtain rfl := Option.some.inj (hx'.reader.symm.trans hy)
    exact hx'
  · rw [hidle] at hy
    cases hy

section

omit [DecidableEq Pid]

include h

/-- What is to be read determines what a process comes to. -/
theorem short_iff :
    Short n (a.line.committed.drop t) ↔ Short x.n a.line.queue := by
  rw [h.got, ← h.length]
  exact short_append h.plain x.n

theorem takeLine_eq :
    takeLine n (a.line.committed.drop t) = x.bs ++ takeLine x.n a.line.queue := by
  rw [h.got, ← h.length]
  exact takeLine_append h.plain x.n

/-- What the call returns, if it does. -/
theorem result_eq (killed : Bool) :
    result killed (readQueue x.target x.n x.bs a.line.queue).1 =
      if Short n (a.line.committed.drop t) then if killed then some none else none
      else some (some (takeLine n (a.line.committed.drop t))) := by
  rw [readQueue_fst, if_congr h.short_iff rfl rfl, h.takeLine_eq]
  split <;> rfl

end

/-- What has been taken when it returns. -/
theorem taken_eq (h : Calling p n t a x) (hn : 0 < n) (killed : Bool)
    (hshort : ¬Short n (a.line.committed.drop t)) :
    (a.resume p killed x).line.taken =
      t + if takeLine n (a.line.committed.drop t) = [] then 1
        else (takeLine n (a.line.committed.drop t)).length := by
  rw [h.resume_of_not_short (mt h.short_iff.mpr hshort), h.takeLine_eq]
  change a.line.taken + _ = _
  have hlen := h.length
  rw [h.taken]
  by_cases hnil : x.bs ++ takeLine x.n a.line.queue = []
  · obtain ⟨hbs, -⟩ := append_eq_nil_iff.mp hnil
    rw [hbs, length_nil, Nat.zero_add] at hlen
    rw [if_pos ⟨hlen ▸ hn, hnil⟩, if_pos hnil, hbs, length_nil, Nat.add_zero]
  · rw [if_neg fun hc => hnil hc.2, if_neg hnil, length_append, Nat.add_assoc]

/-- A call begins. -/
theorem read (h : a.step (.read p n) = some b) (hle : a.line.taken ≤ a.line.committed.length) :
    Calling p n a.line.taken b ⟨n, n, []⟩ := by
  obtain ⟨-, hb⟩ := Option.ite_none_right_eq_some.mp h
  obtain rfl := Option.some.inj hb
  exact ⟨update_self .., rfl, Nat.zero_add n, plain_nil, hle, rfl, rfl⟩

end Calling

/-- **The line discipline of the console.** Whatever is typed and read by any number of processes,
the three counters are in order and at most `INPUT_BUF` apart, what is between `r` and `w` is what
has been committed and not read, what is between `w` and `e` is the line that is being typed, and
the calls of `consoleread` that are under way are those of the line discipline; a process that
runs gets what comes next.

If a process then calls `consoleread` for `n` bytes, and no other process runs during this call,
let `q` be what had not been read before the call. When the process runs, it sleeps, or has been
killed, just if `q` has less than `n` bytes and no end of a line; otherwise it returns
`Xv6.Console.takeLine n q`, which is empty just if an end of file comes first in `q`, and takes
what it returns, or that end of file. -/
theorem console_discipline {buf : Fin INPUT_BUF → UInt8} {zs : List (Act Pid)} {s : State Pid}
    (hrun : run step (start buf) zs = some s) :
    ∃ a, run Session.step Session.start zs = some a ∧
      (s.input.w - s.input.r).toNat ≤ (s.input.e - s.input.r).toNat ∧
      (s.input.e - s.input.r).toNat ≤ INPUT_BUF ∧
      s.input.ring.slice s.input.r (s.input.w - s.input.r).toNat = a.line.queue ∧
      s.input.ring.slice s.input.w (s.input.e - s.input.w).toNat = a.line.line ∧
      s.reader = a.reader ∧
      (∀ p killed x, (s.resume p killed x).1 =
        result killed (readQueue x.target x.n x.bs a.line.queue).1) ∧
      ∀ p n ys t y killed, 0 < n → (∀ z ∈ ys, Undisturbed p z) →
        run step s (.read p n :: ys) = some t → t.reader p = some y →
        ∃ b, run Session.step a (.read p n :: ys) = some b ∧
          ∃ q, q = b.line.committed.drop a.line.taken ∧
            (t.resume p killed y).1 =
              (if Short n q then if killed then some none else none
               else some (some (takeLine n q))) ∧
            (¬Short n q → (takeLine n q = [] ↔ q.head? = some eof) ∧
              (b.resume p killed y).line.taken =
                a.line.taken + if takeLine n q = [] then 1 else (takeLine n q).length) := by
  obtain ⟨a, ha, hr⟩ := run_simulates Refines.step (refines_start buf) hrun
  have hh := hr.holds
  have hpend : (s.input.e - s.input.r).toNat = a.line.queue.length + a.line.line.length :=
    hh.toNat_e_sub_r
  refine ⟨a, ha, ?_, ?_, hh.slice_queue, hh.slice_line, hr.reader,
    fun p killed x => (hr.resume killed).1, ?_⟩
  · rw [hpend, hh.toNat_w_sub_r]
    exact Nat.le_add_right ..
  · have hb := hh.bound
    have hadd := hh.pending_add
    rw [hh.toNat_e_sub_r]
    omega
  intro p n ys t y killed hn hys ht hy
  obtain ⟨b, hb, hrb⟩ := run_simulates Refines.step hr ht
  obtain ⟨u, hu, hub⟩ := run_cons.mp hb
  have hcall : Calling p n a.line.taken b y :=
    (Calling.read hu hh.taken).run hys hub (hrb.reader ▸ hy)
  refine ⟨b, hb, _, rfl, (hrb.resume killed).1.trans (hcall.result_eq killed), fun hs => ?_⟩
  exact ⟨takeLine_eq_nil hn hs, hcall.taken_eq hn killed hs⟩

/-- What is typed while no process reads. -/
theorem run_intr (cs : List UInt8) : ∀ (s : State Pid),
    run step s (cs.map .intr) = some { s with input := cs.foldl Input.intr s.input } := by
  induction cs with
  | nil => exact fun _ => rfl
  | cons c cs ih => exact fun s => ih _

theorem run_intr_session (cs : List UInt8) : ∀ (a : Session Pid),
    run Session.step a (cs.map .intr) = some { a with line := cs.foldl Line.intr a.line } := by
  induction cs with
  | nil => exact fun _ => rfl
  | cons c cs ih => exact fun a => ih _

/-- The line `hi` is typed with a mistake, and a call for five bytes returns it. -/
theorem console_discipline_hi :
    ∃ s t : State ℕ, run step (start fun _ => 0) ([104, 111, 8, 105, 13].map .intr) = some s ∧
      run step s [.read 0 5] = some t ∧
      s.input.ring.slice s.input.r (s.input.w - s.input.r).toNat = [104, 105, 10] ∧
      (t.resume 0 false ⟨5, 5, []⟩).1 = some (some [104, 105, 10]) := by
  obtain ⟨a, ha, -, -, hq, -, -, -, hcall⟩ := console_discipline (run_intr
    [104, 111, 8, 105, 13] (start fun _ => 0 : State ℕ))
  obtain rfl := Option.some.inj ((run_intr_session _ _).symm.trans ha)
  obtain ⟨b, hb, q, rfl, hret, -⟩ := hcall 0 5 [] _ ⟨5, 5, []⟩ false (by decide)
    (forall_mem_nil _) rfl rfl
  obtain rfl := Option.some.inj hb
  refine ⟨_, _, run_intr _ _, rfl, hq, hret⟩

end Xv6.Console
