import Xv6.Inode.Protocol
import Xv6.Lib.Count

/-!
# What holds of one entry of the inode cache

The steps of the cache, branch by branch (`Xv6.Inode.Step`), and what they
preserve of a single entry (`Xv6.Inode.SlotInv`). Every step is about one process
and one entry, so the invariant is stated for an entry with its own data – the
copy of the inode, the references, the processes waiting for its lock, the inode
on the disk – and for all processes; a lemma for each step then says what becomes
of it, and one lemma (`Xv6.Inode.SlotInv.frame`) says that the other entries do
not care.

The heart of the invariant is `Xv6.Inode.SlotInv.alive`. An inode without links
must be freed by the last `iput`, so as long as it has not been, there must be a
reference left whose `iput` is still to decide. The step that may break it is the
one in which `iput` reads a `ref` other than one and leaves the inode alone: the
other references it counted may be in `iput` calls that have left it alone as
well.
-/

namespace Xv6.Inode

open Lib Function

variable {Pid : Type}

/-! ### What a step can be -/

/-- The process is between two calls or in one about entry `i`. -/
def Pc.About (i : Slot) : Pc → Prop
  | .idle => True
  | .ilock j | .load j | .iput j | .test j | .getref j | .free j | .unlock j | .drop j => j = i

/-- The process holds the sleep-lock of `i` in the middle of a call. -/
def Pc.Holds (i : Slot) : Pc → Prop
  | .load j | .test j | .getref j | .free j | .unlock j => j = i
  | _ => False

/-- The process is in an `iput` of `i`. -/
def Pc.Puts (i : Slot) : Pc → Prop
  | .iput j | .test j | .getref j | .free j | .unlock j | .drop j => j = i
  | _ => False

/-- The process is in an `iput` of `i` that has not decided yet to leave the inode
alone. -/
def Pc.Deciding (i : Slot) : Pc → Prop
  | .iput j | .test j | .getref j | .free j => j = i
  | _ => False

variable [DecidableEq Pid]

/-- **What a step of the cache can be**, with the tests that allow it: the
relation that `Xv6.Inode.step` computes, one constructor for each branch. -/
inductive Step (s : St Pid) : Act Pid → St Pid → Prop where
  /-- `iget` finds the inode cached. -/
  | hit (p : Pid) (i : Slot) {dev inum : UInt32} (hpc : s.pc p = .idle)
      (his : (s.inode i).Is dev inum) :
      Step s (.iget p dev inum) { s.set i { s.inode i with ref := (s.inode i).ref + 1 } with
        refs := update s.refs i (s.refs i + 1) }
  /-- `iget` takes over an entry that is not in use. -/
  | recycle (p : Pid) (i : Slot) (dev inum : UInt32) (hpc : s.pc p = .idle)
      (h0 : (s.inode i).ref = 0) (hno : ∀ j, ¬(s.inode j).Is dev inum) :
      Step s (.iget p dev inum) { s.set i
          { s.inode i with dev := dev, inum := inum, ref := 1, valid := false } with
        refs := update s.refs i (s.refs i + 1)
        loaded := update s.loaded i false }
  | idup (p : Pid) (i : Slot) (hpc : s.pc p = .idle) (href : 1 ≤ s.refs i) :
      Step s (.idup p i) { s.set i { s.inode i with ref := (s.inode i).ref + 1 } with
        refs := update s.refs i (s.refs i + 1) }
  | ilock (p : Pid) (i : Slot) (hpc : s.pc p = .idle) (href : 1 ≤ s.refs i) :
      Step s (.ilock p i) ({ s with
        waiting := update s.waiting i (s.waiting i + 1) }.goto p (.ilock i))
  | iunlock (p : Pid) (i : Slot) (hpc : s.pc p = .idle) (hlock : (s.inode i).lock = some p) :
      Step s (.iunlock p i) (releasesleep s i)
  | update (p : Pid) (i : Slot) (d : Dinode) (hpc : s.pc p = .idle)
      (hlock : (s.inode i).lock = some p) :
      Step s (.update p i d) ((s.set i { s.inode i with d := d }).iupdate i)
  | iput (p : Pid) (i : Slot) (hpc : s.pc p = .idle) (href : 1 ≤ s.refs i)
      (huse : 2 ≤ s.refs i ∨ s.waiting i = 0 ∧ ¬s.Locked i) :
      Step s (.iput p i) ({ s with
        refs := update s.refs i (s.refs i - 1) }.goto p (.iput i))
  /-- `ilock` takes the sleep-lock. -/
  | acquire (p : Pid) (i : Slot) (hpc : s.pc p = .ilock i) (hfree : (s.inode i).lock = none) :
      Step s (.next p) ({ acquiresleep s p i with
        waiting := update s.waiting i (s.waiting i - 1) }.goto p (.load i))
  /-- `ilock` finds the inode read already. -/
  | cached (p : Pid) (i : Slot) (hpc : s.pc p = .load i) (hv : (s.inode i).valid = true) :
      Step s (.next p) (s.goto p .idle)
  /-- `ilock` reads the inode. -/
  | load (p : Pid) (i : Slot) (hpc : s.pc p = .load i) :
      Step s (.next p) ({ s.set i { s.inode i with
          d := s.disk (s.inode i).dev (s.inode i).inum, valid := true } with
        loaded := update s.loaded i true }.goto p .idle)
  /-- `iput` takes the sleep-lock. -/
  | acquirePut (p : Pid) (i : Slot) (hpc : s.pc p = .iput i)
      (hfree : (s.inode i).lock = none) :
      Step s (.next p) ((acquiresleep s p i).goto p (.test i))
  /-- `iput` finds an inode without links. -/
  | unlinked (p : Pid) (i : Slot) (hpc : s.pc p = .test i) :
      Step s (.next p) (s.goto p (.getref i))
  /-- `iput` finds one with links, or one that has not been read. -/
  | linked (p : Pid) (i : Slot) (hpc : s.pc p = .test i)
      (hv : ¬((s.inode i).valid = true ∧ (s.inode i).d.nlink = 0)) :
      Step s (.next p) (s.goto p (.unlock i))
  /-- `iput` finds the last reference. -/
  | last (p : Pid) (i : Slot) (hpc : s.pc p = .getref i) :
      Step s (.next p) (s.goto p (.free i))
  /-- `iput` finds other references. -/
  | others (p : Pid) (i : Slot) (hpc : s.pc p = .getref i) (href : (s.inode i).ref ≠ 1) :
      Step s (.next p) (s.goto p (.unlock i))
  | free (p : Pid) (i : Slot) (hpc : s.pc p = .free i) : Step s (.next p) (free s p i)
  | unlock (p : Pid) (i : Slot) (hpc : s.pc p = .unlock i) :
      Step s (.next p) ((releasesleep s i).goto p (.drop i))
  | drop (p : Pid) (i : Slot) (hpc : s.pc p = .drop i) :
      Step s (.next p) ((s.set i { s.inode i with ref := (s.inode i).ref - 1 }).goto p .idle)

theorem Step.of_next {s t : St Pid} {p : Pid} (h : next s p = .ok t) : Step s (.next p) t := by
  unfold next at h
  split at h
  · cases h
  · obtain ⟨hfree, ⟨⟩⟩ := Effect.ite_disabled_eq_ok.mp h
    exact .acquire p _ ‹_› hfree
  · rename_i i hpc
    simp only [Inode.load] at h
    split at h
    · exact Effect.ok.inj h ▸ .cached p i hpc ‹_›
    · obtain ⟨-, ⟨⟩⟩ := Effect.ite_panic_eq_ok.mp h
      exact .load p i hpc
  · obtain ⟨hfree, ⟨⟩⟩ := Effect.ite_disabled_eq_ok.mp h
    exact .acquirePut p _ ‹_› hfree
  · rename_i i hpc
    split at h
    · exact Effect.ok.inj h ▸ .unlinked p i hpc
    · exact Effect.ok.inj h ▸ .linked p i hpc ‹_›
  · rename_i i hpc
    split at h
    · exact Effect.ok.inj h ▸ .last p i hpc
    · exact Effect.ok.inj h ▸ .others p i hpc ‹_›
  · exact Effect.ok.inj h ▸ .free p _ ‹_›
  · exact Effect.ok.inj h ▸ .unlock p _ ‹_›
  · exact Effect.ok.inj h ▸ .drop p _ ‹_›

theorem Step.of_iget {s t : St Pid} {p : Pid} {dev inum : UInt32}
    (h : exec s (.iget p dev inum) = .ok t) : Step s (.iget p dev inum) t := by
  obtain ⟨hpc, h⟩ := Effect.ite_disabled_eq_ok.mp h
  split at h
  · cases h
  · rename_i i c hc
    obtain rfl := Effect.ok.inj h
    rcases iget_spec hc with ⟨his, rfl⟩ | ⟨h0, hno, rfl⟩
    · rw [if_neg (ne_of_gt his.1)]
      exact .hit p i hpc his
    · rw [if_pos h0]
      exact .recycle p i dev inum hpc h0 hno

theorem Step.of_step {s t : St Pid} {a : Act Pid} (h : step s a = some t) : Step s a t := by
  have h := Effect.toOption_eq_some.mp h
  cases a with
  | iget p dev inum => exact .of_iget h
  | idup p i =>
    obtain ⟨hc, ⟨⟩⟩ := Effect.ite_disabled_eq_ok.mp h
    exact .idup p i hc.1 hc.2
  | ilock p i =>
    obtain ⟨hc, h⟩ := Effect.ite_disabled_eq_ok.mp h
    obtain ⟨-, ⟨⟩⟩ := Effect.ite_panic_eq_ok.mp h
    exact .ilock p i hc.1 hc.2
  | iunlock p i =>
    obtain ⟨hpc, h⟩ := Effect.ite_disabled_eq_ok.mp h
    obtain ⟨hl, ⟨⟩⟩ := Effect.ite_panic_eq_ok.mp h
    exact .iunlock p i hpc (not_not.mp (not_or.mp hl).1)
  | update p i d =>
    obtain ⟨hc, ⟨⟩⟩ := Effect.ite_disabled_eq_ok.mp h
    exact .update p i d hc.1 hc.2.1
  | iput p i =>
    obtain ⟨hc, ⟨⟩⟩ := Effect.ite_disabled_eq_ok.mp h
    exact .iput p i hc.1 hc.2.1 hc.2.2
  | next p => exact .of_next h

/-! ### What holds of one entry -/

section Slot

/-- **What holds of an entry**, with the references `refs` outside of `iput`, the
number `waiting` of processes in `ilock`, and the inode `d` on the disk that it is
the entry for. -/
structure SlotInv (pc : Pid → Pc) (i : Slot) (ip : Inode Pid Dinode) (refs waiting : ℤ)
    (loaded : Bool) (d : Dinode) : Prop where
  /-- The sleep-lock is held by the process that thinks it holds it. -/
  holds : ∀ p, (pc p).Holds i → ip.lock = some p
  waits : Counts (fun p => pc p = .ilock i) waiting
  /-- `ref` counts the references outside of `iput` and those in an `iput`. -/
  count : Counts (fun p => (pc p).Puts i) (ip.ref - refs)
  refs_nonneg : 0 ≤ refs
  /-- Whoever waits in `ilock` relies on a reference. -/
  refs_of_waiting : 1 ≤ waiting → 1 ≤ refs
  /-- So does whoever has the inode locked. -/
  refs_of_locked : ∀ p, ip.lock = some p → ¬(pc p).Putting i → 1 ≤ refs
  /-- Between `ilock` and `iunlock` the entry is valid. -/
  valid_of_locked : ∀ p, ip.lock = some p → ¬(pc p).Holds i → ip.valid = true
  /-- As long as the inode has no links and has not been freed, some reference is
  not in an `iput` that has decided to leave it alone. -/
  alive : ip.valid = true → ip.d.nlink = 0 → 1 ≤ refs ∨ ∃ p, (pc p).Deciding i
  /-- An entry in use that is no longer valid has been freed. -/
  freed : 0 < ip.ref → loaded = true → ip.valid = false → Freed d

variable {pc : Pid → Pc} {p : Pid} {x : Pc} {n : ℤ}

variable {i : Slot} {ip : Inode Pid Dinode} {refs waiting : ℤ} {loaded : Bool} {d : Dinode}

attribute [local grind =] update_apply Pc.Holds Pc.Puts Pc.Putting Pc.Deciding

/-- Somebody who is still deciding stays so when another process moves. -/
theorem exists_update {R : Pc → Prop} (h : ∃ q, R (pc q)) (hx : R (pc p) → R x) :
    ∃ q, R (update pc p x q) := by
  obtain ⟨q, hq⟩ := h
  refine ⟨q, ?_⟩
  rcases eq_or_ne q p with rfl | hqp
  · rw [update_self]
    exact hx hq
  · rwa [update_of_ne hqp]

variable (h : SlotInv pc i ip refs waiting loaded d)
include h

/-- The processes that wait and those in an `iput`, when a process moves. -/
theorem SlotInv.counts (hp : pc p ≠ .ilock i) (hx : x ≠ .ilock i) (hput : x.Puts i ↔ (pc p).Puts i) :
    Counts (fun q => update pc p x q = .ilock i) waiting ∧
      Counts (fun q => (update pc p x q).Puts i) (ip.ref - refs) :=
  ⟨counts_keep (R := (· = Pc.ilock i)) h.waits (iff_of_false hx hp),
    counts_keep (R := Pc.Puts i) h.count hput⟩

omit [DecidableEq Pid] in
/-- One more reference: `idup`, and `iget` of an entry in use. -/
theorem SlotInv.ref (hpos : 0 < ip.ref) :
    SlotInv pc i { ip with ref := ip.ref + 1 } (refs + 1) waiting loaded d := by
  have href : 1 ≤ refs + 1 := by have := h.refs_nonneg; omega
  exact { h with
    count := by simpa using h.count
    refs_nonneg := by omega
    refs_of_waiting := fun _ => href
    refs_of_locked := fun _ _ _ => href
    alive := fun _ _ => .inl href
    freed := fun _ => h.freed hpos }

omit [DecidableEq Pid] in
/-- `iget` takes over an entry that is not in use. -/
theorem SlotInv.recycle (h0 : ip.ref = 0) (dev inum : UInt32) (d' : Dinode) :
    SlotInv pc i { ip with dev := dev, inum := inum, ref := 1, valid := false } (refs + 1)
      waiting false d' := by
  have hrefs : refs = 0 := by
    have := h.count.nonneg
    have := h.refs_nonneg
    omega
  have hcount : Counts (fun p => (pc p).Puts i) (1 - (refs + 1)) := by
    have hc := h.count
    rw [h0] at hc
    rwa [show 1 - (refs + 1) = 0 - refs by ring]
  refine ⟨h.holds, h.waits, hcount, by omega, fun _ => by omega, fun _ _ _ => by omega,
    fun q hq hh => ?_, fun hv => absurd hv (by simp), fun _ hl => absurd hl (by simp)⟩
  -- nobody has an entry locked to which there is no reference
  by_cases hput : (pc q).Putting i
  · exact absurd (by cases hpq : pc q <;> simp_all [Pc.Putting, Pc.Holds]) hh
  · have := h.refs_of_locked q hq hput
    omega

/-- The beginning of `ilock`. -/
theorem SlotInv.ilock (hpc : pc p = .idle) (href : 1 ≤ refs) :
    SlotInv (update pc p (.ilock i)) i ip refs (waiting + 1) loaded d :=
  { h with
    holds := by have := h.holds; grind
    waits := counts_enter (R := (· = Pc.ilock i)) h.waits (by simp [hpc]) rfl
    count := counts_keep (R := Pc.Puts i) h.count (by simp [hpc, Pc.Puts])
    refs_of_waiting := fun _ => href
    refs_of_locked := fun _ _ _ => href
    valid_of_locked := by have := h.valid_of_locked; grind
    alive := fun _ _ => .inl href }

/-- `ilock` takes the sleep-lock. -/
theorem SlotInv.acquire (hpc : pc p = .ilock i) (hfree : ip.lock = none) :
    SlotInv (update pc p (.load i)) i { ip with lock := some p } refs (waiting - 1) loaded d := by
  have href := h.refs_of_waiting (h.waits.pos hpc)
  exact { h with
    holds := by have := h.holds; grind
    waits := counts_leave (R := (· = Pc.ilock i)) h.waits hpc (by simp)
    count := counts_keep (R := Pc.Puts i) h.count (by simp [hpc, Pc.Puts])
    refs_of_waiting := fun _ => href
    refs_of_locked := fun _ _ _ => href
    valid_of_locked := by grind
    alive := fun _ _ => .inl href }

/-- The rest of `ilock`, after which the entry is valid. -/
theorem SlotInv.load (hpc : pc p = .load i) (d' : Dinode) (loaded' : Bool) :
    SlotInv (update pc p .idle) i { ip with d := d', valid := true } refs waiting loaded' d := by
  have href : 1 ≤ refs := h.refs_of_locked p (h.holds p (by simp [hpc, Pc.Holds]))
    (by simp [hpc, Pc.Putting])
  obtain ⟨hwaits, hcount⟩ := h.counts (p := p) (x := .idle) (by simp [hpc]) (by simp)
    (by simp [hpc, Pc.Puts])
  exact { h with
    holds := by have := h.holds; grind
    waits := hwaits
    count := hcount
    refs_of_locked := fun _ _ _ => href
    valid_of_locked := fun _ _ _ => rfl
    alive := fun _ _ => .inl href
    freed := fun _ _ hv => absurd hv (by simp) }

omit [DecidableEq Pid] in
/-- `iunlock`. -/
theorem SlotInv.iunlock (hpc : pc p = .idle) (hlock : ip.lock = some p) :
    SlotInv pc i { ip with lock := none } refs waiting loaded d :=
  { h with
    holds := by
      intro q hq
      -- the process that holds the lock is not in the middle of a call about it
      have hpq : p = q := Option.some.inj (hlock.symm.trans (h.holds q hq))
      rw [← hpq, hpc] at hq
      exact hq.elim
    refs_of_locked := fun _ hq => absurd hq (by simp)
    valid_of_locked := fun _ hq => absurd hq (by simp) }

omit [DecidableEq Pid] in
/-- A process that has the inode locked changes it. -/
theorem SlotInv.edit (hpc : pc p = .idle) (hlock : ip.lock = some p) (d' : Dinode) :
    SlotInv pc i { ip with d := d' } refs waiting loaded d' :=
  { h with
    alive := fun _ _ => .inl (h.refs_of_locked p hlock (by simp [hpc, Pc.Putting]))
    freed := fun _ _ hv =>
      absurd (hv.symm.trans (h.valid_of_locked p hlock (by simp [hpc, Pc.Holds]))) (by simp) }

/-- The beginning of `iput`. -/
theorem SlotInv.iput (hpc : pc p = .idle) (href : 1 ≤ refs)
    (huse : 2 ≤ refs ∨ waiting = 0 ∧ ∀ q, ip.lock = some q → (pc q).Putting i) :
    SlotInv (update pc p (.iput i)) i ip (refs - 1) waiting loaded d :=
  { h with
    holds := by have := h.holds; grind
    waits := counts_keep (R := (· = Pc.ilock i)) h.waits (by simp [hpc])
    count := by
      have hc := counts_enter (R := Pc.Puts i) (p := p) (x := .iput i) h.count
        (by simp [hpc, Pc.Puts]) (by simp [Pc.Puts])
      rwa [show ip.ref - (refs - 1) = ip.ref - refs + 1 by ring]
    refs_nonneg := by omega
    refs_of_waiting := fun hw => by omega
    refs_of_locked := by grind
    valid_of_locked := by have := h.valid_of_locked; grind
    alive := fun _ _ => .inr ⟨p, by rw [update_self]; rfl⟩ }

/-- `iput` takes the sleep-lock. -/
theorem SlotInv.acquirePut (hpc : pc p = .iput i) (hfree : ip.lock = none) :
    SlotInv (update pc p (.test i)) i { ip with lock := some p } refs waiting loaded d := by
  obtain ⟨hwaits, hcount⟩ := h.counts (p := p) (x := .test i) (by simp [hpc]) (by simp)
    (by simp [hpc, Pc.Puts])
  exact { h with
    holds := by have := h.holds; grind
    waits := hwaits
    count := hcount
    refs_of_locked := by grind
    valid_of_locked := by grind
    alive := fun _ _ => .inr ⟨p, by rw [update_self]; rfl⟩ }

/-- `iput` goes on, with the sleep-lock held; if it leaves the inode alone, the
inode need not be freed, or somebody else is there to free it. -/
theorem SlotInv.decide (hpc : (pc p).Putting i) (hx : x.Putting i)
    (halive : ¬x.Deciding i → ip.valid = true → ip.d.nlink = 0 →
      1 ≤ refs ∨ ∃ q, q ≠ p ∧ (pc q).Deciding i) :
    SlotInv (update pc p x) i ip refs waiting loaded d := by
  have hput : ∀ y : Pc, y.Putting i → y ≠ .ilock i ∧ y.Puts i ∧ y.Holds i := by
    intro y hy
    cases y <;> simp_all [Pc.Putting, Pc.Puts, Pc.Holds]
  obtain ⟨p1, p2, p3⟩ := hput _ hpc
  obtain ⟨x1, x2, x3⟩ := hput _ hx
  obtain ⟨hwaits, hcount⟩ := h.counts (p := p) p1 x1 (iff_of_true x2 p2)
  exact { h with
    holds := by
      have := h.holds p p3
      have := h.holds
      grind
    waits := hwaits
    count := hcount
    refs_of_locked := by have := h.refs_of_locked; grind
    valid_of_locked := by have := h.valid_of_locked; grind
    alive := by
      intro hv hn
      by_cases hd : x.Deciding i
      · exact .inr ⟨p, by rwa [update_self]⟩
      · rcases halive hd hv hn with href | ⟨q, hqp, hq⟩
        · exact .inl href
        · exact .inr ⟨q, by rwa [update_of_ne hqp]⟩ }

/-- `iput` frees the inode. -/
theorem SlotInv.free (hpc : pc p = .free i) {d' : Dinode} (hd' : Freed d') (d'' : Dinode) :
    SlotInv (update pc p (.unlock i)) i { ip with d := d'', valid := false } refs waiting
      loaded d' := by
  obtain ⟨hwaits, hcount⟩ := h.counts (p := p) (x := .unlock i) (by simp [hpc]) (by simp)
    (by simp [hpc, Pc.Puts])
  exact { h with
    holds := by have := h.holds; grind
    waits := hwaits
    count := hcount
    refs_of_locked := by have := h.refs_of_locked; grind
    valid_of_locked := by
      -- the lock is held by the process that frees the inode
      have := h.holds p (by simp [hpc, Pc.Holds])
      grind
    alive := fun hv => absurd hv (by simp)
    freed := fun _ _ _ => hd' }

/-- `iput` gives the sleep-lock back. -/
theorem SlotInv.unlock (hpc : pc p = .unlock i) :
    SlotInv (update pc p (.drop i)) i { ip with lock := none } refs waiting loaded d := by
  obtain ⟨hwaits, hcount⟩ := h.counts (p := p) (x := .drop i) (by simp [hpc]) (by simp)
    (by simp [hpc, Pc.Puts])
  exact { h with
    holds := by have := h.holds; grind
    waits := hwaits
    count := hcount
    refs_of_locked := fun _ hq => absurd hq (by simp)
    valid_of_locked := fun _ hq => absurd hq (by simp)
    alive := fun hv hn => (h.alive hv hn).imp_right fun he =>
      exists_update he (by simp [hpc, Pc.Deciding]) }

/-- `iput` decrements `ref`. -/
theorem SlotInv.drop (hpc : pc p = .drop i) :
    SlotInv (update pc p .idle) i { ip with ref := ip.ref - 1 } refs waiting loaded d :=
  { h with
    holds := by have := h.holds; grind
    waits := counts_keep (R := (· = Pc.ilock i)) h.waits (by simp [hpc])
    count := by
      have hc := counts_leave (R := Pc.Puts i) (p := p) (x := .idle) h.count
        (by simp [hpc, Pc.Puts]) (by simp [Pc.Puts])
      rwa [show ip.ref - 1 - refs = ip.ref - refs - 1 by ring]
    refs_of_locked := by have := h.refs_of_locked; grind
    valid_of_locked := by have := h.valid_of_locked; grind
    alive := fun hv hn => (h.alive hv hn).imp_right fun he =>
      exists_update he (by simp [hpc, Pc.Deciding])
    freed := fun hpos => h.freed (by change 0 < ip.ref - 1 at hpos; omega) }

omit h

/-- A process that moves inside a call about one entry does not matter to
another. -/
theorem SlotInv.frame {j : Slot} (h : SlotInv pc j ip refs waiting loaded d) (hij : j ≠ i)
    (hp : (pc p).About i) (hx : x.About i) :
    SlotInv (update pc p x) j ip refs waiting loaded d := by
  have hne : ∀ y : Pc, y.About i → ¬y.Holds j ∧ y ≠ .ilock j ∧ ¬y.Puts j ∧ ¬y.Putting j ∧
      ¬y.Deciding j := by
    intro y hy
    cases y <;> simp_all [Pc.About, Pc.Holds, Pc.Puts, Pc.Putting, Pc.Deciding, Ne.symm hij]
  obtain ⟨p1, p2, p3, p4, p5⟩ := hne _ hp
  obtain ⟨x1, x2, x3, x4, x5⟩ := hne _ hx
  obtain ⟨hwaits, hcount⟩ := h.counts (p := p) p2 x2 (iff_of_false x3 p3)
  exact { h with
    holds := by have := h.holds; grind
    waits := hwaits
    count := hcount
    refs_of_locked := by have := h.refs_of_locked; grind
    valid_of_locked := by have := h.valid_of_locked; grind
    alive := fun hv hn => (h.alive hv hn).imp_right fun he =>
      exists_update he fun hd => absurd hd p5 }

omit [DecidableEq Pid] in
/-- What the inode on the disk is matters only to an entry in use. -/
theorem SlotInv.disk (h : SlotInv pc i ip refs waiting loaded d) {d' : Dinode}
    (hd : 0 < ip.ref → d' = d) : SlotInv pc i ip refs waiting loaded d' :=
  { h with freed := fun hpos hl hv => hd hpos ▸ h.freed hpos hl hv }

omit [DecidableEq Pid] in
theorem SlotInv.ref_pos (h : SlotInv pc i ip refs waiting loaded d) (href : 1 ≤ refs) :
    0 < ip.ref := by
  have := h.count.nonneg
  omega

end Slot

end Xv6.Inode
