import Mathlib.Algebra.Ring.Nat
import Mathlib.Logic.Function.Basic

/-!
# The table of the processors

`mpinit` of `mp.c` goes through the table in which the firmware describes the machine. The loop
has no increment: every case of the `switch` on the type of an entry moves the pointer to the next
entry itself. The last case, for a type that is not known, clears `ismp`, and its `break` is
meant to leave the loop, after which `mpinit` would panic. But a `break` in a `switch` leaves
the `switch`. The pointer stays where it is and the loop never ends. So **the loop ends exactly on
the tables without such an entry**, and the panic is never reached (`Xv6.Mp.mpinit_iff`).
-/

namespace Xv6.Mp

open Function

def NCPU : ℕ := 8

/-- The types of the entries. -/
inductive Kind where
  | proc | bus | ioapic | iointr | lintr

/-- `MPPROC`, `MPBUS`, `MPIOAPIC`, `MPIOINTR` and `MPLINTR` -/
def kind (b : UInt8) : Option Kind :=
  [.proc, .bus, .ioapic, .iointr, .lintr][b.toNat]?

/-- `sizeof(struct mpproc)`, and 8 for the other entries. -/
def Kind.size : Kind → ℕ
  | .proc => 20
  | _ => 8

/-- `ismp`, the pointer into the table, and the variables that the loop sets. -/
structure State where
  p : ℕ
  ismp : Bool
  ncpu : ℕ
  apicid : ℕ → UInt8
  ioapicid : UInt8

section Loop

variable (mem : ℕ → UInt8) (e : ℕ)

/-- The `switch`. -/
def step (s : State) : State :=
  match kind (mem s.p) with
  | some .proc =>
    { if s.ncpu < NCPU then
        { s with apicid := update s.apicid s.ncpu (mem (s.p + 1)), ncpu := s.ncpu + 1 }
      else s with p := s.p + Kind.proc.size }
  | some .ioapic => { s with ioapicid := mem (s.p + 1), p := s.p + Kind.ioapic.size }
  | some k => { s with p := s.p + k.size }
  | none => { s with ismp := false }

/-- The loop, which may not have ended yet. -/
def loop : (fuel : ℕ) → State → Option State
  | 0, _ => none
  | fuel + 1, s => if s.p < e then loop fuel (step mem s) else some s

/-- `conf->length` -/
def length : ℕ := (mem 4).toNat + 256 * (mem 5).toNat

/-- `sum` -/
def sum (len : ℕ) : UInt8 := .ofNat ((List.range len).map fun i => (mem i).toNat).sum

/-- The checks of `mpconfig` on the table. -/
def mpconfig : Bool :=
  [mem 0, mem 1, mem 2, mem 3] == "PCMP".toUTF8.data.toList && (mem 6 == 1 || mem 6 == 4) &&
    sum mem (length mem) == 0

/-- **`mpinit`**; the entries begin after the 44 bytes of `struct mpconf`. -/
def mpinit (fuel : ℕ) : Option (Except String State) :=
  if mpconfig mem then
    (loop mem (length mem) fuel ⟨44, true, 0, fun _ => 0, 0⟩).map fun s =>
      if s.ismp then .ok s else .error "Didn't find a suitable machine"
  else some (.error "Expect to run on an SMP")

/-- The entries from `p` to the end are of known types. -/
inductive Known : ℕ → Prop where
  | done {p : ℕ} (h : e ≤ p) : Known p
  | next {p : ℕ} {k : Kind} (hp : p < e) (hk : kind (mem p) = some k) (h : Known (p + k.size)) :
    Known p

end Loop

variable {mem : ℕ → UInt8} {e fuel : ℕ} {s t : State}

/-- An entry of a known type. -/
theorem step_of_kind {k : Kind} (hk : kind (mem s.p) = some k) :
    (step mem s).p = s.p + k.size ∧ (step mem s).ismp = s.ismp ∧
      (s.ncpu ≤ NCPU → (step mem s).ncpu ≤ NCPU) := by
  simp only [step, hk]
  cases k with
  | proc =>
    refine ⟨rfl, ?_, fun h => ?_⟩
    · dsimp only
      split <;> rfl
    · dsimp only
      split
      · assumption
      · exact h
  | bus | ioapic | iointr | lintr => exact ⟨rfl, rfl, id⟩

/-- **The loop does not get past an entry of another type.** -/
theorem loop_of_unknown (fuel : ℕ) (hk : kind (mem s.p) = none) (hp : s.p < e) :
    loop mem e fuel s = none := by
  induction fuel generalizing s with
  | zero => rfl
  | succ fuel ih =>
    have hs : step mem s = { s with ismp := false } := by simp only [step, hk]
    rw [loop, if_pos hp, hs]
    exact ih hk hp

/-- Over known entries the loop comes to the end. -/
theorem exists_loop {p : ℕ} (h : Known mem e p) (hs : s.p = p) :
    ∃ fuel t, loop mem e fuel s = some t := by
  induction h generalizing s with
  | done h => exact ⟨1, s, if_neg (by omega)⟩
  | next hp hk _ ih =>
    subst hs
    obtain ⟨fuel, t, ht⟩ := ih (step_of_kind hk).1
    exact ⟨fuel + 1, t, by rw [loop, if_pos hp, ht]⟩

/-- A loop that has ended. -/
theorem loop_spec (h : loop mem e fuel s = some t) (hmp : s.ismp = true) (hn : s.ncpu ≤ NCPU) :
    Known mem e s.p ∧ t.ismp = true ∧ t.ncpu ≤ NCPU := by
  induction fuel generalizing s with
  | zero => cases h
  | succ fuel ih =>
    by_cases hp : s.p < e
    · cases hk : kind (mem s.p) with
      | none => cases (loop_of_unknown (fuel + 1) hk hp).symm.trans h
      | some k =>
        obtain ⟨h1, h2, h3⟩ := step_of_kind hk
        rw [loop, if_pos hp] at h
        obtain ⟨hknown, hend⟩ := ih h (h2.trans hmp) (h3 hn)
        exact ⟨.next hp hk (h1 ▸ hknown), hend⟩
    · obtain rfl := Option.some.inj ((if_neg hp).symm.trans h)
      exact ⟨.done (Nat.le_of_not_lt hp), hmp, hn⟩

/-- **The table of the processors**, for every table that `mpconfig` accepts. `mpinit` returns with
at most `NCPU` processors, or panics if there is an entry of an unknown type, exactly if there
is no such entry. It never panics, since the loop does not end otherwise. -/
theorem mpinit_iff (mem : ℕ → UInt8) (h : mpconfig mem = true) :
    ((∃ fuel r, mpinit mem fuel = some r ∧ (∀ s, r = .ok s → s.ncpu ≤ NCPU) ∧
        (¬Known mem (length mem) 44 → r = .error "Didn't find a suitable machine")) ↔
      Known mem (length mem) 44) ∧
    ∀ fuel r, mpinit mem fuel = some r → ∃ s, r = .ok s ∧ s.ncpu ≤ NCPU := by
  have hspec : ∀ fuel r, mpinit mem fuel = some r →
      Known mem (length mem) 44 ∧ ∃ s, r = .ok s ∧ s.ncpu ≤ NCPU := by
    intro fuel r hr
    rw [mpinit, if_pos h] at hr
    obtain ⟨t, ht, rfl⟩ := Option.map_eq_some_iff.mp hr
    obtain ⟨hknown, hmp, hn⟩ := loop_spec ht rfl (Nat.zero_le _)
    exact ⟨hknown, t, if_pos hmp, hn⟩
  refine ⟨⟨?_, fun hknown => ?_⟩, fun fuel r hr => (hspec fuel r hr).2⟩
  · rintro ⟨fuel, r, hr, -⟩
    exact (hspec fuel r hr).1
  obtain ⟨fuel, t, ht⟩ := exists_loop (s := ⟨44, true, 0, fun _ => 0, 0⟩) hknown rfl
  obtain ⟨r, hr⟩ : ∃ r, mpinit mem fuel = some r := ⟨_, by rw [mpinit, if_pos h, ht]; rfl⟩
  refine ⟨fuel, r, hr, fun s hs => ?_, fun hnot => absurd hknown hnot⟩
  obtain ⟨-, s', rfl, hn⟩ := hspec fuel r hr
  exact Except.ok.inj hs ▸ hn

/-- A table with at most one entry, of the given type. -/
def single (length checksum type : UInt8) (i : ℕ) : UInt8 :=
  if i = 44 then type else [80, 67, 77, 80, length, 0, 1, checksum].getD i 0

/-- An entry of type 5. -/
theorem mpinit_endless :
    mpconfig (single 45 157 5) = true ∧ ∀ fuel, mpinit (single 45 157 5) fuel = none := by
  have h : mpconfig (single 45 157 5) = true := by decide +kernel
  refine ⟨h, fun fuel => ?_⟩
  rw [mpinit, if_pos h, loop_of_unknown fuel rfl (by decide)]
  rfl

/-- One processor. -/
theorem mpinit_single : ∃ s, mpinit (single 64 143 0) 2 = some (.ok s) ∧ s.ncpu ≤ NCPU := by
  have h : (mpinit (single 64 143 0) 2).isSome = true := by decide +kernel
  obtain ⟨r, hr⟩ := Option.isSome_iff_exists.mp h
  obtain ⟨s, rfl, hn⟩ := (mpinit_iff (single 64 143 0) (by decide +kernel)).2 2 r hr
  exact ⟨s, hr, hn⟩

end Xv6.Mp
