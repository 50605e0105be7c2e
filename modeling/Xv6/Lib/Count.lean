import Mathlib.Data.Finset.Card
import Mathlib.Logic.Function.Basic
import Mathlib.Tactic.Ring

/-!
# Counting the processes in a state

A counter of a concurrent program usually stands for the number of processes that
are somewhere in their code. There may be any number of processes, so "the
number" is the size of a finite set that holds exactly those, and the counter is
an integer because the program adds to it and subtracts from it.

The three rules are the three things a step does to such a number: it leaves the
property of every process alone (`Counts.keep`), one process comes in
(`Counts.enter`), or one goes out (`Counts.leave`). For one process that moves from one
place to another they are `counts_keep`, `counts_enter` and `counts_leave`.
-/

namespace Xv6.Lib

variable {ι : Type*}

/-- `n` is the number of elements with the property `P`. -/
def Counts (P : ι → Prop) (n : ℤ) : Prop :=
  ∃ F : Finset ι, (∀ p, p ∈ F ↔ P p) ∧ n = F.card

variable {P Q : ι → Prop} {n : ℤ} {p q : ι}

theorem counts_zero (h : ∀ p, ¬P p) : Counts P 0 :=
  ⟨∅, fun p => iff_of_false (Finset.notMem_empty p) (h p), by simp⟩

theorem Counts.keep (h : Counts P n) (hQ : ∀ q, Q q ↔ P q) : Counts Q n := by
  obtain ⟨F, hF, hn⟩ := h
  exact ⟨F, fun q => (hF q).trans (hQ q).symm, hn⟩

theorem Counts.unique {m : ℤ} (h : Counts P n) (h' : Counts P m) : n = m := by
  obtain ⟨F, hF, rfl⟩ := h
  obtain ⟨G, hG, rfl⟩ := h'
  rw [Finset.ext fun p => (hF p).trans (hG p).symm]

theorem Counts.enter [DecidableEq ι] (h : Counts P n) (hp : ¬P p) (hp' : Q p)
    (hQ : ∀ q, q ≠ p → (Q q ↔ P q)) : Counts Q (n + 1) := by
  obtain ⟨F, hF, hn⟩ := h
  refine ⟨insert p F, fun q => ?_, ?_⟩
  · rw [Finset.mem_insert]
    rcases eq_or_ne q p with rfl | hq
    · exact iff_of_true (.inl rfl) hp'
    · rw [hQ q hq, hF q]
      exact or_iff_right hq
  · rw [Finset.card_insert_of_notMem (fun hc => hp ((hF p).mp hc)), hn]
    push_cast
    ring

theorem Counts.leave [DecidableEq ι] (h : Counts P n) (hp : P p) (hp' : ¬Q p)
    (hQ : ∀ q, q ≠ p → (Q q ↔ P q)) : Counts Q (n - 1) := by
  obtain ⟨F, hF, hn⟩ := h
  refine ⟨F.erase p, fun q => ?_, ?_⟩
  · rw [Finset.mem_erase]
    rcases eq_or_ne q p with rfl | hq
    · exact iff_of_false (fun hc => hc.1 rfl) hp'
    · rw [hQ q hq, hF q]
      exact and_iff_right hq
  · have hpF : p ∈ F := (hF p).mpr hp
    rw [Finset.card_erase_of_mem hpF, hn]
    have : 0 < F.card := Finset.card_pos.mpr ⟨p, hpF⟩
    omega

theorem Counts.nonneg (h : Counts P n) : 0 ≤ n := by
  obtain ⟨F, -, hn⟩ := h
  omega

/-- Only one element may come in or go out. -/
theorem Counts.change [DecidableEq ι] (h : Counts P n) [Decidable (Q p)] [Decidable (P p)]
    (hQ : ∀ q, q ≠ p → (Q q ↔ P q)) :
    Counts Q (n + (if Q p then 1 else 0) - if P p then 1 else 0) := by
  have hkeep : (Q p ↔ P p) → Counts Q n := fun hp => h.keep fun q =>
    (eq_or_ne q p).elim (fun hq => hq ▸ hp) (hQ q)
  by_cases hq : Q p <;> by_cases hp : P p <;> simp only [hq, hp, if_true, if_false]
  · rw [add_sub_cancel_right]
    exact hkeep (iff_of_true hq hp)
  · rw [sub_zero]
    exact h.enter hp hq hQ
  · rw [add_zero]
    exact h.leave hp hq hQ
  · rw [add_zero, sub_zero]
    exact hkeep (iff_of_false hq hp)

section Move

variable [DecidableEq ι] {β : Type*} {R : β → Prop} {f : ι → β} {x : β}

variable (h : Counts (fun q => R (f q)) n)
include h

theorem counts_keep (hx : R x ↔ R (f p)) :
    Counts (fun q => R (Function.update f p x q)) n :=
  h.keep ((Function.forall_update_iff f fun q y => R y ↔ R (f q)).mpr ⟨hx, fun _ _ => Iff.rfl⟩)

theorem counts_enter (hp : ¬R (f p)) (hx : R x) :
    Counts (fun q => R (Function.update f p x q)) (n + 1) :=
  h.enter hp (by rwa [Function.update_self]) fun q hq => by rw [Function.update_of_ne hq]

theorem counts_leave (hp : R (f p)) (hx : ¬R x) :
    Counts (fun q => R (Function.update f p x q)) (n - 1) :=
  h.leave hp (by rwa [Function.update_self]) fun q hq => by rw [Function.update_of_ne hq]

end Move

theorem Counts.pos (h : Counts P n) (hp : P p) : 1 ≤ n := by
  obtain ⟨F, hF, hn⟩ := h
  have : 0 < F.card := Finset.card_pos.mpr ⟨p, (hF p).mpr hp⟩
  omega

end Xv6.Lib
