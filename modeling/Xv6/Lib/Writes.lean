import Mathlib.Data.List.Basic
import Mathlib.Logic.Function.Basic

/-!
# Lists of writes

A store is a function `ι → β`; a write is an address with the value put there,
and a list of writes is applied from left to right. A program that writes a store
cell by cell and may be stopped at any moment is described by the list of its
writes, stopping it being `List.take`.
-/

namespace Xv6.Lib

open Function

variable {ι β : Type*} [DecidableEq ι] {d : ι → β} {ws : List (ι × β)}

/-- The store after a list of writes. -/
def applyWrites (d : ι → β) (ws : List (ι × β)) : ι → β :=
  ws.foldl (fun d w => update d w.1 w.2) d

@[simp] theorem applyWrites_nil (d : ι → β) : applyWrites d [] = d := rfl

@[simp] theorem applyWrites_cons (d : ι → β) (w : ι × β) (ws : List (ι × β)) :
    applyWrites d (w :: ws) = applyWrites (update d w.1 w.2) ws := rfl

theorem applyWrites_append (d : ι → β) (ws vs : List (ι × β)) :
    applyWrites d (ws ++ vs) = applyWrites (applyWrites d ws) vs :=
  List.foldl_append ..

/-- An address no write names keeps its value. -/
theorem applyWrites_of_notMem {x : ι} (h : ∀ w ∈ ws, w.1 ≠ x) : applyWrites d ws x = d x := by
  induction ws generalizing d with
  | nil => rfl
  | cons w ws ih =>
    rw [applyWrites_cons, ih fun v hv => h v (List.mem_cons_of_mem _ hv)]
    exact update_of_ne (h w List.mem_cons_self).symm ..

/-- When every write agrees with `f`, an address holds what it held before or what
`f` has there. -/
theorem applyWrites_or {f : ι → β} (hf : ∀ w ∈ ws, w.2 = f w.1) (x : ι) :
    applyWrites d ws x = d x ∨ applyWrites d ws x = f x := by
  induction ws generalizing d with
  | nil => exact .inl rfl
  | cons w ws ih =>
    rw [applyWrites_cons]
    rcases ih (d := update d w.1 w.2) (fun v hv => hf v (List.mem_cons_of_mem _ hv))
      with h | h
    · rw [h]
      rcases eq_or_ne x w.1 with rfl | hx
      · exact .inr ((update_self ..).trans (hf w List.mem_cons_self))
      · exact .inl (update_of_ne hx ..)
    · exact .inr h

/-- When every write agrees with `f`, an address that some write names holds what
`f` has there. -/
theorem applyWrites_of_mem {f : ι → β} (hf : ∀ w ∈ ws, w.2 = f w.1) {x : ι}
    (hx : ∃ w ∈ ws, w.1 = x) : applyWrites d ws x = f x := by
  induction ws generalizing d with
  | nil =>
    obtain ⟨w, hw, -⟩ := hx
    simp at hw
  | cons w ws ih =>
    rw [applyWrites_cons]
    have hf' : ∀ v ∈ ws, v.2 = f v.1 := fun v hv => hf v (List.mem_cons_of_mem _ hv)
    by_cases htail : ∃ v ∈ ws, v.1 = x
    · exact ih hf' htail
    · obtain ⟨v, hv, rfl⟩ := hx
      obtain rfl : v = w := by
        rcases List.mem_cons.mp hv with h | h
        · exact h
        · exact absurd ⟨v, h, rfl⟩ htail
      rw [applyWrites_of_notMem fun u hu hc => htail ⟨u, hu, hc⟩]
      exact (update_self ..).trans (hf v hv)

end Xv6.Lib
