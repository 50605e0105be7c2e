import Mathlib.Data.List.Basic

/-!
# Searching a list

The first element of a list with a property, after the property or the list has
changed a little.
-/

namespace Xv6.Lib

open List

variable {α : Type*} {P Q : α → Bool} {l : List α} {a : α}

/-- Fewer candidates, the same first one. -/
theorem find?_of_imp (h : l.find? P = some a) (ha : Q a = true)
    (himp : ∀ x, Q x = true → P x = true) : l.find? Q = some a := by
  obtain ⟨-, as, bs, rfl, has⟩ := find?_eq_some_iff_append.mp h
  refine find?_eq_some_iff_append.mpr ⟨ha, as, bs, rfl, fun x hx => ?_⟩
  have hPx : P x = false := by simpa using has x hx
  cases hQ : Q x with
  | false => rfl
  | true => exact absurd (himp x hQ) (by simp [hPx])

theorem find?_of_unique (hmem : a ∈ l) (ha : P a = true) (huniq : ∀ x, P x = true → x = a) :
    l.find? P = some a := by
  obtain ⟨b, hb⟩ := Option.isSome_iff_exists.mp (find?_isSome.mpr ⟨a, hmem, ha⟩)
  rw [hb, huniq b (find?_some hb)]

/-- Moving an element that is no candidate to the front changes nothing. -/
theorem find?_cons_erase [DecidableEq α] (ha : P a = false) :
    (a :: l.erase a).find? P = l.find? P := by
  rw [find?_cons_of_neg (by simp [ha])]
  induction l with
  | nil => rfl
  | cons b l ih =>
    rcases eq_or_ne b a with rfl | hb
    · rw [erase_cons_head, find?_cons_of_neg (by simp [ha])]
    · rw [erase_cons_tail (by simpa using hb), find?_cons, find?_cons, ih]

end Xv6.Lib
