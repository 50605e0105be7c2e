import Mathlib.Data.BitVec
import Mathlib.Data.List.Basic
import Mathlib.Data.Nat.ModEq
import Mathlib.Logic.Function.Basic

/-!
# Ring buffers with counters that wrap

A buffer of `N` cells with two counters of `w` bits, the number of elements that have
been taken out and the number of elements that have been put in. The counters are never
reset; they wrap at `2 ^ w`, and an element is found at the counter modulo `N`.

This works because `N` divides `2 ^ w` – the cell of an element is the same whether the
counter has wrapped or not – and because `N` is smaller than `2 ^ w`, so that a full buffer
can be told from an empty one. `Xv6.Lib.Ring.Models` says what the buffer stands for: the
list of all elements ever put in and the list of all elements ever taken out.
**The second one is always the beginning of the first one**, whatever is put in and taken
out as long as nothing is put into a full buffer nor taken out of an empty one
(`Xv6.Lib.Ring.Models.push`, `Xv6.Lib.Ring.Models.pop`), and the tests for a full and an empty
buffer are exact (`Xv6.Lib.Ring.Models.full_iff`, `Xv6.Lib.Ring.Models.empty_iff`).
-/

namespace Xv6.Lib

open Function List

/-- `N` cells and two counters of `w` bits. -/
structure Ring (α : Type) (N w : ℕ) where
  data : Fin N → α
  /-- The number of elements taken out. -/
  nread : BitVec w
  /-- The number of elements put in. -/
  nwrite : BitVec w

namespace Ring

variable {α : Type} {N w : ℕ} [NeZero N]

/-- Nothing more can be put in. -/
def Full (r : Ring α N w) : Prop :=
  r.nwrite = r.nread + BitVec.ofNat w N

/-- There is nothing to take out. -/
def Empty (r : Ring α N w) : Prop :=
  r.nread = r.nwrite

instance (r : Ring α N w) : Decidable r.Full :=
  inferInstanceAs (Decidable (_ = _))

instance (r : Ring α N w) : Decidable r.Empty :=
  inferInstanceAs (Decidable (_ = _))

/-- Put an element in. -/
def push (r : Ring α N w) (a : α) : Ring α N w where
  data := update r.data (Fin.ofNat N r.nwrite.toNat) a
  nread := r.nread
  nwrite := r.nwrite + 1

/-- The element to be taken out next. -/
def front (r : Ring α N w) : α :=
  r.data (Fin.ofNat N r.nread.toNat)

/-- Take an element out. -/
def pop (r : Ring α N w) : Ring α N w where
  data := r.data
  nread := r.nread + 1
  nwrite := r.nwrite

/-- Take back the element that was put in last. -/
def unpush (r : Ring α N w) : Ring α N w where
  data := r.data
  nread := r.nread
  nwrite := r.nwrite - 1

/-- The element that was put in last. -/
def back (r : Ring α N w) : α :=
  r.data (Fin.ofNat N (r.nwrite - 1).toNat)

/-- The `k` elements from the counter `i` on. -/
def slice (r : Ring α N w) (i : BitVec w) (k : ℕ) : List α :=
  (List.range k).map fun j => r.data (Fin.ofNat N (i + BitVec.ofNat w j).toNat)

/-- What the buffer stands for: `ins` has been put in and `outs` has been taken out. -/
structure Models (r : Ring α N w) (ins outs : List α) : Prop where
  nwrite : r.nwrite = BitVec.ofNat w ins.length
  nread : r.nread = BitVec.ofNat w outs.length
  outs_prefix : outs <+: ins
  bound : ins.length ≤ outs.length + N
  cell : ∀ k a, outs.length ≤ k → ins[k]? = some a → r.data (Fin.ofNat N k) = a

/-- The cell of a counter does not depend on whether the counter has wrapped. -/
theorem ofNat_toNat_ofNat (hN : N ∣ 2 ^ w) (k : ℕ) :
    Fin.ofNat N (BitVec.ofNat w k).toNat = Fin.ofNat N k := by
  ext
  simp only [Fin.val_ofNat, BitVec.toNat_ofNat]
  exact Nat.mod_mod_of_dvd k hN

/-- Two counters that are less than `2 ^ w` apart are equal if they are equal as numbers
of `w` bits. -/
theorem ofNat_eq_ofNat_iff {i j : ℕ} (hij : i ≤ j) (hj : j < i + 2 ^ w) :
    BitVec.ofNat w i = BitVec.ofNat w j ↔ i = j := by
  refine ⟨fun h => ?_, fun h => by rw [h]⟩
  have hmod : i % 2 ^ w = j % 2 ^ w := by
    have := congrArg BitVec.toNat h
    rwa [BitVec.toNat_ofNat, BitVec.toNat_ofNat] at this
  have hdvd : 2 ^ w ∣ j - i := (Nat.modEq_iff_dvd' hij).mp hmod
  have hzero : j - i = 0 := Nat.eq_zero_of_dvd_of_lt hdvd (by omega)
  omega

namespace Models

variable {r : Ring α N w} {ins outs : List α}

/-- A new buffer. -/
theorem nil {data : Fin N → α} : Models (⟨data, 0, 0⟩ : Ring α N w) [] [] where
  nwrite := rfl
  nread := rfl
  outs_prefix := prefix_refl _
  bound := Nat.zero_le _
  cell k a _ h := by simp at h

variable (h : r.Models ins outs)

include h

theorem length_le : outs.length ≤ ins.length :=
  h.outs_prefix.length_le

/-- **The buffer is empty exactly when everything has been taken out.** -/
theorem empty_iff (hw : N < 2 ^ w) : r.Empty ↔ outs.length = ins.length := by
  have hb := h.bound
  rw [Empty, h.nread, h.nwrite]
  exact ofNat_eq_ofNat_iff h.length_le (by omega)

/-- **The buffer is full exactly when it holds as many elements as it has cells.** -/
theorem full_iff (hw : N < 2 ^ w) : r.Full ↔ ins.length = outs.length + N := by
  have hle := h.length_le
  rw [Full, h.nread, h.nwrite, ← BitVec.ofNat_add]
  exact ofNat_eq_ofNat_iff h.bound (by omega)

/-- The difference of the counters is the number of elements in the buffer. -/
theorem toNat_sub (hw : N < 2 ^ w) : (r.nwrite - r.nread).toNat = ins.length - outs.length := by
  have hle := h.length_le
  have hb := h.bound
  have heq : r.nwrite - r.nread = BitVec.ofNat w (ins.length - outs.length) := by
    rw [h.nwrite, h.nread, ← Nat.sub_add_cancel hle, BitVec.ofNat_add, Nat.add_sub_cancel]
    exact BitVec.add_sub_cancel _ _
  rw [heq, BitVec.toNat_ofNat]
  exact Nat.mod_eq_of_lt (by omega)

/-- **Putting in an element.** -/
theorem push (hN : N ∣ 2 ^ w) (hw : N < 2 ^ w) (hfull : ¬r.Full) (a : α) :
    (r.push a).Models (ins ++ [a]) outs where
  nwrite := by
    rw [length_append, length_singleton, BitVec.ofNat_add, ← h.nwrite]
    rfl
  nread := h.nread
  outs_prefix := h.outs_prefix.trans (prefix_append _ _)
  bound := by
    have hb := h.bound
    have hne := mt (h.full_iff hw).mpr hfull
    rw [length_append, length_singleton]
    omega
  cell k b hk hb := by
    have hbound := h.bound
    have hne := mt (h.full_iff hw).mpr hfull
    have hcell : Fin.ofNat N r.nwrite.toNat = Fin.ofNat N ins.length := by
      rw [h.nwrite, ofNat_toNat_ofNat hN]
    change update r.data _ a _ = b
    rw [hcell]
    rcases Nat.lt_trichotomy k ins.length with hlt | rfl | hgt
    · -- An element that was there: its cell is another one.
      have hother : Fin.ofNat N k ≠ Fin.ofNat N ins.length := by
        intro e
        have hmod : k ≡ ins.length [MOD N] := congrArg Fin.val e
        have hdvd := (Nat.modEq_iff_dvd' hlt.le).mp hmod
        have := Nat.eq_zero_of_dvd_of_lt hdvd (by omega)
        omega
      rw [update_of_ne hother]
      rw [List.getElem?_append_left hlt] at hb
      exact h.cell k b hk hb
    · rw [update_self]
      rw [List.getElem?_concat_length] at hb
      exact Option.some.inj hb
    · rw [List.getElem?_eq_none (by simp; omega)] at hb
      cases hb

/-- The element that is taken out is the next one of those that have been put in. -/
theorem getElem?_front (hN : N ∣ 2 ^ w) (hw : N < 2 ^ w) (hempty : ¬r.Empty) :
    ins[outs.length]? = some r.front := by
  have hle := h.length_le
  have hne := mt (h.empty_iff hw).mpr hempty
  have hget := List.getElem?_eq_getElem (l := ins) (i := outs.length) (by omega)
  rw [hget, ← h.cell _ _ le_rfl hget, front, h.nread, ofNat_toNat_ofNat hN]

/-- **Taking out an element.** -/
theorem pop (hN : N ∣ 2 ^ w) (hw : N < 2 ^ w) (hempty : ¬r.Empty) :
    r.pop.Models ins (outs ++ [r.front]) where
  nwrite := h.nwrite
  nread := by
    rw [length_append, length_singleton, BitVec.ofNat_add, ← h.nread]
    rfl
  outs_prefix := by
    obtain ⟨rest, hrest⟩ := h.outs_prefix
    have hfront := h.getElem?_front hN hw hempty
    rw [← hrest, List.getElem?_append_right le_rfl, Nat.sub_self] at hfront
    obtain ⟨x, rest, rfl⟩ : ∃ x l, rest = x :: l := by
      cases rest with
      | nil => cases hfront
      | cons x l => exact ⟨x, l, rfl⟩
    cases hfront
    exact ⟨rest, by rw [← hrest, append_assoc, singleton_append]⟩
  bound := by
    have hb := h.bound
    rw [length_append, length_singleton]
    omega
  cell k b hk hb := by
    rw [length_append, length_singleton] at hk
    exact h.cell k b (by omega) hb

omit h in
/-- **Taking back an element** that has not been taken out. -/
theorem unpush {a : α} (h : r.Models (ins ++ [a]) outs) (hle : outs.length ≤ ins.length) :
    r.unpush.Models ins outs where
  nwrite := by
    change r.nwrite - 1 = _
    rw [h.nwrite, length_append, length_singleton, BitVec.ofNat_add]
    exact BitVec.add_sub_cancel _ _
  nread := h.nread
  outs_prefix :=
    prefix_of_prefix_length_le h.outs_prefix (prefix_append ins [a]) hle
  bound := by
    have hb := h.bound
    rw [length_append, length_singleton] at hb
    omega
  cell k b hk hb := by
    refine h.cell k b hk ?_
    obtain ⟨hlt, -⟩ := List.getElem?_eq_some_iff.mp hb
    rw [List.getElem?_append_left hlt, hb]

omit h in
theorem back_eq {a : α} (hN : N ∣ 2 ^ w) (h : r.Models (ins ++ [a]) outs)
    (hle : outs.length ≤ ins.length) : r.back = a := by
  have hcell := h.cell ins.length a hle List.getElem?_concat_length
  have hlast : r.nwrite - 1 = BitVec.ofNat w ins.length := (unpush h hle).nwrite
  rwa [back, hlast, ofNat_toNat_ofNat hN]

/-- The elements from a counter on. -/
theorem slice_eq (hN : N ∣ 2 ^ w) {m k : ℕ} (hm : outs.length ≤ m) (hk : m + k ≤ ins.length) :
    r.slice (BitVec.ofNat w m) k = (ins.drop m).take k := by
  unfold slice
  refine ext_getElem ?_ fun j hj _ => ?_
  · rw [length_map, length_range, length_take, length_drop]
    omega
  · have hjk : j < k := by
      rwa [length_map, length_range] at hj
    have hlt : m + j < ins.length := by omega
    rw [List.getElem_map, List.getElem_range, List.getElem_take, List.getElem_drop,
      ← BitVec.ofNat_add, ofNat_toNat_ofNat hN]
    exact h.cell (m + j) _ (by omega) (List.getElem?_eq_getElem hlt)

end Models

end Ring

end Xv6.Lib
