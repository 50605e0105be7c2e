import Mathlib.Algebra.BigOperators.Group.Finset.Piecewise
import Mathlib.Data.Fintype.Basic

/-!
# Sums after one change

A sum over all the entries of a table, when one entry of the table is replaced.
-/

namespace Xv6.Lib

variable {ι β M : Type*} [Fintype ι] [DecidableEq ι] [AddCommMonoid M]

/-- Replacing an entry of a table adds its new share to the sum and takes away the old one. -/
theorem sum_update_add (F : ι → β → M) (g : ι → β) (k : ι) (x : β) :
    (∑ i, F i (Function.update g k x i)) + F k (g k) = (∑ i, F i (g i)) + F k x := by
  have hnew : ∑ i, F i (Function.update g k x i) = F k x + ∑ i ∈ Finset.univ.erase k, F i (g i) := by
    rw [Finset.sum_congr rfl fun i _ => Function.apply_update F g k x i,
      Finset.sum_update_of_mem (Finset.mem_univ k), Finset.sdiff_singleton_eq_erase]
  rw [hnew, ← Finset.add_sum_erase _ (fun i => F i (g i)) (Finset.mem_univ k), add_comm (F k x),
    add_right_comm, add_comm _ (F k (g k))]

end Xv6.Lib
