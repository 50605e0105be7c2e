import Mathlib.Algebra.Ring.Nat
import Mathlib.Logic.Function.Basic

/-!
# The two versions of `memmove`

`string.c` and `ulib.c` both have a `memmove`. The one of the kernel looks at the two pointers and
begins at the end when the destination begins in the source, so that it reads every byte before it
writes over it. The one of the user library always begins at the beginning. If the destination
begins `d` bytes into the source, then it reads from there on what it has written itself, and copies
the first `d` bytes over and over. So the two versions leave the same memory only if the source
repeats itself in this way (`Xv6.Mem.ulib_memmove_iff`).

Addresses are numbers, and the ranges end within the `2 ^ 32` bytes of the address space.
-/

namespace Xv6.Mem

open Function

variable {α : Type} {m : ℕ → α} {dst src n : ℕ}

/-- `while(n-- > 0) *dst++ = *src++;` -/
def forward (m : ℕ → α) (dst src : ℕ) : (n : ℕ) → ℕ → α
  | 0 => m
  | n + 1 => forward (update m dst (m src)) (dst + 1) (src + 1) n

/-- `while(n-- > 0) *--d = *--s;` -/
def backward (m : ℕ → α) (d s : ℕ) : (n : ℕ) → ℕ → α
  | 0 => m
  | n + 1 => backward (update m (d - 1) (m (s - 1))) (d - 1) (s - 1) n

/-- **`memmove`** of the kernel, where `s + n` may wrap. -/
def memmove (m : ℕ → α) (dst src n : ℕ) : ℕ → α :=
  if src < dst ∧ (src + n) % 2 ^ 32 > dst then backward m (dst + n) (src + n) n
  else forward m dst src n

/-- **`memmove`** of the user library, for an `int` that is not negative. -/
def ulibMemmove (m : ℕ → α) (dst src n : ℕ) : ℕ → α := forward m dst src n

/-- What `memmove` is for: the destination is what the source was. -/
def moved (m : ℕ → α) (dst src n : ℕ) (a : ℕ) : α :=
  if dst ≤ a ∧ a < dst + n then m (src + (a - dst)) else m a

/-! ### From the beginning -/

/-- The last byte that is copied. -/
theorem forward_succ (m : ℕ → α) (dst src n : ℕ) :
    forward m dst src (n + 1) =
      update (forward m dst src n) (dst + n) (forward m dst src n (src + n)) := by
  induction n generalizing m dst src with
  | zero => rfl
  | succ n ih =>
    rw [forward, ih]
    simp only [forward, Nat.add_right_comm _ 1 n]
    rfl

theorem forward_of_out {a : ℕ} (ha : a < dst ∨ dst + n ≤ a) : forward m dst src n a = m a := by
  induction n with
  | zero => rfl
  | succ n ih => rw [forward_succ, update_of_ne (by omega), ih (by omega)]

/-- A byte is what has been at its source when it was copied. -/
theorem forward_get {j : ℕ} (hj : j < n) :
    forward m dst src n (dst + j) = forward m dst src j (src + j) := by
  induction n with
  | zero => exact absurd hj (Nat.not_lt_zero j)
  | succ n ih =>
    rw [forward_succ]
    rcases Nat.lt_succ_iff_lt_or_eq.mp hj with hlt | rfl
    · rw [update_of_ne (by omega), ih hlt]
    · rw [update_self]

/-- A source that has been written to. -/
theorem forward_get_again {i : ℕ} (hlt : src < dst) (hi : dst + i < src + n) :
    forward m dst src n (dst + (dst - src + i)) = forward m dst src n (dst + i) := by
  rw [forward_get (by omega), forward_get (by omega : i < n),
    show src + (dst - src + i) = dst + i by omega, forward_get (by omega)]

/-- **Copying from the beginning** is right if the part of the source that is written to before
it is read is a repetition of what comes before it. -/
theorem forward_eq_moved_iff : forward m dst src n = moved m dst src n ↔
    (src < dst → ∀ i, dst + i < src + n → m (dst + i) = m (src + i)) := by
  have hin : ∀ j < n, moved m dst src n (dst + j) = m (src + j) := fun j hj => by
    rw [moved, if_pos (by omega), Nat.add_sub_cancel_left]
  constructor
  · intro h hlt i hi
    have hagain := forward_get_again (m := m) hlt hi
    rw [h, hin _ (by omega), hin _ (by omega)] at hagain
    rwa [show src + (dst - src + i) = dst + i by omega] at hagain
  · intro h
    funext a
    by_cases ha : dst ≤ a ∧ a < dst + n
    · obtain ⟨j, rfl⟩ := Nat.exists_eq_add_of_le ha.1
      -- what has been copied before is right by induction
      induction j using Nat.strongRecOn with
      | ind j ih =>
        rw [hin j (by omega)]
        by_cases hs : dst ≤ src ∨ src + j < dst
        · rw [forward_get (by omega), forward_of_out (by omega)]
        · obtain ⟨i, rfl⟩ := Nat.exists_eq_add_of_le (show dst - src ≤ j by omega)
          rw [forward_get_again (by omega) (by omega), ih i (by omega) ⟨by omega, by omega⟩,
            hin i (by omega), ← h (by omega) i (by omega)]
          exact congrArg m (by omega)
    · rw [forward_of_out (by omega), moved, if_neg ha]

/-! ### From the end -/

theorem backward_eq_moved (m : ℕ → α) (n : ℕ) (hle : src ≤ dst) :
    backward m (dst + n) (src + n) n = moved m dst src n := by
  induction n generalizing m with
  | zero =>
    funext a
    rw [moved, if_neg (by omega)]
    rfl
  | succ n ih =>
    refine (ih (update m (dst + n) (m (src + n)))).trans (funext fun a => ?_)
    simp only [moved]
    by_cases ha : dst ≤ a ∧ a < dst + n
    · rw [if_pos ha, if_pos (by omega), update_of_ne (by omega)]
    · rw [if_neg ha]
      rcases eq_or_ne a (dst + n) with rfl | hne
      · rw [if_pos (by omega), update_self, Nat.add_sub_cancel_left]
      · rw [if_neg (by omega), update_of_ne hne]

/-- `memmove` of the kernel does what it is for. -/
theorem memmove_eq_moved (hs : src + n ≤ 2 ^ 32) (hd : dst + n ≤ 2 ^ 32) :
    memmove m dst src n = moved m dst src n := by
  rw [memmove]
  split
  · next h => exact backward_eq_moved m n (Nat.le_of_lt h.1)
  · refine forward_eq_moved_iff.mpr fun hlt i hi => ?_
    rw [Nat.mod_eq_of_lt (by omega)] at *
    omega

/-- **The two versions.** The kernel's is right whenever the ranges are in the address space. The
user library's, whose `n` is an `int`, leaves the same memory exactly if the destination does not
begin in the source, or the source from there on repeats the source from its beginning. -/
theorem ulib_memmove_iff (m : ℕ → UInt8) (dst src n : ℕ) (hs : src + n ≤ 2 ^ 32)
    (hd : dst + n ≤ 2 ^ 32) : memmove m dst src n = moved m dst src n ∧
      (n < 2 ^ 31 → (ulibMemmove m dst src n = memmove m dst src n ↔
        (src < dst → ∀ i, dst + i < src + n → m (dst + i) = m (src + i)))) := by
  have h := memmove_eq_moved (m := m) hs hd
  exact ⟨h, fun _ => by rw [h]; exact forward_eq_moved_iff⟩

/-- The bytes `0`, `1` and `2` moved by one. -/
theorem ulib_memmove_overlap : ulibMemmove UInt8.ofNat 1 0 3 3 ≠ memmove UInt8.ofNat 1 0 3 3 := by
  decide

/-- The same bytes, moved the other way. -/
theorem ulib_memmove_down : ulibMemmove UInt8.ofNat 0 1 3 = memmove UInt8.ofNat 0 1 3 :=
  ((ulib_memmove_iff UInt8.ofNat 0 1 3 (by decide) (by decide)).2 (by decide)).mpr fun h =>
    absurd h (by decide)

end Xv6.Mem
