import Mathlib.Data.Nat.Notation
import Mathlib.Data.List.TakeDrop

/-!
# Strings

A string of C is a pointer to bytes that end with a zero byte. Code that only moves such a pointer to
the right sees of the string what is left of it. So a pointer is a list of bytes other than zero
(`CStr`). The string that it points into lies in a buffer with one byte more, and a pointer has an
index there (`CStr.index`). What is read from an index of a buffer is `cstr`.
-/

namespace Xv6.Lib

open List

/-- A pointer into a string: what is left of it. -/
@[ext] structure CStr where
  chars : List UInt8
  noNul : 0 ∉ chars
  deriving DecidableEq

namespace CStr

/-- `*s`, which is zero at the end. -/
def head (s : CStr) : UInt8 := s.chars.headD 0

/-- `s + 1` -/
def tail (s : CStr) : CStr := ⟨s.chars.tail, fun h => s.noNul (mem_of_mem_tail h)⟩

/-- `while(*s != 0 && p(*s)) s++;` -/
def skip (p : UInt8 → Bool) (s : CStr) : CStr :=
  ⟨s.chars.dropWhile p, fun h => s.noNul ((dropWhile_suffix p).subset h)⟩

/-- The buffer with the string. -/
def buffer (s : CStr) : List UInt8 := s.chars ++ [0]

/-- Where the pointer `p` points to in the buffer of `s`. -/
def index (s p : CStr) : ℕ := s.chars.length - p.chars.length

variable {s : CStr} {p : UInt8 → Bool}

theorem head_eq_zero : s.head = 0 ↔ s.chars = [] := by
  obtain ⟨_ | ⟨c, r⟩, h⟩ := s
  · exact ⟨fun _ => rfl, fun _ => rfl⟩
  · refine ⟨fun hc => ?_, fun hc => by cases hc⟩
    obtain rfl : c = 0 := hc
    exact absurd mem_cons_self h

/-- The first byte and the rest. -/
theorem chars_eq (hs : s.chars ≠ []) : s.chars = s.head :: s.tail.chars := by
  obtain ⟨_ | ⟨c, r⟩, h⟩ := s
  · exact absurd rfl hs
  · rfl

theorem head_tail_of_eq {c : UInt8} {l : List UInt8} (hs : s.chars = c :: l) :
    s.head = c ∧ s.tail.chars = l := by
  change s.chars.headD 0 = c ∧ s.chars.tail = l
  rw [hs]
  exact ⟨rfl, rfl⟩

theorem length_tail_lt (h : s.chars ≠ []) : s.tail.chars.length < s.chars.length := by
  have := length_pos_iff.mpr h
  rw [tail, length_tail]
  omega

theorem length_tail_le : s.tail.chars.length ≤ s.chars.length := by
  rw [tail, length_tail]
  exact Nat.sub_le ..

theorem skip_of_pos (hs : s.chars ≠ []) (h : p s.head) : s.skip p = s.tail.skip p := by
  obtain ⟨_ | ⟨c, r⟩, hn⟩ := s
  · exact absurd rfl hs
  · exact CStr.mk.injEq .. ▸ dropWhile_cons_of_pos h

theorem skip_of_neg (h : ¬p s.head) : s.skip p = s := by
  obtain ⟨_ | ⟨c, r⟩, hn⟩ := s
  · rfl
  · exact CStr.mk.injEq .. ▸ dropWhile_cons_of_neg h

theorem length_skip_le : (s.skip p).chars.length ≤ s.chars.length :=
  (dropWhile_suffix p).length_le

/-- The loop ends at the end of the string, or before a byte that does not pass the test. -/
theorem head_skip : (s.skip p).chars = [] ∨ ¬p (s.skip p).head := by
  obtain ⟨l, hn⟩ := s
  induction l with
  | nil => exact .inl rfl
  | cons c r ih =>
    by_cases hc : p c
    · rw [skip_of_pos (cons_ne_nil c r) hc]
      exact ih _
    · rw [skip_of_neg hc]
      exact .inr hc

end CStr

/-- The string at an index of a buffer. -/
def cstr (buf : List UInt8) (i : ℕ) : List UInt8 := (buf.drop i).takeWhile (· ≠ 0)

theorem cstr_eq {buf : List UInt8} {i : ℕ} {l : List UInt8} (hl : 0 ∉ l)
    (hbuf : ∀ j (hj : j < l.length), buf[i + j]? = some (l.get ⟨j, hj⟩))
    (hend : buf[i + l.length]? = some 0) : cstr buf i = l := by
  induction l generalizing i with
  | nil =>
    have hend : buf[i]? = some 0 := hend
    obtain ⟨hlt, hz⟩ := List.getElem?_eq_some_iff.mp hend
    rw [cstr, drop_eq_getElem_cons hlt, takeWhile_cons_of_neg]
    simpa using hz
  | cons c l ih =>
    obtain ⟨hc, hl⟩ := not_or.mp (mt mem_cons.mpr hl)
    have hfirst : buf[i]? = some c := hbuf 0 (Nat.succ_pos _)
    obtain ⟨hlt, hget⟩ := List.getElem?_eq_some_iff.mp hfirst
    have hrest : cstr buf (i + 1) = l := by
      refine ih hl (fun j hj => ?_) ?_
      · rw [Nat.add_assoc, Nat.add_comm 1 j]
        exact hbuf (j + 1) (Nat.succ_lt_succ hj)
      · rwa [Nat.add_assoc, Nat.add_comm 1]
    rw [cstr, drop_eq_getElem_cons hlt, takeWhile_cons_of_pos]
    · exact cons_eq_cons.mpr ⟨hget, hrest⟩
    · rw [hget]
      exact decide_eq_true (Ne.symm hc)

end Xv6.Lib
