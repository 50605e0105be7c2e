import Mathlib.Data.List.GetD
import Xv6.Fs.State

/-!
# Bytes of a file

The contents of an inode are a function of the offset (`Xv6.Fs.State.data`), of which
`readi` returns a part (`Xv6.Fs.bytes`) and `writei` changes a part
(`Xv6.Fs.overwrite`). As an array of bytes, with an end, this is to replace or extend a
part of the array (`Xv6.Fs.splice`).
-/

namespace Xv6.Fs

open Lib List UInt32

/-- Replace or extend a part of an array. -/
def splice (c : Str) (off : ℕ) (src : Str) : Str :=
  c.take off ++ src ++ c.drop (off + src.length)

section Parts

variable {f g : ℕ → UInt8} {off n k : ℕ} {src : Str}

theorem bytes_append (f : ℕ → UInt8) (off m n : ℕ) :
    bytes f off m ++ bytes f (off + m) n = bytes f off (m + n) := by
  unfold bytes
  rw [range_add, map_append, map_map]
  refine congrArg _ (map_congr_left fun k _ => ?_)
  rw [Function.comp_apply, Nat.add_assoc]

theorem length_bytes (f : ℕ → UInt8) (off n : ℕ) : (bytes f off n).length = n := by
  rw [bytes, length_map, length_range]

theorem bytes_congr (h : ∀ j, off ≤ j → j < off + n → f j = g j) :
    bytes f off n = bytes g off n := by
  refine map_congr_left fun k hk => h _ (Nat.le_add_right ..) ?_
  have := mem_range.mp hk
  omega

theorem drop_bytes (f : ℕ → UInt8) (off n k : ℕ) :
    (bytes f off n).drop k = bytes f (off + k) (n - k) := by
  by_cases hk : k ≤ n
  · have h := bytes_append f off k (n - k)
    rw [Nat.add_sub_cancel' hk] at h
    rw [← h, drop_append_of_le_length (length_bytes ..).ge,
      drop_eq_nil_of_le (length_bytes ..).le, nil_append]
  · rw [drop_eq_nil_of_le (by rw [length_bytes]; omega), Nat.sub_eq_zero_of_le (by omega)]
    rfl

theorem take_bytes (f : ℕ → UInt8) (off n k : ℕ) :
    (bytes f off n).take k = bytes f off (min k n) := by
  have h := bytes_append f off (min k n) (n - min k n)
  rw [Nat.add_sub_cancel' (min_le_right ..)] at h
  rw [← h]
  by_cases hk : k ≤ n
  · rw [min_eq_left hk, take_append_of_le_length (length_bytes ..).ge,
      take_of_length_le (length_bytes ..).le]
  · rw [min_eq_right (by omega), Nat.sub_self]
    change ((bytes f off n) ++ []).take k = _
    rw [append_nil, take_of_length_le]
    rw [length_bytes]
    omega

/-! ### Overwriting -/

theorem overwrite_nil (f : ℕ → UInt8) (off : ℕ) : overwrite f off [] = f :=
  funext fun _ => if_neg (by rw [length_nil]; omega)

/-- Writing some bytes and then the following ones. -/
theorem overwrite_append (f : ℕ → UInt8) (off : ℕ) (q r : Str) :
    overwrite (overwrite f off q) (off + q.length) r = overwrite f off (q ++ r) := by
  funext j
  unfold overwrite
  rw [length_append]
  by_cases h1 : off ≤ j ∧ j < off + q.length
  · rw [if_neg (by omega), if_pos h1, if_pos (by omega), getD_append _ _ _ _ (by omega)]
  · by_cases h2 : off + q.length ≤ j ∧ j < off + q.length + r.length
    · rw [if_pos h2, if_pos (by omega), getD_append_right _ _ _ _ (by omega)]
      congr 1
      omega
    · rw [if_neg h2, if_neg h1, if_neg (by omega)]

/-- Appending. -/
theorem overwrite_getD (c q : Str) :
    overwrite (fun j => c.getD j 0) c.length q = fun j => (c ++ q).getD j 0 := by
  funext j
  unfold overwrite
  by_cases h1 : j < c.length
  · rw [if_neg (by omega), getD_append _ _ _ _ h1]
  · rw [getD_append_right _ _ _ _ (not_lt.mp h1)]
    by_cases h2 : j < c.length + q.length
    · rw [if_pos (by omega)]
    · rw [if_neg (by omega), getD_eq_default q _ (by omega)]
      exact getD_eq_default _ _ (not_lt.mp h1)

/-- Overwriting a part of some bytes, in place or beyond their end. -/
theorem bytes_overwrite (h : off ≤ n) :
    bytes (overwrite f off src) 0 (max n (off + src.length)) = splice (bytes f 0 n) off src := by
  have hsrc : bytes (overwrite f off src) off src.length = src := by
    have hmap : bytes (overwrite f off src) off src.length =
        (List.range src.length).map fun k => src.getD k 0 := by
      refine map_congr_left fun k hk => ?_
      have := mem_range.mp hk
      rw [overwrite, if_pos (by omega), Nat.add_sub_cancel_left]
    rw [hmap]
    refine ext_getElem (by rw [length_map, length_range]) fun i _ h2 => ?_
    rw [List.getElem_map, List.getElem_range, getD_eq_getElem _ _ h2]
  have hhead : bytes (overwrite f off src) 0 off = bytes f 0 off :=
    bytes_congr fun j _ hj => if_neg (by omega)
  have htail : bytes (overwrite f off src) (off + src.length) (n - (off + src.length)) =
      bytes f (off + src.length) (n - (off + src.length)) :=
    bytes_congr fun j hj _ => if_neg (by omega)
  have hparts : max n (off + src.length) = off + src.length + (n - (off + src.length)) := by omega
  unfold splice
  rw [take_bytes, drop_bytes, min_eq_left h, Nat.zero_add, hparts, ← bytes_append,
    ← bytes_append, Nat.zero_add, Nat.zero_add, hhead, hsrc, htail]

theorem splice_nil (c : Str) (off : ℕ) : splice c off [] = c := by
  rw [splice, append_nil, length_nil, Nat.add_zero, take_append_drop]

/-- Writing what is there already. -/
theorem splice_self (c : Str) (off k : ℕ) : splice c off ((c.drop off).take k) = c := by
  have hdrop : c.drop (off + ((c.drop off).take k).length) = (c.drop off).drop k := by
    rw [drop_drop, length_take, length_drop]
    rcases le_total k (c.length - off) with h | h
    · rw [min_eq_left h]
    · rw [min_eq_right h, drop_eq_nil_of_le (by omega), drop_eq_nil_of_le (by omega)]
  rw [splice, hdrop, append_assoc, take_append_drop, take_append_drop]

theorem length_splice {c : Str} (h : off ≤ c.length) :
    (splice c off src).length = max c.length (off + src.length) := by
  rw [splice, length_append, length_append, length_take, length_drop]
  omega

/-- Writing some bytes and then the following ones. -/
theorem splice_append {c : Str} (h : off ≤ c.length) (q r : Str) :
    splice (splice c off q) (off + q.length) r = splice c off (q ++ r) := by
  have hlen : (c.take off ++ q).length = off + q.length := by
    rw [length_append, length_take, min_eq_left h]
  have hdrop : (splice c off q).drop (off + q.length + r.length) =
      c.drop (off + (q ++ r).length) := by
    rw [splice, ← hlen, drop_length_add_append, hlen, drop_drop, length_append,
      Nat.add_assoc]
  unfold splice at hdrop ⊢
  rw [hdrop, ← hlen, take_left, append_assoc (c.take off)]

end Parts

/-! ### The tests of `readi` and `writei` -/

section Tests

variable {off : UInt32} {src : Str}

/-- What `readi` returns, as a part of the contents. -/
theorem readiLen_map {f : ℕ → UInt8} {size n : UInt32} (h : ¬(size < off ∨ off + n < off)) :
    (readiLen size off n).map (fun m => bytes f off.toNat m.toNat) =
      some (((bytes f 0 size.toNat).drop off.toNat).take n.toNat) := by
  rw [readiLen, if_neg h, Option.map_some, drop_bytes, take_bytes, Nat.zero_add]
  refine congrArg (fun m => some (bytes f off.toNat m)) ?_
  rw [not_or, UInt32.not_lt, UInt32.not_lt, le_iff_toNat_le, le_iff_toNat_le,
    UInt32.toNat_add] at h
  have h2 := n.toNat_lt
  split
  · rename_i hlt
    rw [lt_iff_toNat_lt, UInt32.toNat_add] at hlt
    rw [UInt32.toNat_sub_of_le _ _ (le_iff_toNat_le.mpr h.1)]
    omega
  · rename_i hle
    rw [UInt32.not_lt, le_iff_toNat_le, UInt32.toNat_add] at hle
    omega

/-- The tests of `writei`. -/
theorem writeiOk_iff (hsrc : src.length < 2 ^ 32) {size : UInt32} :
    writeiOk size off (UInt32.ofNat src.length) = true ↔
      off ≤ size ∧ off.toNat + src.length ≤ MAXFILE * BSIZE := by
  have hn : (UInt32.ofNat src.length).toNat = src.length := toNat_ofNat_of_lt' hsrc
  unfold writeiOk
  rw [decide_eq_true_iff, not_or, UInt32.not_lt, UInt32.not_lt, le_iff_toNat_le,
    le_iff_toNat_le, UInt32.toNat_add, hn, not_lt]
  have hmax : MAXFILE * BSIZE < 2 ^ 32 := by decide
  generalize MAXFILE * BSIZE = M at *
  omega

/-- The offset at which a write ends. -/
theorem toNat_end (hsrc : src.length < 2 ^ 32) (hmax : off.toNat + src.length ≤ MAXFILE * BSIZE) :
    (off + UInt32.ofNat src.length).toNat = off.toNat + src.length := by
  have hlt : MAXFILE * BSIZE < 2 ^ 32 := by decide
  rw [UInt32.toNat_add, toNat_ofNat_of_lt' hsrc]
  exact Nat.mod_eq_of_lt (lt_of_le_of_lt hmax hlt)

end Tests

end Xv6.Fs
