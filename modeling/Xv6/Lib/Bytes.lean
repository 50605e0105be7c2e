import Mathlib.Tactic.Ring
import Mathlib.Logic.Function.Basic

/-!
# Byte arrays with little-endian fields

A block of a disk and a page of memory are arrays of a fixed number of bytes, in
which programs store integers at byte offsets. `Bytes n` is such an array, and
`get32`/`set32` are the loads and stores of a 32-bit field in the order of a
little-endian machine. The facts a program relies on are two: a field reads back
what was stored in it, and a store leaves every field disjoint from it alone.
-/

namespace Xv6.Lib

/-- An array of `n` bytes. -/
abbrev Bytes (n : ℕ) : Type := Fin n → UInt8

namespace Bytes

variable {n off len k : ℕ}

/-- The byte at an offset; zero past the end, where no program looks. -/
def byte (b : Bytes n) (k : ℕ) : UInt8 := if h : k < n then b ⟨k, h⟩ else 0

/-- The `i`-th byte of a 32-bit word, least significant first. -/
def byteOf (w : UInt32) (i : ℕ) : UInt8 := UInt8.ofNat (w.toNat / 256 ^ i)

/-- The 32-bit word of four bytes, least significant first. -/
def le32 (b₀ b₁ b₂ b₃ : UInt8) : UInt32 :=
  UInt32.ofNat (b₀.toNat + 256 * b₁.toNat + 65536 * b₂.toNat + 16777216 * b₃.toNat)

/-- The 32-bit field at an offset. -/
def get32 (b : Bytes n) (off : ℕ) : UInt32 :=
  le32 (b.byte off) (b.byte (off + 1)) (b.byte (off + 2)) (b.byte (off + 3))

/-- Store a 32-bit field at an offset. -/
def set32 (b : Bytes n) (off : ℕ) (w : UInt32) : Bytes n := fun k =>
  if off ≤ k ∧ k < off + 4 then byteOf w (k - off) else b k

/-- Copy `len` bytes to an offset. -/
def patch (b : Bytes n) (off len : ℕ) (f : ℕ → UInt8) : Bytes n := fun k =>
  if off ≤ k ∧ k < off + len then f (k - off) else b k

theorem patch_congr {b : Bytes n} {f g : ℕ → UInt8} (h : ∀ k < len, f k = g k) :
    b.patch off len f = b.patch off len g := by
  funext k
  unfold patch
  split
  · exact h _ (by omega)
  · rfl

/-- The first part of a string is copied. -/
theorem patch_take (b : Bytes n) (off : ℕ) {p : List UInt8} (h : len ≤ p.length) :
    b.patch off len (fun k => p.getD k 0) =
      b.patch off (p.take len).length fun k => (p.take len).getD k 0 := by
  rw [List.length_take, Nat.min_eq_left h]
  refine patch_congr fun k hk => ?_
  simp only [List.getD_eq_getElem?_getD, List.getElem?_take, if_pos hk]

theorem byte_patch (b : Bytes n) (f : ℕ → UInt8) (hk : k < n) :
    (b.patch off len f).byte k = if off ≤ k ∧ k < off + len then f (k - off) else b.byte k := by
  simp only [byte, hk, dite_true, patch]

/-- Copying leaves the other bytes alone. -/
theorem byte_patch_of_disjoint (b : Bytes n) (f : ℕ → UInt8) (h : k < off ∨ off + len ≤ k) :
    (b.patch off len f).byte k = b.byte k := by
  by_cases hk : k < n
  · rw [byte_patch b f hk, if_neg (by omega)]
  · simp only [byte, hk, dite_false]

theorem le32_byteOf (w : UInt32) :
    le32 (byteOf w 0) (byteOf w 1) (byteOf w 2) (byteOf w 3) = w := by
  apply UInt32.toNat.inj
  have hw := w.toNat_lt
  simp only [le32, byteOf, UInt32.toNat_ofNat', UInt8.toNat_ofNat']
  omega

/-- The signed 16-bit field of two bytes. -/
def le16 (b₀ b₁ : UInt8) : Int16 := (UInt16.ofNat (b₀.toNat + 256 * b₁.toNat)).toInt16

/-- The `i`-th byte of a signed 16-bit field. -/
def byteOf16 (x : Int16) (i : ℕ) : UInt8 := UInt8.ofNat (x.toUInt16.toNat / 256 ^ i)

theorem le16_byteOf16 (x : Int16) : le16 (byteOf16 x 0) (byteOf16 x 1) = x := by
  have hx := x.toUInt16.toNat_lt
  have h : UInt16.ofNat ((byteOf16 x 0).toNat + 256 * (byteOf16 x 1).toNat) = x.toUInt16 := by
    apply UInt16.toNat.inj
    simp only [byteOf16, UInt16.toNat_ofNat', UInt8.toNat_ofNat']
    omega
  rw [le16, h]
  exact Int16.toInt16_toUInt16 x

theorem byte_set32 (b : Bytes n) (w : UInt32) (hk : k < n) :
    (b.set32 off w).byte k = if off ≤ k ∧ k < off + 4 then byteOf w (k - off) else b.byte k := by
  simp only [byte, hk, dite_true, set32]

/-- A field reads back what was stored in it. -/
theorem get32_set32 (b : Bytes n) (w : UInt32) (h : off + 4 ≤ n) :
    (b.set32 off w).get32 off = w := by
  have hk : ∀ i < 4, (b.set32 off w).byte (off + i) = byteOf w i := by
    intro i hi
    rw [byte_set32 b w (by omega), if_pos (by omega), Nat.add_sub_cancel_left]
  have h0 := hk 0 (by omega)
  rw [Nat.add_zero] at h0
  rw [get32, h0, hk 1 (by omega), hk 2 (by omega), hk 3 (by omega), le32_byteOf]

/-- A store leaves the disjoint bytes alone. -/
theorem byte_set32_of_disjoint (b : Bytes n) (w : UInt32) (h : k < off ∨ off + 4 ≤ k) :
    (b.set32 off w).byte k = b.byte k := by
  by_cases hk : k < n
  · rw [byte_set32 b w hk, if_neg (by omega)]
  · simp only [byte, hk, dite_false]

/-- A store leaves the disjoint fields alone. -/
theorem get32_set32_of_disjoint (b : Bytes n) {off' : ℕ} (w : UInt32)
    (h : off' + 4 ≤ off ∨ off + 4 ≤ off') : (b.set32 off w).get32 off' = b.get32 off' := by
  simp only [get32]
  rw [byte_set32_of_disjoint b w (by omega), byte_set32_of_disjoint b w (by omega),
    byte_set32_of_disjoint b w (by omega), byte_set32_of_disjoint b w (by omega)]

theorem byte_zero (k : ℕ) : byte (fun _ : Fin n => 0) k = 0 := by
  unfold byte
  split <;> rfl

theorem get32_zero (off : ℕ) : get32 (fun _ : Fin n => 0) off = 0 := by
  simp only [get32, byte_zero]
  rfl

end Bytes

end Xv6.Lib
