import Xv6.Lib.Circular
import Xv6.Malloc.Heap

/-!
# The blocks of the heap

The memory that `sbrk` has handed out is one range, and the blocks cover it without gaps: each of
them is free, or it has been given to the program for some number of bytes. So the heap is a list of
`Tile`s, of which the addresses follow. `Xv6.Malloc.Ready` says how it is kept in the
memory: the sizes are in the headers, and the free blocks are linked in a circle with `base`.

In such a list blocks cannot overlap, and free blocks are adjacent just if they are
neighbours.
-/

namespace Xv6.Malloc

open Lib List

/-- A block: how many headers it takes, and the number of bytes that it was asked for with,
unless it is free. -/
structure Tile where
  size : ℕ
  use : Option ℕ

/-- How many headers there are. -/
def total : List Tile → ℕ
  | [] => 0
  | x :: T => x.size + total T

/-- The addresses of the free blocks. -/
def frees (a : ℕ) : List Tile → List ℕ
  | [] => []
  | ⟨s, none⟩ :: T => a :: frees (a + 8 * s) T
  | ⟨s, some _⟩ :: T => frees (a + 8 * s) T

/-- The pointers of the program, with the numbers of bytes. -/
def lives (a : ℕ) : List Tile → List (ℕ × ℕ)
  | [] => []
  | ⟨s, none⟩ :: T => lives (a + 8 * s) T
  | ⟨s, some n⟩ :: T => (a + 8, n) :: lives (a + 8 * s) T

/-- The sizes are in the headers. -/
def Sizes (mem : ℕ → Header) (a : ℕ) : List Tile → Prop
  | [] => True
  | x :: T => (mem a).size = x.size ∧ Sizes mem (a + 8 * x.size) T

/-- A block is large enough for its header and for what it was asked for. -/
def Tile.Ok (x : Tile) : Prop := 0 < x.size ∧ ∀ n ∈ x.use, n + 8 ≤ 8 * x.size

theorem Tile.ok_none {s : ℕ} (h : 0 < s) : Tile.Ok ⟨s, none⟩ := ⟨h, fun _ hn => by cases hn⟩

/-- Two blocks are not both free. -/
def Apart (x y : Tile) : Prop := x.use ≠ none ∨ y.use ≠ none

variable {a b : ℕ} {A C T : List Tile} {mem mem' : ℕ → Header} {x : Tile} {s n : ℕ}

/-! ### Addresses -/

@[simp] theorem total_nil : total [] = 0 := rfl

@[simp] theorem total_cons : total (x :: T) = x.size + total T := rfl

theorem total_mk (s : ℕ) (u : Option ℕ) (T : List Tile) : total (⟨s, u⟩ :: T) = s + total T := rfl

@[simp] theorem total_append : total (A ++ C) = total A + total C := by
  induction A with
  | nil => simp
  | cons x A ih => simp [ih, Nat.add_assoc]

@[simp] theorem frees_append : frees a (A ++ C) = frees a A ++ frees (a + 8 * total A) C := by
  induction A generalizing a with
  | nil => rfl
  | cons x A ih =>
    obtain ⟨s, _ | n⟩ := x
    · simp only [cons_append, frees, ih, total_cons, Nat.mul_add, Nat.add_assoc]
    · simp only [cons_append, frees, ih, total_cons, Nat.mul_add, Nat.add_assoc]

@[simp] theorem lives_append : lives a (A ++ C) = lives a A ++ lives (a + 8 * total A) C := by
  induction A generalizing a with
  | nil => rfl
  | cons x A ih =>
    obtain ⟨s, _ | n⟩ := x
    · simp only [cons_append, lives, ih, total_cons, Nat.mul_add, Nat.add_assoc]
    · simp only [cons_append, lives, ih, total_cons, Nat.mul_add, Nat.add_assoc]

@[simp] theorem sizes_append :
    Sizes mem a (A ++ C) ↔ Sizes mem a A ∧ Sizes mem (a + 8 * total A) C := by
  induction A generalizing a with
  | nil => exact (and_iff_right trivial).symm
  | cons x A ih =>
    simp only [cons_append, Sizes, ih, total_cons, Nat.mul_add, Nat.add_assoc, and_assoc]

/-- A free block lies in the range. -/
theorem mem_frees (hok : ∀ x ∈ T, x.Ok) (hb : b ∈ frees a T) : a ≤ b ∧ b + 8 ≤ a + 8 * total T := by
  induction T generalizing a with
  | nil => cases hb
  | cons x T ih =>
    obtain ⟨hx, hT⟩ := forall_mem_cons.mp hok
    obtain ⟨s, u⟩ := x
    have hpos : 0 < s := hx.1
    rw [total_mk]
    obtain _ | n := u
    · rw [frees, mem_cons] at hb
      rcases hb with rfl | hb
      · omega
      · have := ih hT hb
        omega
    · have := ih hT hb
      omega

/-- The free blocks are in the order of their addresses. -/
theorem frees_pairwise (hok : ∀ x ∈ T, x.Ok) : (frees a T).Pairwise (· < ·) := by
  induction T generalizing a with
  | nil => exact .nil
  | cons x T ih =>
    obtain ⟨hx, hT⟩ := forall_mem_cons.mp hok
    obtain ⟨s, u⟩ := x
    have hpos : 0 < s := hx.1
    obtain _ | n := u
    · refine .cons (fun b hb => ?_) (ih hT)
      have := mem_frees hT hb
      omega
    · exact ih hT

/-- A pointer of the program is that of a block. -/
theorem mem_lives {ap : ℕ} (h : (ap, n) ∈ lives a T) :
    ∃ A s C, T = A ++ ⟨s, some n⟩ :: C ∧ ap = a + 8 * total A + 8 := by
  induction T generalizing a with
  | nil => cases h
  | cons x T ih =>
    obtain ⟨s, _ | k⟩ := x
    · obtain ⟨A, s', C, rfl, rfl⟩ := ih h
      exact ⟨⟨s, none⟩ :: A, s', C, rfl, by rw [total_mk]; omega⟩
    · rw [lives, mem_cons] at h
      rcases h with h | h
      · obtain ⟨rfl, rfl⟩ := Prod.mk.inj h
        exact ⟨[], s, T, rfl, rfl⟩
      · obtain ⟨A, s', C, rfl, rfl⟩ := ih h
        exact ⟨⟨s, some k⟩ :: A, s', C, rfl, by rw [total_mk]; omega⟩

/-- A free block is one of the list. -/
theorem exists_of_mem_frees (hb : b ∈ frees a T) :
    ∃ A s C, T = A ++ ⟨s, none⟩ :: C ∧ b = a + 8 * total A := by
  induction T generalizing a with
  | nil => cases hb
  | cons x T ih =>
    obtain ⟨s, _ | k⟩ := x
    · rw [frees, mem_cons] at hb
      rcases hb with rfl | hb
      · exact ⟨[], s, T, rfl, rfl⟩
      · obtain ⟨A, s', C, rfl, rfl⟩ := ih hb
        exact ⟨⟨s, none⟩ :: A, s', C, rfl, by rw [total_mk]; omega⟩
    · obtain ⟨A, s', C, rfl, rfl⟩ := ih hb
      exact ⟨⟨s, some k⟩ :: A, s', C, rfl, by rw [total_mk]; omega⟩

/-- Only the headers in the range matter. -/
theorem Sizes.congr (h : Sizes mem a T) (hok : ∀ x ∈ T, x.Ok)
    (hm : ∀ b, a ≤ b → b + 8 ≤ a + 8 * total T → (mem' b).size = (mem b).size) :
    Sizes mem' a T := by
  induction T generalizing a with
  | nil => trivial
  | cons x T ih =>
    obtain ⟨hx, hT⟩ := forall_mem_cons.mp hok
    have hpos := hx.1
    rw [total_cons] at hm
    refine ⟨(hm a le_rfl (by omega)).trans h.1, ih h.2 hT fun b hb hb' => hm b ?_ ?_⟩
    · omega
    · omega

end Xv6.Malloc
