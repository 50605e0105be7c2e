import Mathlib.Data.List.Rotate
import Mathlib.Data.List.Nodup
import Mathlib.Logic.Function.Basic

/-!
# Circular lists

A circular list in a memory is a function `next` and a list of the nodes in order: the
successors of the nodes are the nodes again, each one place further (`Circular`). Since a list may be
rotated, every node can be made the first one (`Circular.rotated`), and so inserting and removing
only have to be looked at after the first node (`Circular.insert`, `Circular.erase`).

A `Path` leads from one node to another. All nodes are met on the path from a node to itself, and so
a loop that follows the pointers from a node until it is there again looks at all of them (`Scans`).
-/

namespace Xv6.Lib

open Function List

variable {α : Type*} {next next' : α → α} {x y z : α} {l m m' : List α}

/-! ### Paths -/

/-- The path from `x` to `z`, with the nodes between them. -/
def Path (next : α → α) (x : α) (m : List α) (z : α) : Prop := (x :: m).map next = m ++ [z]

theorem path_nil : Path next x [] z ↔ next x = z := by
  rw [Path, map_singleton, nil_append, singleton_inj]

theorem path_cons : Path next x (y :: m) z ↔ next x = y ∧ Path next y m z := by
  rw [Path, map_cons, cons_append, cons_eq_cons]
  rfl

/-! ### Circular lists -/

/-- The nodes of a circular list, in order. -/
def Circular (next : α → α) (l : List α) : Prop := l.map next = l.rotate 1

theorem circular_cons : Circular next (x :: l) ↔ Path next x l x := by
  rw [Circular, rotate_cons_succ, rotate_zero]
  rfl

variable (h : Circular next l)
include h

/-- It does not matter where a circular list begins. -/
theorem Circular.rotated (hl : l ~r m) : Circular next m := by
  obtain ⟨n, rfl⟩ := hl
  rw [Circular, map_rotate, h, rotate_rotate, rotate_rotate, Nat.add_comm]

theorem Circular.congr (hn : ∀ x ∈ l, next' x = next x) : Circular next' l :=
  (map_congr_left hn).trans h

theorem Circular.next_mem (hx : x ∈ l) : next x ∈ l := by
  have hmem : next x ∈ l.map next := mem_map_of_mem hx
  rw [h] at hmem
  exact mem_rotate.mp hmem

/-- A node has one predecessor. -/
theorem Circular.injOn (hd : l.Nodup) (hx : x ∈ l) (hy : y ∈ l)
    (he : next x = next y) : x = y := by
  refine inj_on_of_nodup_map ?_ hx hy he
  rw [h]
  exact nodup_rotate.mpr hd

/-- The way round from a node. -/
theorem Circular.exists_path (hx : x ∈ l) :
    ∃ m, l ~r x :: m ∧ Path next x m x := by
  obtain ⟨l₁, l₂, rfl⟩ := append_of_mem hx
  have hr : l₁ ++ x :: l₂ ~r x :: (l₂ ++ l₁) := isRotated_append
  exact ⟨l₂ ++ l₁, hr, circular_cons.mp (h.rotated hr)⟩

omit h

variable [DecidableEq α]

/-! ### Going round -/

section Scan

variable {β : Type*} {good : α → Prop} [DecidablePred good] {found : α → α → β} {more : ℕ → β}
  {F : ℕ → α → α → β}

/-- A loop with two pointers, one behind the other, and a number of rounds that it may take. It ends
at the first node that is good, and at `z` it goes on with something else if that is not good. -/
def Scans (next : α → α) (z : α) (good : α → Prop) [DecidablePred good] (found : α → α → β)
    (more : ℕ → β) (F : ℕ → α → α → β) : Prop :=
  ∀ k x y, F (k + 1) x y = if good y then found x y else if y = z then more k else F k y (next y)

/-- There is a good node on the way. -/
theorem Scans.found_eq (hF : Scans next z good found more F) :
    ∀ {x : α}, Path next x m z → z ∉ m → (∃ y ∈ m ++ [z], good y) →
      ∃ q ∈ x :: m, good (next q) ∧ ∀ k, m.length < k → F k x (next x) = found q (next q) := by
  induction m with
  | nil =>
    rintro x hpath - ⟨y, hy, hgood⟩
    obtain rfl := mem_singleton.mp hy
    rw [← path_nil.mp hpath] at hgood
    refine ⟨x, mem_cons_self, hgood, fun k hk => ?_⟩
    obtain ⟨k, rfl⟩ := Nat.exists_eq_add_of_lt hk
    rw [hF, if_pos hgood]
  | cons a m ih =>
    rintro x hpath hm ⟨y, hy, hgood⟩
    obtain ⟨hx, hpath⟩ := path_cons.mp hpath
    obtain ⟨ha, hm⟩ := not_or.mp (mt mem_cons.mpr hm)
    by_cases hxg : good (next x)
    · refine ⟨x, mem_cons_self, hxg, fun k hk => ?_⟩
      obtain ⟨k, rfl⟩ := Nat.exists_eq_add_of_lt hk
      rw [hF, if_pos hxg]
    · have hrest : ∃ y ∈ m ++ [z], good y := by
        rcases mem_cons.mp hy with rfl | hy
        · exact absurd (hx ▸ hgood) hxg
        · exact ⟨y, hy, hgood⟩
      obtain ⟨q, hq, hqg, hloop⟩ := ih hpath hm hrest
      refine ⟨q, mem_cons_of_mem x hq, hqg, fun k hk => ?_⟩
      obtain ⟨k, rfl⟩ := Nat.exists_eq_add_of_lt hk
      rw [hF, if_neg hxg, if_neg (hx ▸ Ne.symm ha), hx]
      exact hloop _ (by rw [length_cons]; omega)

/-- There is none. -/
theorem Scans.more_eq (hF : Scans next z good found more F) :
    ∀ {x : α}, Path next x m z → z ∉ m → (∀ y ∈ m ++ [z], ¬good y) →
      ∀ k, F (m.length + 1 + k) x (next x) = more k := by
  induction m with
  | nil =>
    intro x hpath _ hbad k
    have hx := path_nil.mp hpath
    rw [length_nil, Nat.zero_add, Nat.add_comm, hF, hx,
      if_neg (hbad _ (mem_singleton_self _)), if_pos rfl]
  | cons a m ih =>
    intro x hpath hm hbad k
    obtain ⟨hx, hpath⟩ := path_cons.mp hpath
    obtain ⟨ha, hm⟩ := not_or.mp (mt mem_cons.mpr hm)
    obtain ⟨hab, hbad⟩ := forall_mem_cons.mp hbad
    have hlen : (a :: m).length + 1 + k = m.length + 1 + k + 1 := by rw [length_cons]; omega
    rw [hlen, hF, hx, if_neg hab, if_neg (Ne.symm ha)]
    exact ih hpath hm hbad k

end Scan

/-! ### Inserting and removing -/

/-- **A node is inserted after the first one.** -/
theorem Circular.insert (h : Circular next (x :: l)) (hy : y ∉ x :: l) (hd : (x :: l).Nodup) :
    Circular (update (update next y (next x)) x y) (x :: y :: l) := by
  obtain ⟨hxl, -⟩ := nodup_cons.mp hd
  obtain ⟨hyx, hyl⟩ := not_or.mp (mt mem_cons.mpr hy)
  rw [circular_cons, path_cons, update_self]
  refine ⟨rfl, ?_⟩
  have hp := circular_cons.mp h
  cases l with
  | nil =>
    rw [path_nil] at hp ⊢
    rw [update_of_ne hyx, update_self, hp]
  | cons a l =>
    obtain ⟨hx, hp⟩ := path_cons.mp hp
    rw [path_cons, update_of_ne hyx, update_self]
    refine ⟨hx, (map_congr_left fun b hb => ?_).trans hp⟩
    rw [update_of_ne (ne_of_mem_of_not_mem hb hxl),
      update_of_ne (ne_of_mem_of_not_mem hb hyl)]

/-- **The node after the first one is removed.** -/
theorem Circular.erase (h : Circular next (x :: y :: l)) (hd : (x :: y :: l).Nodup) :
    Circular (update next x (next y)) (x :: l) := by
  obtain ⟨hxl, -⟩ := nodup_cons.mp hd
  obtain ⟨-, hp⟩ := path_cons.mp (circular_cons.mp h)
  rw [circular_cons]
  cases l with
  | nil =>
    rw [path_nil] at hp ⊢
    rw [update_self, hp]
  | cons a l =>
    obtain ⟨hy, hp⟩ := path_cons.mp hp
    rw [path_cons, update_self]
    refine ⟨hy, (map_congr_left fun b hb => ?_).trans hp⟩
    rw [update_of_ne (ne_of_mem_of_not_mem (mem_cons_of_mem y hb) hxl)]

end Xv6.Lib
