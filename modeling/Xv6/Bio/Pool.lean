import Mathlib.Data.List.FinRange
import Xv6.Lib.List
import Xv6.Lib.Run
import Xv6.Param

/-!
# The buffers

The part of `bio.c` that runs under `bcache.lock`: the search of `bget` and the end of `brelse`.
The ring of buffers is the list of their indices from `head.next` to `head.prev`.

At the start all buffers claim to hold block zero of device zero, so "holds a
block" must mean more than the fields `dev` and `blockno`: a buffer counts as
*live* when somebody refers to it or when it has been read. The live buffer of a
block is the first one in the list that claims to hold it (`Xv6.Bio.Pool.Ok`), which is
why the search of `bget` finds it.
-/

namespace Xv6.Bio

open Lib Function List

/-- A block of a device: the pair of `dev` and `blockno`. -/
abbrev Key := ℕ × ℕ

/-- `struct buf`, with the two bits of `flags` and the process that holds the
sleep-lock. -/
structure Buf (Pid : Type) where
  /-- `B_VALID`: the buffer has been read from disk. -/
  valid : Bool
  /-- `B_DIRTY`: the buffer needs to be written to disk. -/
  dirty : Bool
  key : Key
  lock : Option Pid
  refcnt : ℕ
  data : Block

/-- An index into the buffer cache. -/
abbrev Slot := Fin NBUF

instance : NeZero NBUF := ⟨by decide⟩

variable {Pid : Type}

/-- Somebody refers to the buffer, or it has been read. -/
def Buf.Live (b : Buf Pid) : Prop := 0 < b.refcnt ∨ b.valid = true

/-- The buffers. -/
structure Pool (Pid : Type) where
  buf : Slot → Buf Pid
  /-- The buffers from the most to the least recently used one. -/
  list : List Slot

namespace Pool

/-- Change one buffer. -/
def set (c : Pool Pid) (i : Slot) (b : Buf Pid) : Pool Pid := { c with buf := update c.buf i b }

/-- The first loop of `bget`: a buffer for the block. -/
def cached (c : Pool Pid) (k : Key) : Option Slot := c.list.find? fun i => (c.buf i).key = k

/-- The second loop of `bget`: the least recently used buffer that is not in
use. -/
def unused (c : Pool Pid) : Option Slot :=
  c.list.reverse.find? fun i => (c.buf i).refcnt = 0 ∧ (c.buf i).dirty = false

/-- `bget`, up to the sleep-lock. -/
def bget (c : Pool Pid) (k : Key) : Effect (Slot × Pool Pid) :=
  match c.cached k with
  | some i => .ok (i, c.set i { c.buf i with refcnt := (c.buf i).refcnt + 1 })
  | none => match c.unused with
    | some i => .ok (i, c.set i
        { c.buf i with key := k, valid := false, dirty := false, refcnt := 1 })
    | none => .panic "bget: no buffers"

/-- The end of `brelse`: a buffer that nobody is waiting for moves to the head of the list. -/
def release (c : Pool Pid) (i : Slot) : Pool Pid :=
  let refcnt := (c.buf i).refcnt - 1
  { c.set i { c.buf i with refcnt := refcnt } with
    list := if refcnt = 0 then i :: c.list.erase i else c.list }

/-- The buffers after `binit`. -/
def init : Pool Pid where
  buf := fun _ => ⟨false, false, (0, 0), none, 0, fun _ => 0⟩
  list := (List.finRange NBUF).reverse

/-- **The live buffer of a block is the first one for it.** -/
structure Ok (c : Pool Pid) : Prop where
  mem : ∀ i, i ∈ c.list
  first : ∀ i, (c.buf i).Live → c.cached (c.buf i).key = some i

section

variable {c c' : Pool Pid} {i j : Slot} {k : Key} {b : Buf Pid}

/-- What `bget` does: it finds the block, or it takes over a buffer. -/
theorem bget_ok : c.bget k = .ok (i, c') ↔
    c.cached k = some i ∧ c' = c.set i { c.buf i with refcnt := (c.buf i).refcnt + 1 } ∨
    c.cached k = none ∧ c.unused = some i ∧
      c' = c.set i { c.buf i with key := k, valid := false, dirty := false, refcnt := 1 } := by
  rw [bget]
  cases hk : c.cached k with
  | some j =>
    simp only [Effect.ok.injEq, Prod.mk.injEq, Option.some.injEq, reduceCtorEq, false_and, or_false]
    constructor
    · rintro ⟨rfl, rfl⟩
      exact ⟨rfl, rfl⟩
    · rintro ⟨rfl, rfl⟩
      exact ⟨rfl, rfl⟩
  | none =>
    cases hu : c.unused with
    | none => simp
    | some j =>
      simp only [Effect.ok.injEq, Prod.mk.injEq, Option.some.injEq, reduceCtorEq, false_and,
        true_and, false_or]
      constructor
      · rintro ⟨rfl, rfl⟩
        exact ⟨rfl, rfl⟩
      · rintro ⟨rfl, rfl⟩
        exact ⟨rfl, rfl⟩

theorem refcnt_of_unused (hi : c.unused = some i) :
    (c.buf i).refcnt = 0 ∧ (c.buf i).dirty = false := by
  simpa using find?_some hi

theorem key_of_cached (hi : c.cached k = some i) : (c.buf i).key = k := by
  simpa using find?_some hi

theorem ok_init : (init : Pool Pid).Ok where
  mem := fun i => mem_reverse.mpr (mem_finRange i)
  first := fun i hi => absurd hi (by simp [init, Buf.Live])

theorem cached_congr (hlist : c'.list = c.list) (hkey : ∀ j, (c'.buf j).key = (c.buf j).key)
    (k : Key) : c'.cached k = c.cached k := by
  simp only [cached, hlist, hkey]

variable (h : c.Ok)
include h

/-- **At most one live buffer holds a block.** -/
theorem Ok.eq_of_key (hi : (c.buf i).Live) (hj : (c.buf j).Live)
    (hk : (c.buf i).key = (c.buf j).key) : i = j := by
  have hi' := h.first i hi
  rw [hk, h.first j hj] at hi'
  exact (Option.some.inj hi').symm

/-- A buffer changes, but not the block that it is for. -/
theorem Ok.set (hkey : b.key = (c.buf i).key)
    (hlive : b.Live → c.cached (c.buf i).key = some i) : (c.set i b).Ok := by
  have hkeys : ∀ j, (update c.buf i b j).key = (c.buf j).key := fun j => by
    rcases eq_or_ne j i with rfl | hj
    · rw [update_self, hkey]
    · rw [update_of_ne hj]
  refine ⟨h.mem, fun j hj => ?_⟩
  have hcached : ∀ k, (c.set i b).cached k = c.cached k := cached_congr rfl hkeys
  rw [hcached]
  change (update c.buf i b j).Live at hj
  change c.cached (update c.buf i b j).key = some j
  rw [hkeys]
  rcases eq_or_ne j i with rfl | hji
  · rw [update_self] at hj
    exact hlive hj
  · rw [update_of_ne hji] at hj
    exact h.first j hj

/-- `bget` takes over a buffer for a block that has none. -/
theorem Ok.recycle (hno : c.cached k = none) : (c.set i
    { c.buf i with key := k, valid := false, dirty := false, refcnt := 1 }).Ok := by
  have hother : ∀ j, (c.buf j).key ≠ k := fun j => by
    simpa using find?_eq_none.mp hno j (h.mem j)
  set b : Buf Pid := { c.buf i with key := k, valid := false, dirty := false, refcnt := 1 }
  refine ⟨h.mem, fun j hj => ?_⟩
  change (update c.buf i b j).Live at hj
  change c.list.find? (fun l => (update c.buf i b l).key = (update c.buf i b j).key) = some j
  rcases eq_or_ne j i with rfl | hji
  · -- no other buffer is for the block
    refine find?_of_unique (h.mem j) (by simp) fun l hl => ?_
    by_contra hlj
    rw [update_of_ne hlj, update_self, decide_eq_true_eq] at hl
    exact hother l hl
  · rw [update_of_ne hji] at hj ⊢
    refine find?_of_imp (h.first j hj) (by rw [update_of_ne hji]; simp) fun l hl => ?_
    rcases eq_or_ne l i with rfl | hli
    · rw [update_self, decide_eq_true_eq] at hl
      exact absurd hl.symm (hother j)
    · rwa [update_of_ne hli] at hl

/-- A buffer that is the only one for its block moves to the head of the list. -/
theorem Ok.to_front (honly : ∀ j, (c.buf j).Live → (c.buf j).key = (c.buf i).key → j = i) :
    Ok { c with list := i :: c.list.erase i } := by
  refine ⟨fun j => ?_, fun j hj => ?_⟩
  · rcases eq_or_ne j i with rfl | hji
    · exact mem_cons_self
    · exact mem_cons_of_mem _ ((mem_erase_of_ne hji).mpr (h.mem j))
  · change (i :: c.list.erase i).find? (fun l => (c.buf l).key = (c.buf j).key) = some j
    rcases eq_or_ne j i with rfl | hji
    · exact find?_cons_of_pos (by simp)
    · rw [find?_cons_erase]
      · exact h.first j hj
      · rw [decide_eq_false_iff_not]
        exact fun hk => hji (honly j hj hk.symm)

/-- A buffer that somebody refers to is given back. -/
theorem Ok.release (hpos : 0 < (c.buf i).refcnt) : (c.release i).Ok := by
  set b : Buf Pid := { c.buf i with refcnt := (c.buf i).refcnt - 1 } with hb
  have hset : (c.set i b).Ok := h.set rfl fun _ => h.first i (.inl hpos)
  change Ok { c.set i b with
    list := if (c.buf i).refcnt - 1 = 0 then i :: c.list.erase i else c.list }
  split
  · refine hset.to_front fun j hj hk => ?_
    change (update c.buf i b j).Live at hj
    change (update c.buf i b j).key = (update c.buf i b i).key at hk
    by_contra hji
    rw [update_of_ne hji] at hj hk
    rw [update_self] at hk
    exact hji (h.eq_of_key hj (.inl hpos) hk)
  · exact hset

end

end Pool

end Xv6.Bio
