import Mathlib.Data.List.FinRange
import Xv6.Param

/-!
# The inode cache

The in-memory inodes of `fs.c` and the one function that searches them, `iget`.
An entry holds a *copy* of an inode on the disk, and `valid` says whether the
copy has been read; what is copied is a parameter here, so that the cache can be
used with inodes that hold block numbers (`Xv6.Dinode`) as well as with the more
abstract ones of the directory layer.

`iget` goes over the entries once: it stops at an entry that is in use for the
inode it looks for, and otherwise takes over the first entry that was not in use
(`Xv6.iget_spec`).
-/

namespace Xv6

open Function

/-- An inode on the disk. -/
structure Dinode where
  type : Int16
  major : Int16
  minor : Int16
  nlink : Int16
  size : UInt32
  addrs : Fin (NDIRECT + 1) → UInt32

/-- An entry of the inode cache. The sleep-lock is the process that holds it. -/
structure Inode (Pid D : Type) where
  dev : UInt32
  inum : UInt32
  ref : ℤ
  lock : Option Pid
  valid : Bool
  d : D

/-- An index into the inode cache. -/
abbrev Slot := Fin NINODE

instance : NeZero NINODE := ⟨by decide⟩

variable {Pid D : Type}

/-- The entry is in use for inode `inum` of device `dev`. -/
def Inode.Is (ip : Inode Pid D) (dev inum : UInt32) : Prop :=
  0 < ip.ref ∧ ip.dev = dev ∧ ip.inum = inum

instance (ip : Inode Pid D) (dev inum : UInt32) : Decidable (ip.Is dev inum) :=
  inferInstanceAs (Decidable (_ ∧ _))

/-- What the loop of `iget` ends with. -/
inductive Found where
  /-- The inode is cached already. -/
  | hit (i : Slot)
  /-- It is not, and this is the first empty entry. -/
  | empty (i : Slot)
  /-- It is not, and there is no empty entry. -/
  | full
  deriving DecidableEq

/-- The loop of `iget` over the rest of the entries; `empty` is the empty one
remembered so far. -/
def igetLoop (c : Slot → Inode Pid D) (dev inum : UInt32) : List Slot → Option Slot → Found
  | [], none => .full
  | [], some i => .empty i
  | i :: is, empty =>
    if (c i).Is dev inum then
      .hit i
    else
      igetLoop c dev inum is (if empty = none ∧ (c i).ref = 0 then some i else empty)

/-- `iget`: the entry for an inode, with one more reference to it; there is none
when the function panics. -/
def iget (c : Slot → Inode Pid D) (dev inum : UInt32) : Option (Slot × (Slot → Inode Pid D)) :=
  match igetLoop c dev inum (List.finRange NINODE) none with
  | .hit i => some (i, update c i { c i with ref := (c i).ref + 1 })
  | .empty i => some (i, update c i
      { c i with dev := dev, inum := inum, ref := 1, valid := false })
  | .full => none

variable {c : Slot → Inode Pid D} {dev inum : UInt32} {i : Slot} {is : List Slot}

theorem igetLoop_hit : ∀ {e : Option Slot},
    igetLoop c dev inum is e = .hit i → (c i).Is dev inum := by
  induction is with
  | nil =>
    intro e h
    cases e <;> simp [igetLoop] at h
  | cons j is ih =>
    intro e h
    rw [igetLoop] at h
    split at h
    · exact Found.hit.inj h ▸ ‹_›
    · exact ih h

theorem igetLoop_empty : ∀ {e : Option Slot},
    (∀ j, e = some j → (c j).ref = 0) → igetLoop c dev inum is e = .empty i →
      (c i).ref = 0 ∧ ∀ j ∈ is, ¬(c j).Is dev inum := by
  induction is with
  | nil =>
    intro e he h
    cases e with
    | none => simp [igetLoop] at h
    | some j =>
      exact ⟨he i (congrArg some (Found.empty.inj h)), fun _ hj => absurd hj List.not_mem_nil⟩
  | cons j is ih =>
    intro e he h
    rw [igetLoop] at h
    split at h
    · simp at h
    · rename_i hj
      obtain ⟨h0, hall⟩ := ih (e := if e = none ∧ (c j).ref = 0 then some j else e) (by
        intro k hk
        split at hk
        · rename_i hc
          exact Option.some.inj hk ▸ hc.2
        · exact he k hk) h
      refine ⟨h0, fun k hk => ?_⟩
      rcases List.mem_cons.mp hk with rfl | hk
      · exact hj
      · exact hall k hk

theorem igetLoop_full : ∀ {e : Option Slot},
    igetLoop c dev inum is e = .full →
      e = none ∧ ∀ j ∈ is, ¬(c j).Is dev inum ∧ (c j).ref ≠ 0 := by
  induction is with
  | nil =>
    intro e h
    cases e with
    | none => exact ⟨rfl, fun _ hj => absurd hj List.not_mem_nil⟩
    | some i => cases h
  | cons i is ih =>
    intro e h
    rw [igetLoop] at h
    split at h
    · cases h
    · next hi =>
      obtain ⟨he, hall⟩ := ih h
      split at he
      · cases he
      · next hc => exact ⟨he, List.forall_mem_cons.mpr ⟨⟨hi, fun h0 => hc ⟨he, h0⟩⟩, hall⟩⟩

/-- **What `iget` does**: it adds a reference to the entry in use for the inode,
or, when no entry is, sets up an empty one. -/
theorem iget_spec {c' : Slot → Inode Pid D} (h : iget c dev inum = some (i, c')) :
    ((c i).Is dev inum ∧ c' = update c i { c i with ref := (c i).ref + 1 }) ∨
    ((c i).ref = 0 ∧ (∀ j, ¬(c j).Is dev inum) ∧ c' = update c i
      { c i with dev := dev, inum := inum, ref := 1, valid := false }) := by
  unfold iget at h
  split at h
  · rename_i j hj
    obtain ⟨rfl, rfl⟩ := Prod.mk.inj (Option.some.inj h)
    exact .inl ⟨igetLoop_hit hj, rfl⟩
  · rename_i j hj
    obtain ⟨rfl, rfl⟩ := Prod.mk.inj (Option.some.inj h)
    obtain ⟨h0, hall⟩ := igetLoop_empty (fun _ he => absurd he (by simp)) hj
    exact .inr ⟨h0, fun k => hall k (List.mem_finRange k), rfl⟩
  · simp at h

end Xv6
