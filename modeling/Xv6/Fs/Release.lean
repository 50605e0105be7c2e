import Xv6.Fs.Path

/-!
# Giving inodes back

What happens to an inode when a function that has used it calls `iput`, said about
the state without the reference that is given back: the inode is freed if it has no
links and nobody else refers to it, and otherwise nothing happens
(`Xv6.Fs.Released`).

The results of this file and the following ones are relative to conditions on the
operations that change the tree of the file system (`Xv6.Fs.Cond`): a system call
that has freed an inode, say, did so in a state in which the condition on freeing
inodes held.
-/

namespace Xv6.Fs

open Lib View

variable {Pid : Type}

/-- Conditions on the operations that change the tree of the file system. -/
structure Cond where
  /-- On freeing an inode, in terms of all inodes and their contents. -/
  free : (UInt32 → Fields) → (UInt32 → ℕ → UInt8) → UInt32 → Prop
  /-- On changing the number of links of an inode. -/
  nlink : Fields → Int16 → Prop
  /-- On writing to an inode. -/
  write : Fields → Str → Prop

/-- The condition as one on the operations. -/
def Cond.K (c : Cond) (a : View Pid) : Op Pid → Prop
  | .itrunc i => ∀ e, a.inode i = some e → c.free a.disk a.data e.inum
  | .setNlink i n => ∀ e, a.inode i = some e → c.nlink (a.disk e.inum) n
  | .writei i _ src => ∀ e, a.inode i = some e → c.write (a.disk e.inum) src
  | _ => True

namespace View

/-- Nobody refers to inode `t`. -/
def Unused (a : View Pid) (t : UInt32) : Prop := ∀ i e, a.inode i = some e → e.inum ≠ t

/-- Inode `t` has no links, and nobody refers to it. -/
def Orphan (a : View Pid) (t : UInt32) : Prop := (a.disk t).nlink = 0 ∧ a.Unused t

/-- Entry `i` is where inode `t` is, or may be put. -/
def Clean (a : View Pid) (i : Slot) (t : UInt32) : Prop :=
  a.inode i = none ∧ a.Unused t ∨ ∃ r, a.inode i = some ⟨t, r, none, true⟩ ∧ 1 ≤ r

/-- Change the number of links of an inode. -/
def relink (a : View Pid) (t : UInt32) (n : Int16) : View Pid :=
  a.putDisk t ((a.disk t).setNlink n)

end View

/-- **What becomes of an inode** to which a function has given back its reference. -/
def Released (c : Cond) (a : View Pid) (t : UInt32) (b : View Pid) : Prop :=
  a.Orphan t ∧ c.free a.disk a.data t ∧ b = a.free t ∨ ¬a.Orphan t ∧ b = a

section Rules

variable {c : Cond} {bad : String → Prop} {a b : View Pid} {i j : Slot} {p : Pid} {t u : UInt32}
  {l : Option Pid} {v : Bool}

theorem Settled.clean (h : Settled a) (hi : a.CanGrab i t) : a.Clean i t := by
  rcases hi with ⟨e, he, rfl⟩ | hnone
  · refine .inr ⟨e.ref, ?_, h.ref i e he⟩
    rw [he]
    exact congrArg some (h.entry he)
  · exact .inl hnone

theorem View.Clean.one_le_refs (h : a.Clean i t) : 1 ≤ a.refs i + 1 := by
  rcases h with ⟨hi, -⟩ | ⟨r, hi, hr⟩
  · rw [refs_none hi]
    omega
  · rw [refs_some hi]
    simp only
    omega

/-- The condition of `iput` for freeing the inode. -/
theorem View.Clean.last_iff (h : a.Clean i t) :
    (a.refTo i t l true).Last ⟨t, a.refs i + 1, l, true⟩ ↔ a.Orphan t := by
  constructor
  · rintro ⟨-, hn, hr⟩
    rcases h with ⟨-, hunused⟩ | ⟨r, hi, hpos⟩
    · exact ⟨hn, hunused⟩
    · rw [refs_some hi] at hr
      simp only at hr
      omega
  · rintro ⟨hn, hunused⟩
    rcases h with ⟨hi, -⟩ | ⟨r, hi, -⟩
    · exact ⟨rfl, hn, by rw [refs_none hi]; rfl⟩
    · exact absurd rfl (hunused i _ hi)

theorem View.Clean.drop (h : a.Clean i t) :
    (a.refTo i t l true).drop i ⟨t, a.refs i + 1, none, true⟩ = a := by
  have hspare : a.Spare i t true ∨ a.inode i = none := by
    rcases h with ⟨hi, -⟩ | hsome
    · exact .inr hi
    · exact .inl (.inr hsome)
  rcases hspare with hspare | hi
  · exact hspare.drop (fun _ => rfl) l
  · unfold View.drop View.refTo
    rw [set_set, refs_none hi, if_pos (by exact zero_add 1)]
    exact set_self hi

theorem View.Orphan.entry_none (ho : a.Orphan t) (h : a.Clean i t) : a.inode i = none := by
  rcases h with ⟨hi, -⟩ | ⟨r, hi, -⟩
  · exact hi
  · exact absurd rfl (ho.2 i _ hi)

theorem View.Orphan.free_set (ho : a.Orphan t) (h : a.Clean i t) :
    ((a.refTo i t l true).free t).set i none = a.free t := by
  unfold View.refTo
  change ((a.free t).set i _).set i none = a.free t
  rw [set_set]
  exact set_self (ho.entry_none h)

/-! ### Two references -/

theorem View.refTo_comm (h : i ≠ j) (l l' : Option Pid) (v v' : Bool) :
    (a.refTo i t l v).refTo j u l' v' = (a.refTo j u l' v').refTo i t l v := by
  have h1 : (a.refTo i t l v).refs j = a.refs j := by
    unfold View.refs
    rw [refTo_inode_of_ne h.symm]
  have h2 : (a.refTo j u l' v').refs i = a.refs i := by
    unfold View.refs
    rw [refTo_inode_of_ne h]
  rw [View.refTo.eq_1 (a.refTo i t l v), View.refTo.eq_1 (a.refTo j u l' v'), h1, h2]
  simp only [View.refTo, View.set, Function.update_comm h]

theorem View.unused_refTo (hj : a.Clean j u) (hut : u ≠ t) :
    (a.refTo j u l v).Unused t ↔ a.Unused t := by
  constructor
  · intro h i e hi
    by_cases hij : i = j
    · subst hij
      rcases hj with ⟨hnone, -⟩ | ⟨r, hr, -⟩
      · rw [hi] at hnone
        cases hnone
      · rw [hi] at hr
        rwa [Option.some.inj hr]
    · exact h i e (by rw [refTo_inode_of_ne hij]; exact hi)
  · intro h i e hi
    rcases refTo_cases hi with ⟨-, rfl⟩ | ⟨-, hi⟩
    · exact hut
    · exact h i e hi

theorem View.Clean.refTo (hi : a.Clean i t) (hj : a.Clean j u) (hij : i ≠ j) (hut : u ≠ t) :
    (a.refTo j u l v).Clean i t := by
  unfold View.Clean
  rwa [refTo_inode_of_ne hij, unused_refTo hj hut]

/-- Another reference has nothing to do with it. -/
theorem Released.of_refTo (hj : a.Clean j u) (hut : u ≠ t) (h : Released c (a.refTo j u l v) t b) :
    ∃ b', Released c a t b' ∧ b = b'.refTo j u l v := by
  have horphan : (a.refTo j u l v).Orphan t ↔ a.Orphan t :=
    and_congr_right fun _ => unused_refTo hj hut
  rcases h with ⟨ho, hc, rfl⟩ | ⟨ho, rfl⟩
  · exact ⟨a.free t, .inl ⟨horphan.mp ho, hc, rfl⟩, rfl⟩
  · exact ⟨a, .inr ⟨fun hc => ho (horphan.mpr hc), rfl⟩, rfl⟩

/-- The state of a function that has locked a directory `d` and an inode `t`. -/
def View.pair (a : View Pid) (p : Pid) (dp : Slot) (d : UInt32) (ip : Slot) (t : UInt32) :
    View Pid := (a.refTo dp d (some p) true).refTo ip t (some p) true

theorem View.pair_fst (h : i ≠ j) :
    (a.pair p i t j u).inode i = some ⟨t, a.refs i + 1, some p, true⟩ := by
  rw [View.pair, refTo_inode_of_ne h, refTo_inode]

theorem View.pair_snd (h : i ≠ j) :
    (a.pair p i t j u).inode j = some ⟨u, a.refs j + 1, some p, true⟩ := by
  rw [View.pair, refTo_comm h, refTo_inode_of_ne h.symm, refTo_inode]

theorem View.pair_of_ne {k : Slot} (hi : k ≠ i) (hj : k ≠ j) :
    (a.pair p i t j u).inode k = a.inode k := by
  rw [View.pair, refTo_inode_of_ne hj, refTo_inode_of_ne hi]

theorem View.one_le_ref_pair (hij : i ≠ j) (h : ∀ i e, a.inode i = some e → 1 ≤ e.ref)
    (hi : a.Clean i t) (hj : a.Clean j u) :
    ∀ k e, (a.pair p i t j u).inode k = some e → 1 ≤ e.ref := by
  intro k e hk
  by_cases hki : k = i
  · subst hki
    rw [pair_fst hij] at hk
    exact Option.some.inj hk ▸ hi.one_le_refs
  · by_cases hkj : k = j
    · subst hkj
      rw [pair_snd hij] at hk
      exact Option.some.inj hk ▸ hj.one_le_refs
    · rw [pair_of_ne hki hkj] at hk
      exact h k e hk

variable [DecidableEq Pid] {Q : Unit → View Pid → Prop}

/-- **`iput`**. -/
theorem wp_iput_release (h : a.Clean i t) (hd : a.dirty t = false) (hty : (a.disk t).type ≠ 0)
    (hQ : ∀ b, Released c a t b → Q () b) :
    (logic c.K bad).wp (iput p i) Q (a.refTo i t none true) := by
  refine wp_iput (a.refTo_inode i t none true) (.inr rfl) hd (fun _ => hty) (fun _ hlast hK => ?_)
    fun _ hlast => ?_
  · have ho := h.last_iff.mp hlast
    rw [ho.free_set h]
    exact hQ _ (.inl ⟨ho, hK _ (set_inode ..), rfl⟩)
  · rw [h.drop]
    exact hQ _ (.inr ⟨fun ho => hlast (h.last_iff.mpr ho), rfl⟩)

/-- **`iunlockput`**. -/
theorem wp_iunlockput_release (h : a.Clean i t) (hd : a.dirty t = false)
    (hty : (a.disk t).type ≠ 0) (hQ : ∀ b, Released c a t b → Q () b) :
    (logic c.K bad).wp (iunlockput p i) Q (a.refTo i t (some p) true) := by
  refine wp_iunlockput (a.refTo_inode i t (some p) true) h.one_le_refs rfl hd (fun _ => hty)
    (fun hlast hK => ?_) fun hlast => ?_
  · have ho := h.last_iff.mp hlast
    rw [ho.free_set h]
    exact hQ _ (.inl ⟨ho, hK _ (refTo_inode ..), rfl⟩)
  · rw [h.drop]
    exact hQ _ (.inr ⟨fun ho => hlast (h.last_iff.mpr ho), rfl⟩)

/-- `iunlockput` of the first of two inodes that are locked. -/
theorem wp_iunlockput_fst (hij : i ≠ j) (hut : u ≠ t) (hi : a.Clean i t) (hj : a.Clean j u)
    (hd : a.dirty t = false) (hty : (a.disk t).type ≠ 0)
    (hQ : ∀ b, Released c a t b → Q () (b.refTo j u (some p) true)) :
    (logic c.K bad).wp (iunlockput p i) Q (a.pair p i t j u) := by
  rw [View.pair, refTo_comm hij]
  refine wp_iunlockput_release (hi.refTo hj hij hut) hd hty fun b hb => ?_
  obtain ⟨b', hb', rfl⟩ := hb.of_refTo hj hut
  exact hQ b' hb'

end Rules

end Xv6.Fs
