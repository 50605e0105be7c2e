import Xv6.Fs.View

/-!
# Rules for the functions on inodes

Weakest preconditions over the abstract machine of `Xv6.Fs.View`, for the
operations and for the functions `ilock`, `iunlock` and `iput`. Each rule says what
has to hold of the entry of the inode, and in which state the function ends.
-/

namespace Xv6.Fs

open Lib Function View

variable {Pid : Type}

/-- **How the operations are to be performed**: on inodes that the process has a
reference to, on their fields when they have been read, and so that no inode that
is changed in memory only is forgotten. -/
def Needed (a : View Pid) : Op Pid → Prop
  | .iget dev inum => dev = ROOTDEV ∧ inum < a.ninodes
  | .idup i | .ref i | .acquiresleep _ i | .releasesleep i | .holdingsleep _ i | .ids i
  | .valid i => ∃ e, a.inode i = some e
  | .load i => ∃ e, a.inode i = some e ∧ e.valid = false
  | .decref i => ∃ e, a.inode i = some e ∧ e.lock = none ∧ a.dirty e.inum = false
  | .fields i | .setDev i _ _ | .setNlink i _ | .iupdate i =>
    ∃ e, a.inode i = some e ∧ e.valid = true
  | .itrunc i => ∃ e, a.inode i = some e ∧ e.valid = true ∧ (a.disk e.inum).type ≠ 0
  | .setType i type => ∃ e, a.inode i = some e ∧ e.valid = true ∧ type = 0 ∧
      (a.disk e.inum).size = 0
  | .invalidate i => ∃ e, a.inode i = some e ∧ a.dirty e.inum = false
  | .readi i _ _ | .writei i _ _ => ∃ e, a.inode i = some e ∧ e.valid = true ∧
      (a.disk e.inum).type ≠ 0 ∧ (a.disk e.inum).type ≠ T_DEV
  | .ialloc inum type => inum < a.ninodes ∧ a.dirty inum = false ∧ type ≠ 0 ∧
      ∀ i e, a.inode i = some e → (a.disk e.inum).type ≠ 0
  | _ => True

variable [DecidableEq Pid]

/-- The logic of the abstract machine, with a condition `K` on the operations, the messages
that must not stop it, and whether a program may have to wait. -/
def logicOf (K : View Pid → Op Pid → Prop) (bad : String → Prop) (W : Prop) :
    Logic (@Op.Res Pid) (View Pid) := ⟨View.handle, K, Needed, bad, W⟩

/-- The logic of programs that may. -/
abbrev logic (K : View Pid → Op Pid → Prop) (bad : String → Prop) := logicOf K bad True

section Rules

variable {K : View Pid → Op Pid → Prop} {bad : String → Prop} {W : Prop} {α : Type} {a : View Pid} {i : Slot}
  {e : Entry Pid} {p : Pid} {Q : Unit → View Pid → Prop}

theorem wp_panic {Q : α → View Pid → Prop} {msg : String} (h : ¬bad msg) :
    (logicOf K bad W).wp (panic msg) Q a := fun _ => ⟨trivial, h⟩

theorem wp_panicIf {c : Prop} [Decidable c] {msg : String} (hbad : c → ¬bad msg)
    (hQ : ¬c → Q () a) : (logicOf K bad W).wp (panicIf c msg) Q a := by
  unfold panicIf
  split
  · exact wp_panic (hbad ‹_›)
  · exact hQ ‹_›

/-- The rule of an operation that is possible. -/
theorem wp_op {o : Op Pid} {Q : o.Res → View Pid → Prop} {r : o.Res} {b : View Pid}
    (hn : Needed a o) (ho : View.handle o a = .ok (r, b)) (hQ : K a o → Q r b) :
    (logicOf K bad W).wp o.perform Q a := fun hK => ⟨hn, by
  change (logicOf K bad W).Outcome _ (View.handle o a)
  rw [ho]
  exact hQ hK⟩

omit [DecidableEq Pid] in
theorem use_some {β : Type} (h : a.inode i = some e) (f : Entry Pid → Effect (β × View Pid)) :
    a.use i f = f e := by rw [View.use, h]

/-- The working directory of a process. -/
theorem wp_cwd {Q : Slot → View Pid → Prop} (hw : W ∨ (a.proc p).cwd ≠ none)
    (hQ : ∀ j, (a.proc p).cwd = some j → Q j a) : (logicOf K bad W).wp (Op.cwd p).perform Q a := by
  refine fun _ => ⟨trivial, ?_⟩
  change (logicOf K bad W).Outcome _ ((Tables.handle (.cwd p) a.tables).map _)
  cases hc : (a.proc p).cwd with
  | none =>
    simp only [Tables.handle, hc]
    exact hw.resolve_right (not_not_intro hc)
  | some j =>
    simp only [Tables.handle, hc]
    exact hQ j hc

theorem wp_ref {Q : ℤ → View Pid → Prop} (h : a.inode i = some e) (hQ : Q e.ref a) :
    (logicOf K bad W).wp (Op.ref i).perform Q a :=
  wp_op (o := .ref i) ⟨e, h⟩ (use_some h _) fun _ => hQ

theorem wp_valid {Q : Bool → View Pid → Prop} (h : a.inode i = some e) (hQ : Q e.valid a) :
    (logicOf K bad W).wp (Op.valid i).perform Q a :=
  wp_op (o := .valid i) ⟨e, h⟩ (use_some h _) fun _ => hQ

theorem wp_ids {Q : UInt32 × UInt32 → View Pid → Prop} (h : a.inode i = some e)
    (hQ : Q (ROOTDEV, e.inum) a) : (logicOf K bad W).wp (Op.ids i).perform Q a :=
  wp_op (o := .ids i) ⟨e, h⟩ (use_some h _) fun _ => hQ

theorem wp_fields {Q : Fields → View Pid → Prop} (h : a.inode i = some e) (hv : e.valid = true)
    (hQ : Q (a.disk e.inum) a) : (logicOf K bad W).wp (Op.fields i).perform Q a :=
  wp_op (o := .fields i) ⟨e, h, hv⟩ (use_some h _) fun _ => hQ

variable (h : a.inode i = some e)
include h

theorem wp_idup (hQ : Q () (a.set i (some { e with ref := e.ref + 1 }))) :
    (logicOf K bad W).wp (Op.idup i).perform Q a :=
  wp_op (o := .idup i) ⟨e, h⟩ (use_some h _) fun _ => hQ

theorem wp_decref (hl : e.lock = none) (hd : a.dirty e.inum = false)
    (hQ : Q () (a.set i (if e.ref = 1 then none else some { e with ref := e.ref - 1 }))) :
    (logicOf K bad W).wp (Op.decref i).perform Q a :=
  wp_op (o := .decref i) ⟨e, h, hl, hd⟩ (use_some h _) fun _ => hQ

/-- Taking a sleep-lock: nothing is to be shown when somebody has it and the process may
wait. -/
theorem wp_acquiresleep (hw : W ∨ e.lock = none)
    (hQ : e.lock = none → Q () (a.set i (some { e with lock := some p }))) :
    (logicOf K bad W).wp (Op.acquiresleep p i).perform Q a := by
  refine fun _ => ⟨⟨e, h⟩, ?_⟩
  change (logicOf K bad W).Outcome _ (a.use i _)
  rw [use_some h]
  split
  · exact hQ ‹_›
  · exact hw.resolve_right ‹_›

theorem wp_releasesleep
    (hQ : Q () (a.set i (some { e with lock := none }))) :
    (logicOf K bad W).wp (Op.releasesleep i).perform Q a :=
  wp_op (o := .releasesleep i) ⟨e, h⟩ (use_some h _) fun _ => hQ

omit h

theorem wp_holdingsleep {Q : Bool → View Pid → Prop} (h : a.inode i = some e)
    (hQ : Q (decide (e.lock = some p)) a) : (logicOf K bad W).wp (Op.holdingsleep p i).perform Q a :=
  wp_op (o := .holdingsleep p i) ⟨e, h⟩ (use_some h _) fun _ => hQ

theorem wp_load (h : a.inode i = some e) (hv : e.valid = false)
    (hQ : Q () (a.set i (some { e with valid := true }))) :
    (logicOf K bad W).wp (Op.load i).perform Q a :=
  wp_op (o := .load i) ⟨e, h, hv⟩ (use_some h _) fun _ => hQ

/-! ### Locks -/

section

omit [DecidableEq Pid]

@[simp] theorem View.set_inode (a : View Pid) (i : Slot) (e : Option (Entry Pid)) :
    (a.set i e).inode i = e := update_self ..

theorem View.set_inode_of_ne {j : Slot} {e : Option (Entry Pid)} (h : j ≠ i) :
    (a.set i e).inode j = a.inode j := update_of_ne h ..

@[simp] theorem View.set_set (a : View Pid) (i : Slot) (e e' : Option (Entry Pid)) :
    (a.set i e).set i e' = a.set i e' := by
  simp [View.set]

end

/-- **`ilock`**, which needs the inode to be allocated unless it has been read
before. -/
theorem wp_ilock (h : a.inode i = some e) (href : 1 ≤ e.ref) (hw : W ∨ e.lock = none)
    (hbad : e.valid = false → (a.disk e.inum).type = 0 → ¬bad "ilock: no type")
    (hQ : e.lock = none → (e.valid = false → (a.disk e.inum).type ≠ 0) →
      Q () (a.set i (some { e with lock := some p, valid := true }))) :
    (logicOf K bad W).wp (ilock p i) Q a := by
  unfold ilock
  refine .bind (wp_ref h ?_)
  refine .bind (wp_panicIf (fun hr => absurd hr (by omega)) fun _ => ?_)
  refine .bind (wp_acquiresleep h hw fun hl => ?_)
  have h1 := a.set_inode i (some { e with lock := some p })
  unfold iload
  refine .bind (wp_valid h1 ?_)
  split
  · rename_i hv
    have he : e = { e with valid := true } := by
      cases e
      simp_all
    refine Logic.wp_pure.mpr ?_
    rw [he]
    exact hQ hl fun hv' => absurd hv (by simp [hv'])
  · rename_i hv
    have hv : e.valid = false := by simpa using hv
    refine .bind (wp_load h1 hv ?_)
    have h2 := (a.set i (some { e with lock := some p })).set_inode i
      (some { e with lock := some p, valid := true })
    refine .bind (wp_fields h2 rfl ?_)
    refine wp_panicIf (hbad hv) fun ht => ?_
    rw [set_set]
    exact hQ hl fun _ => ht

theorem wp_iunlock (h : a.inode i = some e) (href : 1 ≤ e.ref) (hl : e.lock = some p)
    (hQ : Q () (a.set i (some { e with lock := none }))) :
    (logicOf K bad W).wp (iunlock p i) Q a := by
  unfold iunlock
  refine .bind (wp_holdingsleep h ?_)
  refine .bind (wp_panicIf (fun hf => absurd hf (by simp [hl])) fun _ => ?_)
  refine .bind (wp_ref h ?_)
  refine .bind (wp_panicIf (fun hr => absurd hr (by omega)) fun _ => ?_)
  exact wp_releasesleep h hQ

/-! ### Changing an inode -/

/-- The inode is no longer allocated. -/
def View.free (a : View Pid) (t : UInt32) : View Pid :=
  a.putDisk t (((a.disk t).setSize 0).setType 0)

/-- Two operations that change an inode in memory and then on the disk. -/
theorem wp_setNlink (h : a.inode i = some e) (hv : e.valid = true) {n : Int16}
    (hQ : K a (.setNlink i n) →
      Q () ((a.putDisk e.inum ((a.disk e.inum).setNlink n)).mark e.inum true)) :
    (logicOf K bad W).wp (Op.setNlink i n).perform Q a :=
  wp_op (o := .setNlink i n) ⟨e, h, hv⟩ (use_some h _) hQ

theorem wp_setDev (h : a.inode i = some e) (hv : e.valid = true) {x y : Int16}
    (hQ : Q () ((a.putDisk e.inum ((a.disk e.inum).setDev x y)).mark e.inum true)) :
    (logicOf K bad W).wp (Op.setDev i x y).perform Q a :=
  wp_op (o := .setDev i x y) ⟨e, h, hv⟩ (use_some h _) fun _ => hQ

theorem wp_iupdate (h : a.inode i = some e) (hv : e.valid = true)
    (hQ : Q () (a.mark e.inum false)) : (logicOf K bad W).wp (Op.iupdate i).perform Q a :=
  wp_op (o := .iupdate i) ⟨e, h, hv⟩ (use_some h _) fun _ => hQ

omit [DecidableEq Pid] in
theorem View.mark_mark (a : View Pid) (t : UInt32) (b c : Bool) :
    (a.mark t b).mark t c = a.mark t c := by
  simp [View.mark]

omit [DecidableEq Pid] in
theorem View.mark_self {t : UInt32} {b : Bool} (h : a.dirty t = b) :
    a.mark t b = a := by
  rw [View.mark, ← h, update_eq_self]

/-- `ip->nlink += k; iupdate(ip)`. -/
theorem wp_addNlink (h : a.inode i = some e) (hv : e.valid = true) (hd : a.dirty e.inum = false)
    {k : Int16}
    (hQ : K a (.setNlink i ((a.disk e.inum).nlink + k)) →
      Q () (a.putDisk e.inum ((a.disk e.inum).setNlink ((a.disk e.inum).nlink + k)))) :
    (logicOf K bad W).wp (addNlink i k) Q a := by
  unfold addNlink
  refine .bind (wp_fields h hv ?_)
  refine .bind (wp_setNlink h hv fun hK => ?_)
  refine wp_iupdate h hv ?_
  rw [mark_mark, mark_self (by exact hd)]
  exact hQ hK

/-- Freeing an inode. -/
theorem wp_ifree (h : a.inode i = some e) (hv : e.valid = true) (hty : (a.disk e.inum).type ≠ 0)
    (hd : a.dirty e.inum = false)
    (hQ : K a (.itrunc i) → Q () ((a.free e.inum).set i (some { e with valid := false }))) :
    (logicOf K bad W).wp (ifree i) Q a := by
  unfold ifree
  have htrunc : View.handle (.itrunc i) a = .ok ((), a.putDisk e.inum
      ((a.disk e.inum).setSize 0)) := by
    refine (use_some h _).trans ?_
    rw [mark_self (by exact hd)]
  refine .bind (wp_op (o := .itrunc i) ⟨e, h, hv, hty⟩ htrunc fun hK => ?_)
  have hsize : ((a.putDisk e.inum ((a.disk e.inum).setSize 0)).disk e.inum) =
      (a.disk e.inum).setSize 0 := update_self ..
  refine .bind (wp_op (o := .setType i 0)
    ⟨e, h, hv, rfl, by rw [hsize]; rfl⟩ (use_some h _) fun _ => ?_)
  refine .bind (wp_iupdate h hv ?_)
  rw [mark_mark, mark_self (by exact hd)]
  refine wp_op (o := .invalidate i) ⟨e, h, hd⟩ (use_some h _) fun _ => ?_
  have hfree : (a.putDisk e.inum ((a.disk e.inum).setSize 0)).putDisk e.inum
      (((a.putDisk e.inum ((a.disk e.inum).setSize 0)).disk e.inum).setType 0) =
      a.free e.inum := by
    rw [hsize]
    simp [View.putDisk, View.free]
  rw [hfree]
  exact hQ hK

/-! ### Giving a reference back -/

/-- One reference to entry `i` less. -/
def View.drop (a : View Pid) (i : Slot) (e : Entry Pid) : View Pid :=
  a.set i (if e.ref = 1 then none else some { e with ref := e.ref - 1 })

/-- The condition under which `iput` frees the inode. -/
def View.Last (a : View Pid) (e : Entry Pid) : Prop :=
  e.valid = true ∧ (a.disk e.inum).nlink = 0 ∧ e.ref = 1

/-- **`iput`**: it frees the inode, or gives the reference back. -/
theorem wp_iput (h : a.inode i = some e) (hw : W ∨ e.lock = none) (hd : a.dirty e.inum = false)
    (hty : a.Last e → (a.disk e.inum).type ≠ 0)
    (hfree : e.lock = none → a.Last e → K (a.set i (some { e with lock := some p })) (.itrunc i) →
      Q () ((a.free e.inum).set i none))
    (hdrop : e.lock = none → ¬a.Last e → Q () (a.drop i e)) :
    (logicOf K bad W).wp (iput p i) Q a := by
  unfold iput
  refine .bind (wp_acquiresleep h hw fun hl => ?_)
  have h1 := a.set_inode i (some { e with lock := some p })
  have hend : ¬a.Last e → (logicOf K bad W).wp (do
      (Op.releasesleep i).perform
      (Op.decref i).perform) Q (a.set i (some { e with lock := some p })) := by
    intro hlast
    refine .bind (wp_releasesleep h1 ?_)
    have h2 := (a.set i (some { e with lock := some p })).set_inode i
      (some { e with lock := none })
    refine wp_decref h2 rfl hd ?_
    have := hdrop hl hlast
    rw [set_set, set_set]
    rw [View.drop] at this
    convert this using 3
    cases e
    simp_all
  refine .bind ?_
  unfold iputFree
  refine .bind (wp_valid h1 ?_)
  split
  · rename_i hv
    refine .bind (wp_fields h1 hv ?_)
    split
    · rename_i hn
      refine .bind (wp_ref h1 ?_)
      split
      · rename_i hr
        refine wp_ifree h1 hv (hty ⟨hv, hn, hr⟩) hd fun hK => ?_
        rw [View.free, View.putDisk]
        refine .bind (wp_releasesleep (set_inode ..) ?_)
        refine wp_decref (set_inode ..) rfl hd ?_
        rw [if_pos hr, set_set, set_set]
        have := hfree hl ⟨hv, hn, hr⟩ hK
        convert this using 1
        simp [View.set, View.free, View.putDisk]
      · rename_i hr
        exact hend fun hlast => hr hlast.2.2
    · rename_i hn
      exact hend fun hlast => hn hlast.2.1
  · rename_i hv
    exact hend fun hlast => hv hlast.1

/-- `iunlockput`. -/
theorem wp_iunlockput (h : a.inode i = some e) (href : 1 ≤ e.ref) (hl : e.lock = some p)
    (hd : a.dirty e.inum = false) (hty : a.Last e → (a.disk e.inum).type ≠ 0)
    (hfree : a.Last e → K a (.itrunc i) → Q () ((a.free e.inum).set i none))
    (hdrop : ¬a.Last e → Q () (a.drop i { e with lock := none })) :
    (logicOf K bad W).wp (iunlockput p i) Q a := by
  unfold iunlockput
  refine .bind (wp_iunlock h href hl ?_)
  refine wp_iput (set_inode ..) (.inr rfl) hd hty (fun _ hlast hK => ?_) fun _ hlast => ?_
  · have hset : (a.set i (some { e with lock := none })).set i
        (some { e with lock := some p }) = a := by
      rw [set_set, ← hl]
      rw [← h, View.set, update_eq_self]
    rw [hset] at hK
    have := hfree hlast hK
    convert this using 1
    simp [View.set, View.free, View.putDisk]
  · have := hdrop hlast
    convert this using 1
    simp [View.drop, View.set]

end Rules

end Xv6.Fs
