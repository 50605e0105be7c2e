import Xv6.Fs.Call

/-!
# The inode cache

The file system with its inode cache simulates the one without
(`Xv6.Fs.simulates_view`): an entry in use has the inode number, the references and
the lock it should have, and if it has been read, its copy is the inode. An inode
whose copy has been changed is in the cache until `iupdate` has written it, and
everything else is the same in both.
-/

namespace Xv6.Fs

open Lib Function View

variable {Pid : Type}

/-- What an entry of the inode cache is to one without a copy. -/
def Copies (disk : UInt32 → Fields) (ip : Inode Pid Fields) : Option (Entry Pid) → Prop
  | none => ip.ref = 0 ∧ ip.lock = none
  | some e => 1 ≤ e.ref ∧ ip = ⟨ROOTDEV, e.inum, e.ref, e.lock, e.valid, ip.d⟩ ∧
    (e.valid = true → ip.d = disk e.inum)

/-- **What the inode cache is to the inodes.** -/
structure Rel (s : State Pid) (a : View Pid) : Prop where
  slot : ∀ i, Copies a.disk (s.inode i) (a.inode i)
  uniq : ∀ i j e e', a.inode i = some e → a.inode j = some e' → e.inum = e'.inum → i = j
  disk : ∀ t, a.dirty t = false → s.disk t = a.disk t
  cached : ∀ t, a.dirty t = true → ∃ i e, a.inode i = some e ∧ e.inum = t ∧ e.valid = true
  data : s.data = a.data
  ninodes : s.ninodes = a.ninodes
  tables : s.tables = a.tables
  outstanding : s.outstanding = a.outstanding
  cons : s.cons = a.cons

section Entries

variable {s : State Pid} {a : View Pid} {i : Slot} {e : Entry Pid} {t : UInt32}

theorem View.putDisk_disk (a : View Pid) (t : UInt32) (d : Fields) : (a.putDisk t d).disk t = d :=
  update_self ..

theorem View.putDisk_disk_of_ne {u : UInt32} {d : Fields} (h : u ≠ t) :
    (a.putDisk t d).disk u = a.disk u := update_of_ne h ..

theorem View.mark_dirty (a : View Pid) (t : UInt32) (b : Bool) : (a.mark t b).dirty t = b :=
  update_self ..

theorem View.mark_dirty_of_ne {u : UInt32} {b : Bool} (h : u ≠ t) :
    (a.mark t b).dirty u = a.dirty u := update_of_ne h ..

variable (h : Rel s a)
include h

theorem Rel.empty (i : Slot) (hi : a.inode i = none) :
    (s.inode i).ref = 0 ∧ (s.inode i).lock = none := by
  have hslot := h.slot i
  rwa [hi] at hslot

theorem Rel.used (hi : a.inode i = some e) : Copies a.disk (s.inode i) (some e) := hi ▸ h.slot i

theorem Rel.one_le_ref (i : Slot) (e : Entry Pid) (hi : a.inode i = some e) : 1 ≤ e.ref :=
  (h.used hi).1

theorem Rel.entry (hi : a.inode i = some e) :
    s.inode i = ⟨ROOTDEV, e.inum, e.ref, e.lock, e.valid, (s.inode i).d⟩ := (h.used hi).2.1

theorem Rel.copy (i : Slot) (e : Entry Pid) (hi : a.inode i = some e) (hv : e.valid = true) :
    (s.inode i).d = a.disk e.inum := (h.used hi).2.2 hv

/-- One entry is changed. -/
theorem Rel.set {ip : Inode Pid Fields} {x : Option (Entry Pid)} (hx : Copies a.disk ip x)
    (huniq : ∀ e j e', x = some e → j ≠ i → a.inode j = some e' → e'.inum ≠ e.inum)
    (hcached : ∀ e, a.inode i = some e → e.valid = true → a.dirty e.inum = true →
      ∃ e', x = some e' ∧ e'.inum = e.inum ∧ e'.valid = true) :
    Rel (s.set i ip) (a.set i x) := by
  refine ⟨fun j => ?_, fun j k e₁ e₂ h₁ h₂ hinum => ?_, h.disk, fun t ht => ?_, h.data, h.ninodes,
    h.tables, h.outstanding, h.cons⟩
  · change Copies a.disk (update s.inode i ip j) (update a.inode i x j)
    by_cases hji : j = i
    · subst hji
      rwa [update_self, update_self]
    · rw [update_of_ne hji, update_of_ne hji]
      exact h.slot j
  · by_cases hji : j = i
    · subst hji
      rw [set_inode] at h₁
      by_contra hkj
      rw [set_inode_of_ne (Ne.symm hkj)] at h₂
      exact huniq e₁ k e₂ h₁ (Ne.symm hkj) h₂ hinum.symm
    · rw [set_inode_of_ne hji] at h₁
      by_cases hki : k = i
      · subst hki
        rw [set_inode] at h₂
        exact absurd hinum (huniq e₂ j e₁ h₂ hji h₁)
      · rw [set_inode_of_ne hki] at h₂
        exact h.uniq j k e₁ e₂ h₁ h₂ hinum
  · obtain ⟨j, e', hj, rfl, hv⟩ := h.cached t ht
    by_cases hji : j = i
    · subst hji
      obtain ⟨e₂, hx, hinum, hv₂⟩ := hcached e' hj hv ht
      exact ⟨j, e₂, (set_inode ..).trans hx, hinum, hv₂⟩
    · exact ⟨j, e', (set_inode_of_ne hji).trans hj, rfl, hv⟩

/-- An entry in use is changed and stays in use for its inode. -/
theorem Rel.set_entry (hi : a.inode i = some e) {ip : Inode Pid Fields}
    {e' : Entry Pid} (hinum : e'.inum = e.inum) (href : 1 ≤ e'.ref)
    (hip : ip = ⟨ROOTDEV, e'.inum, e'.ref, e'.lock, e'.valid, ip.d⟩)
    (hcopy : e'.valid = true → ip.d = a.disk e.inum)
    (hv : e'.valid = false → a.dirty e.inum = true → e.valid = false) :
    Rel (s.set i ip) (a.set i (some e')) := by
  refine h.set ⟨href, hip, hinum ▸ hcopy⟩ (fun e₁ j e₂ h₁ hj h₂ hc => ?_)
    fun e₁ h₁ hv₁ hd => ⟨e', rfl, ?_, ?_⟩
  · obtain rfl := Option.some.inj h₁
    exact hj (h.uniq j i e₂ e h₂ hi (hc.trans hinum))
  · rw [hinum, Option.some.inj (hi.symm.trans h₁)]
  · obtain rfl := Option.some.inj (hi.symm.trans h₁)
    by_contra hf
    have := hv (Bool.not_eq_true _ ▸ hf) hd
    rw [hv₁] at this
    cases this

/-- An inode whose copy is current has been changed on the disk or in memory. -/
theorem Rel.putDisk (hi : a.inode i = some e) (hv : e.valid = true) {d : Fields}
    {s' : State Pid} {dirty : Bool} (hinode : s'.inode = (s.setFields i d).inode)
    (hdisk : ∀ t, t ≠ e.inum → s'.disk t = s.disk t) (hself : dirty = false → s'.disk e.inum = d)
    (hdata : s'.data = s.data) (hninodes : s'.ninodes = s.ninodes)
    (htables : s'.tables = s.tables) (hout : s'.outstanding = s.outstanding)
    (hcons : s'.cons = s.cons) : Rel s' ((a.putDisk e.inum d).mark e.inum dirty) := by
  have hs : ∀ j, j ≠ i → s'.inode j = s.inode j := fun j hj => by
    rw [hinode]
    exact update_of_ne hj ..
  have hsi : s'.inode i = { s.inode i with d := d } := by
    rw [hinode]
    exact update_self ..
  refine ⟨fun j => ?_, h.uniq, fun t ht => ?_, fun t ht => ?_, hdata.trans h.data, hninodes.trans h.ninodes, htables.trans h.tables,
    hout.trans h.outstanding, hcons.trans h.cons⟩
  · change Copies _ _ (a.inode j)
    by_cases hji : j = i
    · subst hji
      rw [hi, hsi]
      refine ⟨h.one_le_ref j e hi, ?_, fun _ => (putDisk_disk a e.inum d).symm⟩
      rw [h.entry hi]
    · rw [hs j hji]
      cases hj : a.inode j with
      | none => exact h.empty j hj
      | some e' =>
        have hne : e'.inum ≠ e.inum := fun hc => hji (h.uniq j i e' e hj hi hc)
        exact ⟨h.one_le_ref j e' hj, h.entry hj, fun hv' =>
          (h.copy j e' hj hv').trans (putDisk_disk_of_ne hne).symm⟩
  · by_cases hte : t = e.inum
    · subst hte
      have hfalse : dirty = false := (mark_dirty (a.putDisk e.inum d) e.inum dirty).symm.trans ht
      exact (hself hfalse).trans (putDisk_disk a e.inum d).symm
    · have ht' : a.dirty t = false :=
        (mark_dirty_of_ne (a := a.putDisk e.inum d) (b := dirty) hte).symm.trans ht
      exact (hdisk t hte).trans ((h.disk t ht').trans (putDisk_disk_of_ne hte).symm)
  · by_cases hte : t = e.inum
    · exact ⟨i, e, hi, hte.symm, hv⟩
    · have ht' : a.dirty t = true :=
        (mark_dirty_of_ne (a := a.putDisk e.inum d) (b := dirty) hte).symm.trans ht
      exact h.cached t ht'

/-- A field of a copy is changed. -/
theorem Rel.setFields (hi : a.inode i = some e) (hv : e.valid = true)
    (g : Fields → Fields) : Rel (s.setFields i (g (s.inode i).d))
      ((a.putDisk e.inum (g (a.disk e.inum))).mark e.inum true) := by
  rw [h.copy i e hi hv]
  exact h.putDisk hi hv rfl (fun _ _ => rfl) nofun rfl rfl rfl rfl rfl

omit h

theorem View.putDisk_self (a : View Pid) (t : UInt32) : a.putDisk t (a.disk t) = a := by
  rw [View.putDisk, update_eq_self]

theorem Rel.setFields_self (h : Rel s a) (hi : a.inode i = some e) (hv : e.valid = true) :
    (s.setFields i (a.disk e.inum)).inode = s.inode := by
  rw [← h.copy i e hi hv]
  exact update_eq_self ..

/-! ### `iget` -/

/-- What the loop of `iget` looks at. -/
theorem igetLoop_congr {D D' : Type} {c : Slot → Inode Pid D} {c' : Slot → Inode Pid D'}
    {dev inum : UInt32} (his : ∀ i, (c i).Is dev inum ↔ (c' i).Is dev inum)
    (href : ∀ i, (c i).ref = 0 ↔ (c' i).ref = 0) :
    ∀ (is : List Slot) (empty : Option Slot),
      igetLoop c dev inum is empty = igetLoop c' dev inum is empty := by
  intro is
  induction is with
  | nil => intro empty; cases empty <;> rfl
  | cons i is ih =>
    intro empty
    rw [igetLoop, igetLoop, ih]
    simp only [his i, href i]

include h

theorem Rel.is_iff (i : Slot) :
    (s.inode i).Is ROOTDEV t ↔ (Entry.toInode (a.inode i)).Is ROOTDEV t := by
  cases hi : a.inode i with
  | none =>
    refine iff_of_false (fun hc => ?_) fun hc => lt_irrefl 0 hc.1
    have := hc.1
    rw [(h.empty i hi).1] at this
    exact lt_irrefl 0 this
  | some e =>
    rw [h.entry hi]
    exact Iff.rfl

theorem Rel.ref_iff (i : Slot) :
    (s.inode i).ref = 0 ↔ (Entry.toInode (a.inode i)).ref = 0 := by
  cases hi : a.inode i with
  | none => exact iff_of_true (h.empty i hi).1 rfl
  | some e =>
    rw [h.entry hi]
    exact Iff.rfl

/-- **`iget`** finds the same entry. -/
theorem Rel.iget (t : UInt32) :
    Matched Rel (fun _ => False) (s.iget ROOTDEV t) (a.iget t) := by
  have hloop := igetLoop_congr (fun i => h.is_iff (t := t) i) h.ref_iff (List.finRange NINODE) none
  unfold State.iget Xv6.iget View.iget
  rw [← hloop]
  cases hfound : igetLoop s.inode ROOTDEV t (List.finRange NINODE) none with
  | hit i =>
    have his := (h.is_iff i).mp (igetLoop_hit hfound)
    refine .ok rfl ?_
    cases hi : a.inode i with
    | none =>
      rw [hi] at his
      exact absurd his.1 (lt_irrefl 0)
    | some e =>
      have hpos := h.one_le_ref i e hi
      have hgrab : a.grab i t = a.set i (some { e with ref := e.ref + 1 }) := by
        rw [View.grab, hi]
      rw [hgrab]
      refine h.set_entry hi rfl (by simp only; omega) ?_ (h.copy i e hi) fun hf _ => hf
      rw [h.entry hi]
  | empty i =>
    obtain ⟨h0, hall⟩ := igetLoop_empty (fun _ he => absurd he (by simp)) hfound
    refine .ok rfl ?_
    have hi : a.inode i = none := by
      cases hi : a.inode i with
      | none => rfl
      | some e =>
        have hpos := h.one_le_ref i e hi
        rw [h.entry hi] at h0
        exact absurd h0 (ne_of_gt hpos)
    have hgrab : a.grab i t = a.set i (some ⟨t, 1, none, false⟩) := by
      rw [View.grab, hi]
    rw [hgrab]
    refine h.set ⟨le_rfl, by simp only [(h.empty i hi).2], nofun⟩ (fun e j e' he hj he' hinum => ?_)
      fun e he => absurd (hi.symm.trans he) (by simp)
    · obtain rfl := Option.some.inj he
      refine hall j (List.mem_finRange j) ((h.is_iff j).mpr ?_)
      rw [he']
      exact ⟨h.one_le_ref j e' he', rfl, hinum⟩
  | full => exact .panic rfl

/-! ### Operations on an entry -/

theorem Rel.decref (hi : a.inode i = some e) (hl : e.lock = none)
    (hd : a.dirty e.inum = false) :
    Rel (s.set i { s.inode i with ref := (s.inode i).ref - 1 })
      (a.set i (if e.ref = 1 then none else some { e with ref := e.ref - 1 })) := by
  have hpos := h.one_le_ref i e hi
  have hentry := h.entry hi
  split
  · rename_i href
    refine h.set ?_ nofun fun e' he' _ hd' => ?_
    · rw [hentry]
      exact ⟨by simp only [href]; rfl, hl⟩
    · obtain rfl := Option.some.inj (hi.symm.trans he')
      exact absurd (hd.symm.trans hd') (by decide)
  · rename_i href
    refine h.set_entry hi rfl (by simp only; omega) ?_ (h.copy i e hi) fun hf _ => hf
    rw [hentry]

theorem Rel.load (hi : a.inode i = some e) (hv : e.valid = false) :
    Rel (s.set i { s.inode i with d := s.disk (s.inode i).inum, valid := true })
      (a.set i (some { e with valid := true })) := by
  have hentry := h.entry hi
  have hclean : a.dirty e.inum = false := by
    by_contra hc
    obtain ⟨j, e', hj, hinum, hv'⟩ := h.cached e.inum (Bool.not_eq_false _ ▸ hc)
    obtain rfl := h.uniq j i e' e hj hi hinum
    rw [Option.some.inj (hj.symm.trans hi), hv] at hv'
    cases hv'
  refine h.set_entry hi rfl (h.one_le_ref i e hi) ?_ (fun _ => ?_) nofun
  · rw [hentry]
  · rw [hentry]
    exact h.disk e.inum hclean

omit h

theorem State.setFields_inode (s : State Pid) (i : Slot) (d : Fields) :
    (s.setFields i d).inode i = { s.inode i with d := d } := update_self ..

include h

theorem Rel.itrunc (hi : a.inode i = some e) (hv : e.valid = true) :
    Rel ((s.setFields i ((s.inode i).d.setSize 0)).iupdate i)
      ((a.putDisk e.inum ((a.disk e.inum).setSize 0)).mark e.inum false) := by
  have hinum : ((s.setFields i ((s.inode i).d.setSize 0)).inode i).inum = e.inum := by
    rw [State.setFields_inode, h.entry hi]
  have hd : ((s.setFields i ((s.inode i).d.setSize 0)).inode i).d = (a.disk e.inum).setSize 0 := by
    rw [State.setFields_inode, h.copy i e hi hv]
  refine h.putDisk hi hv ?_ (fun t ht => ?_) (fun _ => ?_) rfl rfl rfl rfl rfl
  · rw [← h.copy i e hi hv]
    rfl
  · rw [State.iupdate, hinum]
    exact update_of_ne ht ..
  · rw [State.iupdate, hinum, hd]
    exact update_self ..

theorem Rel.iupdate (hi : a.inode i = some e) (hv : e.valid = true) :
    Rel (s.iupdate i) (a.mark e.inum false) := by
  have hinum : (s.inode i).inum = e.inum := by rw [h.entry hi]
  have hrel : Rel (s.iupdate i) ((a.putDisk e.inum (a.disk e.inum)).mark e.inum false) := by
    refine h.putDisk hi hv (h.setFields_self hi hv).symm (fun t ht => ?_) (fun _ => ?_) rfl rfl rfl
      rfl rfl
    · rw [State.iupdate, hinum]
      exact update_of_ne ht ..
    · rw [State.iupdate, hinum, h.copy i e hi hv]
      exact update_self ..
  rwa [putDisk_self] at hrel

theorem Rel.putData (t : UInt32) (f : ℕ → UInt8) :
    Rel { s with data := update s.data t f } (a.putData t f) :=
  ⟨h.slot, h.uniq, h.disk, h.cached, by rw [h.data]; rfl, h.ninodes, h.tables,
    h.outstanding, h.cons⟩

theorem Rel.writei (hi : a.inode i = some e) (hv : e.valid = true) (off : UInt32)
    (src : Str) : (s.writei i off src).1 = (a.writei e.inum off src).1 ∧
      Rel (s.writei i off src).2 (a.writei e.inum off src).2 := by
  have hd := h.copy i e hi hv
  have hinum : (s.inode i).inum = e.inum := by rw [h.entry hi]
  unfold State.writei View.writei
  simp only [hd, hinum, h.data]
  split
  · refine ⟨rfl, ?_⟩
    have hput := h.putData e.inum (overwrite (a.data e.inum) off.toNat src)
    rw [h.data] at hput
    simp only
    split
    · refine hput.putDisk hi hv rfl (fun t ht => ?_) (fun _ => ?_) rfl rfl rfl rfl rfl
      · rw [State.iupdate, State.setFields, State.set]
        simp only [update_self, hinum]
        exact update_of_ne ht ..
      · rw [State.iupdate, State.setFields, State.set]
        simp only [update_self, hinum]
    · exact hput
  · exact ⟨rfl, h⟩

theorem Rel.ialloc (hd : a.dirty t = false) (d : Fields)
    (hno : ∀ i e, a.inode i = some e → e.inum ≠ t) :
    Rel { s with disk := update s.disk t d } (a.putDisk t d) := by
  refine ⟨fun j => ?_, h.uniq, fun u hu => ?_, h.cached, h.data, h.ninodes,
    h.tables, h.outstanding, h.cons⟩
  · change Copies _ _ (a.inode j)
    cases hj : a.inode j with
    | none => exact h.empty j hj
    | some e =>
      exact ⟨h.one_le_ref j e hj, h.entry hj, fun hv =>
        (h.copy j e hj hv).trans (putDisk_disk_of_ne (hno j e hj)).symm⟩
  · by_cases hut : u = t
    · subst hut
      exact (update_self ..).trans (putDisk_disk a u d).symm
    · exact (update_of_ne hut ..).trans
        ((h.disk u hu).trans (putDisk_disk_of_ne hut).symm)

/-! ### Everything but the inodes -/

theorem Rel.setOutstanding (n : ℤ) :
    Rel { s with outstanding := n } { a with outstanding := n } :=
  ⟨h.slot, h.uniq, h.disk, h.cached, h.data, h.ninodes, h.tables, rfl, h.cons⟩

theorem Rel.setCons (l : List (Option Str)) :
    Rel { s with cons := l } { a with cons := l } :=
  ⟨h.slot, h.uniq, h.disk, h.cached, h.data, h.ninodes, h.tables, h.outstanding,
    rfl⟩

/-- **The tables** are the same. -/
theorem Rel.onTables {α : Type} (F : Tables Pid → Effect (α × Tables Pid)) :
    Matched Rel (fun _ => False) ((F s.tables).map fun x => (x.1, { s with tables := x.2 }))
      ((F a.tables).map fun x => (x.1, { a with tables := x.2 })) := by
  rw [h.tables]
  cases F a.tables with
  | ok x =>
    exact .ok rfl ⟨h.slot, h.uniq, h.disk, h.cached, h.data, h.ninodes, rfl,
      h.outstanding, h.cons⟩
  | panic msg => exact .panic rfl
  | disabled => rfl

end Entries

/-! ### The simulation -/

variable [DecidableEq Pid]

/-- **The file system with an inode cache simulates the one without.** -/
theorem simulates_view : Simulates (@handle Pid _) View.handle Rel Needed fun _ => False := by
  intro o s a h hn
  have htables := h.onTables (Tables.handle o)
  cases o with
  | panic msg => exact .panic rfl
  | iget dev inum =>
    obtain ⟨rfl, -⟩ := hn
    exact h.iget inum
  | idup i =>
    obtain ⟨e, hi⟩ := hn
    have hpos := h.one_le_ref i e hi
    refine .ok (use_some hi _) (h.set_entry hi rfl (by simp only; omega) ?_ (h.copy i e hi)
      fun hf _ => hf)
    rw [h.entry hi]
  | ref i =>
    obtain ⟨e, hi⟩ := hn
    refine .ok ((use_some hi _).trans ?_) h
    rw [h.entry hi]
  | decref i =>
    obtain ⟨e, hi, hl, hd⟩ := hn
    exact .ok (use_some hi _) (h.decref hi hl hd)
  | acquiresleep p i =>
    obtain ⟨e, hi⟩ := hn
    have hlock : (s.inode i).lock = e.lock := by rw [h.entry hi]
    by_cases hl : e.lock = none
    · have hs : handle (.acquiresleep p i) s =
          .ok ((), s.set i { s.inode i with lock := some p }) := if_pos (hlock.trans hl)
      have ha : View.handle (.acquiresleep p i) a =
          .ok ((), a.set i (some { e with lock := some p })) := (use_some hi _).trans (if_pos hl)
      rw [hs]
      refine .ok ha (h.set_entry hi rfl (h.one_le_ref i e hi) ?_ (h.copy i e hi) fun hf _ => hf)
      rw [h.entry hi]
    · have hs : handle (.acquiresleep p i) s = .disabled := if_neg (by rw [hlock]; exact hl)
      rw [hs]
      exact (use_some hi _).trans (if_neg hl)
  | releasesleep i =>
    obtain ⟨e, hi⟩ := hn
    refine .ok (use_some hi _) (h.set_entry hi rfl (h.one_le_ref i e hi) ?_ (h.copy i e hi)
      fun hf _ => hf)
    rw [h.entry hi]
  | holdingsleep p i =>
    obtain ⟨e, hi⟩ := hn
    refine .ok ((use_some hi _).trans ?_) h
    rw [h.entry hi]
  | ids i =>
    obtain ⟨e, hi⟩ := hn
    refine .ok ((use_some hi _).trans ?_) h
    rw [h.entry hi]
  | valid i =>
    obtain ⟨e, hi⟩ := hn
    refine .ok ((use_some hi _).trans ?_) h
    rw [h.entry hi]
  | fields i =>
    obtain ⟨e, hi, hv⟩ := hn
    refine .ok ((use_some hi _).trans ?_) h
    rw [h.copy i e hi hv]
  | load i =>
    obtain ⟨e, hi, hv⟩ := hn
    exact .ok (use_some hi _) (h.load hi hv)
  | setType i type =>
    obtain ⟨e, hi, hv, -⟩ := hn
    exact .ok (use_some hi _) (h.setFields hi hv fun d => d.setType type)
  | setDev i major minor =>
    obtain ⟨e, hi, hv⟩ := hn
    exact .ok (use_some hi _) (h.setFields hi hv fun d => d.setDev major minor)
  | setNlink i nlink =>
    obtain ⟨e, hi, hv⟩ := hn
    exact .ok (use_some hi _) (h.setFields hi hv fun d => d.setNlink nlink)
  | invalidate i =>
    obtain ⟨e, hi, hd⟩ := hn
    refine .ok (use_some hi _) (h.set_entry hi rfl (h.one_le_ref i e hi) ?_ nofun fun _ hc => ?_)
    · rw [h.entry hi]
    · exact absurd (hd.symm.trans hc) (by decide)
  | iupdate i =>
    obtain ⟨e, hi, hv⟩ := hn
    exact .ok (use_some hi _) (h.iupdate hi hv)
  | itrunc i =>
    obtain ⟨e, hi, hv, -⟩ := hn
    exact .ok (use_some hi _) (h.itrunc hi hv)
  | readi i off n =>
    obtain ⟨e, hi, hv, -⟩ := hn
    refine .ok ((use_some hi _).trans ?_) h
    have hinum : (s.inode i).inum = e.inum := by rw [h.entry hi]
    rw [h.copy i e hi hv, hinum, h.data]
  | writei i off src =>
    obtain ⟨e, hi, hv, -⟩ := hn
    obtain ⟨hr, hrel⟩ := h.writei hi hv off src
    have ha : View.handle (.writei i off src) a =
        .ok ((s.writei i off src).1, (a.writei e.inum off src).2) := by
      rw [hr]
      exact use_some hi _
    exact Matched.ok ha hrel
  | ninodes =>
    refine .ok ?_ h
    rw [h.ninodes]
    rfl
  | ialloc inum type =>
    obtain ⟨-, hd, -, hno⟩ := hn
    have hdisk := h.disk inum hd
    by_cases hfree : (a.disk inum).type = 0
    · have hs : handle (.ialloc inum type) s =
          .ok (true, { s with disk := update s.disk inum ⟨type, 0, 0, 0, 0⟩ }) :=
        if_pos (by rw [hdisk]; exact hfree)
      rw [hs]
      exact .ok (if_pos hfree) (h.ialloc hd _ fun i e hi hc => hno i e hi (hc ▸ hfree))
    · have hs : handle (.ialloc inum type) s = .ok (false, s) :=
        if_neg (by rw [hdisk]; exact hfree)
      rw [hs]
      exact .ok (if_neg hfree) h
  | consoleread n =>
    cases hc : s.cons with
    | nil =>
      have hs : handle (.consoleread n) s = .disabled := by simp only [handle, hc]
      rw [hs]
      rw [h.cons] at hc
      simp only [View.handle, hc, Matched]
    | cons l ls =>
      have hs : handle (.consoleread n) s = .ok (l.map (·.take n.toNat), { s with cons := ls }) := by
        simp only [handle, hc]
      have ha : View.handle (.consoleread n) a =
          .ok (l.map (·.take n.toNat), { a with cons := ls }) := by
        rw [h.cons] at hc
        simp only [View.handle, hc]
      rw [hs]
      exact .ok ha (h.setCons ls)
  | beginOp =>
    simp only [handle, View.handle, h.outstanding]
    exact .ok rfl (h.setOutstanding _)
  | endOp =>
    simp only [handle, View.handle, h.outstanding]
    exact .ok rfl (h.setOutstanding _)
  | _ => exact htables

end Xv6.Fs
