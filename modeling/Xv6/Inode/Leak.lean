import Mathlib.Data.Fintype.Basic
import Xv6.Inode.Entry

/-!
# Dropping the last reference

`iput` frees an inode that has no links when it drops the last reference to it.
It decides under the sleep-lock, by reading `ref`, but it decrements `ref` only
after it has given the lock back, so two calls for the same inode may both read
two and both leave the inode alone: `Xv6.Inode.closeRace_leaks` is such a run.
The inode then has no name and no entry in the cache, and stays allocated.

This is the only way to lose one. If every `iput` that finds an inode without
links and reads a `ref` other than one has a reference left to count on that is
not in an `iput` past the same test (`Xv6.Inode.LeavesOther`), then no inode is
lost (`Xv6.Inode.noLeak_of_leavesOther`).
-/

namespace Xv6.Inode

open Lib Function

variable {Pid : Type} [DecidableEq Pid] {s t : St Pid} {i : Slot}

/-! ### The invariant -/

/-- **The invariant of the inode cache.** -/
structure Inv (s : St Pid) : Prop where
  slot : ∀ i, SlotInv s.pc i (s.inode i) (s.refs i) (s.waiting i) (s.loaded i)
    (s.disk (s.inode i).dev (s.inode i).inum)
  /-- No two entries are in use for the same inode. -/
  unique : ∀ i j dev inum, (s.inode i).Is dev inum → (s.inode j).Is dev inum → i = j

omit [DecidableEq Pid] in
theorem inv_init (disk : UInt32 → UInt32 → Dinode) : Inv (init disk : St Pid) where
  slot := fun i =>
    { holds := fun p hp => hp.elim
      waits := counts_zero fun p => by simp [init]
      count := counts_zero fun p hp => hp.elim
      refs_nonneg := le_refl 0
      refs_of_waiting := fun h => absurd h (by simp [init])
      refs_of_locked := fun p h => absurd h (by simp [init])
      valid_of_locked := fun p h => absurd h (by simp [init])
      alive := fun h => absurd h (by simp [init])
      freed := fun h => absurd h (by simp [init]) }
  unique := fun i j dev inum h => absurd h.1 (by simp [init])

/-- A step is about one entry and one process: only the entry's own invariant has
to be looked at, as long as the inode on the disk of no other entry in use changes
and the entry is not set up for an inode that another one is in use for. -/
theorem Inv.of_slot (h : Inv s) {pc : Pid → Pc} {p : Pid} {x : Pc} {ip : Inode Pid Dinode}
    {r w : ℤ} {l : Bool} {d : Dinode} (hi : SlotInv pc i ip r w l d) (hpc : t.pc = pc)
    (hupd : pc = update s.pc p x) (hp : (s.pc p).About i) (hx : x.About i)
    (hinode : t.inode = update s.inode i ip) (hr : t.refs = update s.refs i r)
    (hw : t.waiting = update s.waiting i w) (hl : t.loaded = update s.loaded i l)
    (hd : t.disk ip.dev ip.inum = d)
    (hdisk : ∀ j, j ≠ i → 0 < (s.inode j).ref → t.disk (s.inode j).dev (s.inode j).inum =
      s.disk (s.inode j).dev (s.inode j).inum)
    (hkey : ∀ dev inum, ip.Is dev inum → (s.inode i).Is dev inum ∨ ∀ j, ¬(s.inode j).Is dev inum) :
    Inv t := by
  have hself : t.inode i = ip := by rw [hinode, update_self]
  have hne : ∀ j, j ≠ i → t.inode j = s.inode j := fun j hj => by
    rw [hinode, update_of_ne hj]
  constructor
  · intro j
    rcases eq_or_ne j i with rfl | hj
    · rwa [hself, hpc, hr, hw, hl, hd, update_self, update_self,
        update_self]
    · rw [hne j hj, hpc, hupd, hr, hw, hl, update_of_ne hj, update_of_ne hj,
        update_of_ne hj]
      exact ((h.slot j).disk (hdisk j hj)).frame hj hp hx
  · intro j k dev inum hj hk
    have hcase : ∀ l, l ≠ i → (t.inode l).Is dev inum → ip.Is dev inum → l = i := by
      intro l hl hls hip
      rw [hne l hl] at hls
      rcases hkey dev inum hip with hs | hno
      · exact h.unique l i dev inum hls hs
      · exact absurd hls (hno l)
    by_cases hji : j = i
    · by_cases hki : k = i
      · exact hji.trans hki.symm
      · rw [hji, hself] at hj
        exact absurd (hcase k hki hk hj) hki
    · by_cases hki : k = i
      · rw [hki, hself] at hk
        exact absurd (hcase j hji hj hk) hji
      · rw [hne j hji] at hj
        rw [hne k hki] at hk
        exact h.unique j k dev inum hj hk

omit [DecidableEq Pid] in
/-- Writing one entry back does not touch the inode of another entry in use. -/
theorem Inv.disk_of_ne (h : Inv s) {j : Slot} (hj : j ≠ i) (hposi : 0 < (s.inode i).ref)
    (hposj : 0 < (s.inode j).ref) (d : Dinode) :
    update s.disk (s.inode i).dev
      (update (s.disk (s.inode i).dev) (s.inode i).inum d) (s.inode j).dev
      (s.inode j).inum = s.disk (s.inode j).dev (s.inode j).inum := by
  rcases eq_or_ne (s.inode j).dev (s.inode i).dev with hdev | hdev
  · have hinum : (s.inode j).inum ≠ (s.inode i).inum := fun hinum =>
      hj (h.unique j i _ _ ⟨hposj, hdev, hinum⟩ ⟨hposi, rfl, rfl⟩)
    rw [hdev, update_self, update_of_ne hinum]
  · rw [update_of_ne hdev]

/-- **The condition under which no inode is lost**: an `iput` that finds an inode
without links and reads a `ref` other than one has another reference left to
count on – one that is not itself in an `iput` that is past this test. -/
def LeavesOther (s : St Pid) : Act Pid → Prop
  | .next p => ∀ i, s.pc p = .getref i → (s.inode i).ref ≠ 1 →
      1 ≤ s.refs i ∨ ∃ q, q ≠ p ∧ (s.pc q).Deciding i
  | _ => True

/-- A step in which a process only moves on. -/
theorem Inv.goto (h : Inv s) {p : Pid} {x : Pc} (hp : (s.pc p).About i) (hx : x.About i)
    (hi : SlotInv (update s.pc p x) i (s.inode i) (s.refs i) (s.waiting i) (s.loaded i)
      (s.disk (s.inode i).dev (s.inode i).inum)) :
    Inv (s.goto p x) :=
  h.of_slot hi rfl rfl hp hx (update_eq_self i _).symm (update_eq_self i _).symm
    (update_eq_self i _).symm (update_eq_self i _).symm rfl
    (fun _ _ _ => rfl) fun _ _ his => .inl his

omit [DecidableEq Pid] in
theorem not_locked_iff :
    ¬s.Locked i ↔ ∀ q, (s.inode i).lock = some q → (s.pc q).Putting i := by
  unfold St.Locked
  split
  · simp [*]
  · simp [*]

/-- **A step keeps the invariant**, under the condition. -/
theorem Inv.step {a : Act Pid} (h : Inv s) (hK : LeavesOther s a) (hst : step s a = some t) :
    Inv t := by
  have hself : ∀ {β : Type} (f : Slot → β) (i : Slot), f = update f i (f i) :=
    fun f i => (update_eq_self i f).symm
  have hidle : ∀ {p}, s.pc p = .idle → s.pc = update s.pc p .idle := fun hpc => by
    rw [← hpc, update_eq_self]
  have habout : ∀ {p i}, s.pc p = .idle → (s.pc p).About i := fun hpc => by rw [hpc]; trivial
  cases Step.of_step hst with
  | hit p i hpc his =>
    exact h.of_slot ((h.slot i).ref his.1) rfl (hidle hpc) (habout hpc) trivial rfl rfl
      (hself _ i) (hself _ i) rfl (fun _ _ _ => rfl) fun _ _ hd => .inl ⟨his.1, hd.2⟩
  | recycle p i dev inum hpc h0 hno =>
    refine h.of_slot ((h.slot i).recycle h0 dev inum _) rfl (hidle hpc) (habout hpc) trivial rfl
      rfl (hself _ i) rfl rfl (fun _ _ _ => rfl) ?_
    rintro dev' inum' ⟨-, rfl, rfl⟩
    exact .inr hno
  | idup p i hpc href =>
    have hpos := (h.slot i).ref_pos href
    exact h.of_slot ((h.slot i).ref hpos) rfl (hidle hpc) (habout hpc) trivial rfl rfl
      (hself _ i) (hself _ i) rfl (fun _ _ _ => rfl) fun _ _ hd => .inl ⟨hpos, hd.2⟩
  | ilock p i hpc href =>
    exact h.of_slot ((h.slot i).ilock hpc href) rfl rfl (habout hpc) rfl (hself _ i) (hself _ i)
      rfl (hself _ i) rfl (fun _ _ _ => rfl) fun _ _ his => .inl his
  | iunlock p i hpc hlock =>
    exact h.of_slot ((h.slot i).iunlock hpc hlock) rfl (hidle hpc) (habout hpc) trivial rfl
      (hself _ i) (hself _ i) (hself _ i) rfl (fun _ _ _ => rfl) fun _ _ his => .inl his
  | update p i d hpc hlock =>
    have hpos : 0 < (s.inode i).ref := (h.slot i).ref_pos
      ((h.slot i).refs_of_locked p hlock (by simp [hpc, Pc.Putting]))
    refine h.of_slot ((h.slot i).edit hpc hlock d) rfl (hidle hpc) (habout hpc) trivial rfl
      (hself _ i) (hself _ i) (hself _ i) ?_ (fun j hj hposj => ?_) fun _ _ his => .inl his
    · simp [St.iupdate, St.set]
    · simpa [St.iupdate, St.set] using h.disk_of_ne hj hpos hposj d
  | iput p i hpc href huse =>
    exact h.of_slot
      ((h.slot i).iput hpc href (huse.imp_right fun hu => ⟨hu.1, not_locked_iff.mp hu.2⟩))
      rfl rfl (habout hpc) rfl (hself _ i) rfl (hself _ i) (hself _ i) rfl (fun _ _ _ => rfl)
      fun _ _ his => .inl his
  | acquire p i hpc hfree =>
    exact h.of_slot ((h.slot i).acquire hpc hfree) rfl rfl (by rw [hpc]; rfl) rfl rfl (hself _ i)
      rfl (hself _ i) rfl (fun _ _ _ => rfl) fun _ _ his => .inl his
  | cached p i hpc hv =>
    refine h.goto (i := i) (by rw [hpc]; rfl) trivial ?_
    have hi := (h.slot i).load hpc (s.inode i).d (s.loaded i)
    rwa [← hv] at hi
  | load p i hpc =>
    exact h.of_slot ((h.slot i).load hpc _ true) rfl rfl (by rw [hpc]; rfl) trivial rfl
      (hself _ i) (hself _ i) rfl rfl (fun _ _ _ => rfl) fun _ _ his => .inl his
  | acquirePut p i hpc hfree =>
    exact h.of_slot ((h.slot i).acquirePut hpc hfree) rfl rfl (by rw [hpc]; rfl) rfl rfl
      (hself _ i) (hself _ i) (hself _ i) rfl (fun _ _ _ => rfl) fun _ _ his => .inl his
  | unlinked p i hpc =>
    exact h.goto (i := i) (by rw [hpc]; rfl) rfl
      ((h.slot i).decide (by rw [hpc]; rfl) rfl fun hx => absurd rfl hx)
  | linked p i hpc hv =>
    exact h.goto (i := i) (by rw [hpc]; rfl) rfl
      ((h.slot i).decide (by rw [hpc]; rfl) rfl fun _ hval hn => absurd ⟨hval, hn⟩ hv)
  | last p i hpc =>
    exact h.goto (i := i) (by rw [hpc]; rfl) rfl
      ((h.slot i).decide (by rw [hpc]; rfl) rfl fun hx => absurd rfl hx)
  | others p i hpc href =>
    -- the one step the condition is about
    exact h.goto (i := i) (by rw [hpc]; rfl) rfl
      ((h.slot i).decide (by rw [hpc]; rfl) rfl fun _ _ _ => hK i hpc href)
  | free p i hpc =>
    have hpos : 0 < (s.inode i).ref := by
      have := (h.slot i).count.pos (p := p) (by rw [hpc]; rfl)
      have := (h.slot i).refs_nonneg
      omega
    refine h.of_slot (d := { truncated (s.inode i).d with type := 0 })
      ((h.slot i).free hpc ⟨rfl, rfl, rfl⟩ { truncated (s.inode i).d with type := 0 }) rfl rfl
      (by rw [hpc]; rfl) rfl ?_
      (hself _ i) (hself _ i) (hself _ i) ?_ (fun j hj hposj => ?_) fun _ _ his => .inl his
    · simp [Inode.free, St.goto, St.set, St.iupdate]
    · simp [Inode.free, St.goto, St.set, St.iupdate]
    · simpa [Inode.free, St.goto, St.set, St.iupdate] using h.disk_of_ne hj hpos hposj _
  | unlock p i hpc =>
    exact h.of_slot ((h.slot i).unlock hpc) rfl rfl (by rw [hpc]; rfl) rfl rfl (hself _ i)
      (hself _ i) (hself _ i) rfl (fun _ _ _ => rfl) fun _ _ his => .inl his
  | drop p i hpc =>
    exact h.of_slot ((h.slot i).drop hpc) rfl rfl (by rw [hpc]; rfl) trivial rfl (hself _ i)
      (hself _ i) (hself _ i) rfl (fun _ _ _ => rfl) fun dev inum his => .inl
        ⟨by have := his.1; change 0 < (s.inode i).ref - 1 at this; omega, his.2⟩

theorem inv_of_run {disk : UInt32 → UInt32 → Dinode} {as : List (Act Pid)}
    (hK : Meets Inode.step LeavesOther (init disk) as)
    (h : run Inode.step (init disk) as = some s) : Inv s :=
  run_invariant_of_meets (fun hs hC hst => hs.step hC hst) (inv_init disk) hK h

/-! ### The last reference -/

/-- `ref` only goes down in the last step of `iput`. -/
theorem ref_le_of_step {a : Act Pid} (h : step s a = some t) (i : Slot) :
    (s.inode i).ref ≤ (t.inode i).ref ∨ ∃ p, s.pc p = .drop i ∧
      t = (s.set i { s.inode i with ref := (s.inode i).ref - 1 }).goto p .idle := by
  have hupd : ∀ (j : Slot) (ip : Inode Pid Dinode), (s.inode j).ref ≤ ip.ref →
      (s.inode i).ref ≤ (update s.inode j ip i).ref := by
    intro j ip hle
    rcases eq_or_ne i j with rfl | hij
    · rwa [update_self]
    · rw [update_of_ne hij]
  cases Step.of_step h with
  | hit p j hpc his => exact .inl (hupd j _ (by simp))
  | recycle p j dev inum hpc h0 hno => exact .inl (hupd j _ (by simp [h0]))
  | idup p j => exact .inl (hupd j _ (by simp))
  | iunlock p j => exact .inl (hupd j _ le_rfl)
  | update p j d => exact .inl (hupd j _ le_rfl)
  | acquire p j => exact .inl (hupd j _ le_rfl)
  | load p j => exact .inl (hupd j _ le_rfl)
  | acquirePut p j => exact .inl (hupd j _ le_rfl)
  | unlock p j => exact .inl (hupd j _ le_rfl)
  | free p j =>
    left
    simp only [Inode.free, St.goto, St.set, St.iupdate, update_idem]
    exact hupd j _ (by simp)
  | drop p j hpc =>
    rcases eq_or_ne i j with rfl | hij
    · exact .inr ⟨p, hpc, rfl⟩
    · left
      change _ ≤ (update s.inode j _ i).ref
      rw [update_of_ne hij]
  | _ => exact .inl le_rfl

/-- No step of the list loses an inode: whenever the last reference to an entry
is dropped that was valid, with no links left when it last was, the inode has
been freed on the disk. -/
def NoLeak (disk : UInt32 → UInt32 → Dinode) (as : List (Act Pid)) : Prop :=
  ∀ l a, l ++ [a] <+: as → ∀ s t, run step (init disk) l = some s → step s a = some t →
    ∀ i, (s.inode i).ref ≠ 0 → (t.inode i).ref = 0 → t.loaded i = true →
      (t.inode i).d.nlink = 0 → Freed (t.disk (t.inode i).dev (t.inode i).inum)

/-- **No inode is lost in a run all of whose steps meet the condition.** -/
theorem noLeak_of_leavesOther {disk : UInt32 → UInt32 → Dinode} {as : List (Act Pid)}
    (hK : Meets step LeavesOther (init disk) as) : NoLeak disk as := by
  rintro l a ⟨r, rfl⟩ s t hs hst i hne h0 hl hn
  have hmeets := (meets_append.mp hK).1
  have hinv : Inv s := inv_of_run (meets_append.mp hmeets).1 hs
  have hinv' : Inv t := inv_of_run hmeets (run_concat.mpr ⟨s, hs, hst⟩)
  have hnonneg : 0 ≤ (s.inode i).ref := by
    have := (hinv.slot i).count.nonneg
    have := (hinv.slot i).refs_nonneg
    omega
  -- the entry is not valid any more: somebody would have to be left to free it
  have hv : (t.inode i).valid = false := by
    by_contra hv
    have hcount := (hinv'.slot i).count
    have hrefs := (hinv'.slot i).refs_nonneg
    rcases (hinv'.slot i).alive (by simpa using hv) hn with href | ⟨q, hq⟩
    · have := hcount.nonneg
      omega
    · have := hcount.pos (p := q) (by cases hpc : t.pc q <;> simp_all [Pc.Deciding, Pc.Puts])
      omega
  rcases ref_le_of_step hst i with hle | ⟨p, hpc, rfl⟩
  · omega
  · have hself : (((s.set i { s.inode i with ref := (s.inode i).ref - 1 }).goto p .idle).inode i) =
        { s.inode i with ref := (s.inode i).ref - 1 } := update_self ..
    rw [hself] at hv ⊢
    exact (hinv.slot i).freed (by omega) hl hv

instance (i : Slot) : DecidablePred (Pc.Deciding i)
  | .iput j | .test j | .getref j | .free j => inferInstanceAs (Decidable (j = i))
  | .idle | .ilock _ | .load _ | .unlock _ | .drop _ => .isFalse not_false

instance [Fintype Pid] (s : St Pid) : DecidablePred (LeavesOther s)
  | .next p => inferInstanceAs (Decidable (∀ i, s.pc p = .getref i → (s.inode i).ref ≠ 1 →
      1 ≤ s.refs i ∨ ∃ q, q ≠ p ∧ (s.pc q).Deciding i))
  | .iget _ _ _ | .idup _ _ | .ilock _ _ | .iunlock _ _ | .update _ _ _ | .iput _ _ =>
    .isTrue trivial

/-- A disk with one file. -/
def oneFile : UInt32 → UInt32 → Dinode := fun dev inum =>
  ⟨if dev = 1 ∧ inum = 5 then T_FILE else 0, 0, 0, 1, 0, fun _ => 0⟩

/-- Two processes have the file open, and one removes its only name. -/
def openUnlink : List (Act (Fin 2)) :=
  [.iget 0 1 5, .iget 1 1 5, .ilock 0 0, .next 0, .next 0,
    .update 0 0 ⟨T_FILE, 0, 0, 0, 0, fun _ => 0⟩, .iunlock 0 0]

/-- Then they close it one after the other. -/
def closeInTurn : List (Act (Fin 2)) := openUnlink ++
  [.iput 0 0, .next 0, .next 0, .next 0, .next 0, .next 0,
    .iput 1 0, .next 1, .next 1, .next 1, .next 1, .next 1, .next 1]

/-- The first one leaves the file to the other, and that one frees it. -/
theorem noLeak_closeInTurn : NoLeak oneFile closeInTurn ∧
    (run step (init oneFile) closeInTurn).map (fun s => ((s.inode 0).ref, (s.disk 1 5).type)) =
      some (0, 0) :=
  ⟨noLeak_of_leavesOther (by decide +kernel), by decide +kernel⟩

/-- Both close it at the same time. Each of them reads `ref` before the other one has
decremented it. -/
def closeRace : List (Act (Fin 2)) := openUnlink ++
  [.iput 0 0, .next 0, .next 0, .next 0, .next 0,
    .iput 1 0, .next 1, .next 1, .next 1, .next 1, .next 0]

/-- **Two closes at the same time lose the inode**: nobody has it open, it has no
name, and it is still allocated on the disk. -/
theorem closeRace_leaks : ¬NoLeak oneFile (closeRace ++ [.next 1]) := by
  intro h
  have hrun : ((run step (init oneFile) closeRace).bind fun s => (step s (.next 1)).map fun t =>
      ((s.inode 0).ref, (t.inode 0).ref, t.loaded 0, (t.inode 0).d.nlink,
        (t.disk (t.inode 0).dev (t.inode 0).inum).type)) = some (1, 0, true, 0, T_FILE) := by
    decide +kernel
  obtain ⟨s, hs, ht⟩ := Option.bind_eq_some_iff.mp hrun
  obtain ⟨t, ht, heq⟩ := Option.map_eq_some_iff.mp ht
  simp only [Prod.mk.injEq] at heq
  obtain ⟨h1, h0, hl, hn, hd⟩ := heq
  have hfreed := h _ _ (List.prefix_refl _) s t hs ht 0 (by omega) h0 hl hn
  exact absurd (hd.symm.trans hfreed.1) (by decide)

end Xv6.Inode
