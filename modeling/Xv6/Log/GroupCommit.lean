import Xv6.Lib.Count
import Xv6.Log.Protocol

/-!
# Group commit never splits an operation

The invariant of the protocol, and what it says about the blocks of one
operation. `outstanding` counts the processes that are between their `begin_op`
and their `end_op`, and `commit()` runs exactly while `committing` is set and
`outstanding` is zero; so while an operation is in progress nobody can erase the
header, and while a commit is in progress nobody can extend it. Between two
erasures the header only grows (`Xv6.Log.lh_subset_of_run`), which is why
everything an operation logs is found in one header.
-/

namespace Xv6.Log

open Lib List

variable {Pid : Type} [DecidableEq Pid] {s t : St Pid} {p : Pid} {as : List (Act Pid)} {a : Act Pid}

/-! ### The loop of `log_write` -/

/-- A block already in the header is absorbed, any other is appended. -/
theorem absorb_eq (b : ℕ) (l : List ℕ) : absorb b l = if b ∈ l then l else l ++ [b] := by
  induction l with
  | nil => rfl
  | cons x xs ih =>
    rw [absorb]
    by_cases h : x = b
    · simp [h]
    · rw [if_neg h, ih]
      have hb : b ≠ x := fun e => h e.symm
      by_cases hm : b ∈ xs <;> simp [hm, hb]

theorem mem_absorb {a b : ℕ} {l : List ℕ} : a ∈ absorb b l ↔ a = b ∨ a ∈ l := by
  rw [absorb_eq]
  by_cases h : b ∈ l
  · rw [if_pos h]
    exact ⟨.inr, fun ha => ha.elim (fun e => e ▸ h) id⟩
  · rw [if_neg h]
    simp [or_comm]

theorem nodup_absorb {b : ℕ} {l : List ℕ} (h : l.Nodup) : (absorb b l).Nodup := by
  rw [absorb_eq]
  by_cases hb : b ∈ l
  · rwa [if_pos hb]
  · rw [if_neg hb]
    exact List.Nodup.append h (nodup_singleton b) (by simpa using hb)

theorem length_le_absorb (b : ℕ) (l : List ℕ) : l.length ≤ (absorb b l).length := by
  rw [absorb_eq]
  split <;> simp

/-! ### What a step can do -/

@[simp] theorem goto_outstanding (s : St Pid) (p : Pid) (pc : Pc) :
    (s.goto p pc).outstanding = s.outstanding := rfl

@[simp] theorem goto_lh (s : St Pid) (p : Pid) (pc : Pc) : (s.goto p pc).lh = s.lh := rfl

@[simp] theorem goto_pc_self (s : St Pid) (p : Pid) (pc : Pc) : (s.goto p pc).pc p = pc :=
  Function.update_self ..

theorem goto_pc_of_ne (s : St Pid) {q : Pid} (pc : Pc) (h : q ≠ p) :
    (s.goto p pc).pc q = s.pc q :=
  Function.update_of_ne h ..

/-- What holds of every process after one of them has moved. -/
theorem forall_goto {P : Pid → Pc → Prop} {pc : Pc} :
    (∀ q, P q ((s.goto p pc).pc q)) ↔ P p pc ∧ ∀ q, q ≠ p → P q (s.pc q) :=
  Function.forall_update_iff s.pc P

section

omit [DecidableEq Pid]

/-- Nobody sleeps in `begin_op` right after a wakeup. -/
theorem wakeup_pc_ne_sleeping (s : St Pid) (q : Pid) : s.wakeup.pc q ≠ .sleeping := by
  change (if s.pc q = .sleeping then Pc.woken else s.pc q) ≠ .sleeping
  split
  · simp
  · assumption

theorem wakeup_inOp (s : St Pid) (q : Pid) : (s.wakeup.pc q).InOp ↔ (s.pc q).InOp := by
  change (if s.pc q = .sleeping then Pc.woken else s.pc q).InOp ↔ _
  split
  · simp [*, Pc.InOp]
  · exact Iff.rfl

theorem wakeup_inCommit (s : St Pid) (q : Pid) : (s.wakeup.pc q).InCommit ↔ (s.pc q).InCommit := by
  change (if s.pc q = .sleeping then Pc.woken else s.pc q).InCommit ↔ _
  split
  · simp [*, Pc.InCommit]
  · exact Iff.rfl

end

/-- **What a step of the protocol can be**, with the tests that allow it: the
relation that `Xv6.Log.step` computes, one constructor for each branch. -/
inductive Step (s : St Pid) : Act Pid → St Pid → Prop where
  /-- `begin_op` finds no room, or a commit, and sleeps. -/
  | sleep (p : Pid) (hpc : s.pc p = .idle ∨ s.pc p = .woken)
      (hwait : s.committing = true ∨
        (LOGSIZE : ℤ) < s.lh.length + (s.outstanding + 1) * MAXOPBLOCKS) :
      Step s (.beginOp p) (s.goto p .sleeping)
  /-- `begin_op` admits the operation. -/
  | enter (p : Pid) (hpc : s.pc p = .idle ∨ s.pc p = .woken) (hc : s.committing = false)
      (hroom : (s.lh.length : ℤ) + (s.outstanding + 1) * MAXOPBLOCKS ≤ LOGSIZE) :
      Step s (.beginOp p) ({ s with outstanding := s.outstanding + 1 }.goto p .inOp)
  /-- `log_write` passes its tests. -/
  | test (p : Pid) (b : ℕ) (hpc : s.pc p = .inOp) (hsize : (s.lh.length : ℤ) < s.size - 1)
      (hlen : s.lh.length < LOGSIZE) : Step s (.logWrite p b) (s.goto p (.logging b))
  /-- `log_write` stores its block. -/
  | append (p : Pid) (b : ℕ) (hpc : s.pc p = .logging b) :
      Step s (.logAppend p b) ({ s with lh := absorb b s.lh }.goto p .inOp)
  /-- The last operation ends and starts the commit. -/
  | last (p : Pid) (hpc : s.pc p = .inOp) (hc : s.committing = false)
      (ho : s.outstanding = 1) :
      Step s (.endOp p) ({ s with outstanding := 0, committing := true }.goto p (.commit .start))
  /-- An operation ends while others go on. -/
  | leave (p : Pid) (hpc : s.pc p = .inOp) (hc : s.committing = false)
      (ho : s.outstanding ≠ 1) :
      Step s (.endOp p) ({ s with outstanding := s.outstanding - 1 }.wakeup.goto p .idle)
  /-- `commit()` sets `log.lh.n` to zero. -/
  | clear (p : Pid) (hpc : s.pc p = .commit .clear) :
      Step s (.commit p .clear) ({ s with lh := [] }.goto p (.commit .eraseHead))
  /-- `end_op` clears `log.committing`. -/
  | finish (p : Pid) (hpc : s.pc p = .commit .finish) :
      Step s (.commit p .finish) ({ s with committing := false }.wakeup.goto p .idle)
  /-- Any other step of `commit()`. -/
  | advance (p : Pid) (ph : Phase) (hpc : s.pc p = .commit ph) (hph : ph ≠ .clear) :
      Step s (.commit p ph) (s.goto p (.commit (ph.next s.lh.length)))
  /-- A sleeping process is made runnable. -/
  | wake (p : Pid) (hpc : s.pc p = .sleeping) : Step s (.wake p) (s.goto p .woken)

theorem Step.of_step (h : step s a = some t) : Step s a t := by
  have h := Effect.toOption_eq_some.mp h
  cases a with
  | beginOp p =>
    obtain ⟨hpc, h⟩ := Effect.ite_disabled_eq_ok.mp h
    simp only [Effect.ok.injEq, beginOp] at h
    split at h
    · exact h ▸ .sleep p hpc (.inl ‹_›)
    · rename_i hc
      split at h
      · exact h ▸ .sleep p hpc (.inr ‹_›)
      · exact h ▸ .enter p hpc (by simpa using hc) (by omega)
  | logWrite p b =>
    obtain ⟨hpc, h⟩ := Effect.ite_disabled_eq_ok.mp h
    obtain ⟨hroom, h⟩ := Effect.ite_panic_eq_ok.mp h
    obtain ⟨-, ⟨⟩⟩ := Effect.ite_panic_eq_ok.mp h
    exact .test p b hpc (by omega) (by omega)
  | logAppend p b =>
    obtain ⟨hpc, ⟨⟩⟩ := Effect.ite_disabled_eq_ok.mp h
    exact .append p b hpc
  | endOp p =>
    obtain ⟨hpc, h⟩ := Effect.ite_disabled_eq_ok.mp h
    obtain ⟨hc, h⟩ := Effect.ite_panic_eq_ok.mp h
    have hc : s.committing = false := by simpa using hc
    simp only at h
    split at h
    · rename_i ho
      rw [ho] at h
      exact Effect.ok.inj h ▸ .last p hpc hc (by omega)
    · exact Effect.ok.inj h ▸ .leave p hpc hc (by omega)
  | commit p ph =>
    obtain ⟨hpc, h⟩ := Effect.ite_disabled_eq_ok.mp h
    simp only [Effect.ok.injEq, commit] at h
    split at h
    · exact h ▸ .clear p hpc
    · exact h ▸ .finish p hpc
    · rename_i hcl _
      exact h ▸ .advance p ph hpc hcl
  | wake p =>
    obtain ⟨hpc, ⟨⟩⟩ := Effect.ite_disabled_eq_ok.mp h
    exact .wake p hpc

/-! ### The invariant -/

/-- **The invariant of the log.** -/
structure Inv (s : St Pid) : Prop where
  /-- `outstanding` counts the operations in progress. -/
  count : Counts (fun p => (s.pc p).InOp) s.outstanding
  /-- A commit runs with `committing` set and no operation in progress. -/
  inCommit : ∀ p, (s.pc p).InCommit → s.outstanding = 0 ∧ s.committing = true
  /-- At most one process commits. -/
  unique : ∀ p q, (s.pc p).InCommit → (s.pc q).InCommit → p = q
  /-- While `committing` is set somebody commits. -/
  committing : s.committing = true → ∃ p, (s.pc p).InCommit
  /-- The header names no block twice. -/
  nodup : s.lh.Nodup
  /-- Whoever sleeps has a reason to. -/
  sleeping : ∀ p, s.pc p = .sleeping → s.committing = true ∨
    (LOGSIZE : ℤ) < s.lh.length + (s.outstanding + 1) * MAXOPBLOCKS

section

omit [DecidableEq Pid]

theorem inv_init (size : ℤ) : Inv (init size : St Pid) where
  count := counts_zero fun p => by simp [init, Pc.InOp]
  inCommit := fun p hp => hp.elim
  unique := fun p q hp => hp.elim
  committing := fun h => by simp [init] at h
  nodup := nodup_nil
  sleeping := fun p hp => by simp [init] at hp

/-- While a process commits no process is in an operation. -/
theorem Inv.not_inOp (h : Inv s) {q : Pid} (hp : (s.pc p).InCommit) :
    ¬(s.pc q).InOp := by
  intro hq
  have h1 := h.count.pos hq
  have h0 := (h.inCommit p hp).1
  omega

theorem Inv.not_inCommit (h : Inv s) (hc : s.committing = false) (q : Pid) : ¬(s.pc q).InCommit :=
  fun hq => absurd (h.inCommit q hq).2 (by simp [hc])

/-- Nobody commits. -/
theorem Inv.of_not_inCommit (hcount : Counts (fun p => (s.pc p).InOp) s.outstanding)
    (hnc : ∀ q, ¬(s.pc q).InCommit) (hc : s.committing = false) (hnodup : s.lh.Nodup)
    (hsl : ∀ q, s.pc q = .sleeping →
      (LOGSIZE : ℤ) < s.lh.length + (s.outstanding + 1) * MAXOPBLOCKS) : Inv s :=
  ⟨hcount, fun q hq => absurd hq (hnc q), fun q _ hq => absurd hq (hnc q), by simp [hc], hnodup,
    fun q hq => .inr (hsl q hq)⟩

end

/-- A process that changes neither into nor out of an operation or a commit leaves
the bookkeeping alone: the moves inside an operation, inside `begin_op` and
inside `commit()`. -/
theorem Inv.goto (h : Inv s) {pc : Pc} (hop : pc.InOp ↔ (s.pc p).InOp)
    (hcom : pc.InCommit ↔ (s.pc p).InCommit)
    (hsl : pc = .sleeping → s.committing = true ∨
      (LOGSIZE : ℤ) < s.lh.length + (s.outstanding + 1) * MAXOPBLOCKS) :
    Inv (s.goto p pc) := by
  have hcom' : ∀ q, ((s.goto p pc).pc q).InCommit ↔ (s.pc q).InCommit :=
    (forall_goto (P := fun q x => x.InCommit ↔ (s.pc q).InCommit)).mpr ⟨hcom, fun _ _ => Iff.rfl⟩
  refine ⟨counts_keep h.count hop, fun q hq => h.inCommit q ((hcom' q).mp hq),
    fun q r hq hr => h.unique q r ((hcom' q).mp hq) ((hcom' r).mp hr), fun hc => ?_, h.nodup,
    (forall_goto (P := fun _ x => x = .sleeping → _)).mpr ⟨hsl, fun q _ => h.sleeping q⟩⟩
  obtain ⟨q, hq⟩ := h.committing hc
  exact ⟨q, (hcom' q).mpr hq⟩

/-- **The invariant is preserved by every step.** -/
theorem Inv.step (h : Inv s) (hst : step s a = some t) : Inv t := by
  cases Step.of_step hst with
  | sleep p hpc hwait =>
    refine h.goto ?_ ?_ fun _ => hwait
    · rcases hpc with hp | hp <;> simp [hp, Pc.InOp]
    · rcases hpc with hp | hp <;> simp [hp, Pc.InCommit]
  | enter p hpc hc hroom =>
    have hnop : ¬(s.pc p).InOp := by rcases hpc with hp | hp <;> simp [hp, Pc.InOp]
    refine .of_not_inCommit (counts_enter h.count hnop trivial)
      ((forall_goto (P := fun _ x => ¬x.InCommit)).mpr ⟨not_false, fun q _ => h.not_inCommit hc q⟩)
      hc h.nodup ((forall_goto (P := fun _ x => x = .sleeping → _)).mpr ⟨nofun, fun q _ hq => ?_⟩)
    -- a bigger `outstanding` only makes the reason to sleep stronger
    have hlt := (h.sleeping q hq).resolve_left (by simp [hc])
    change (LOGSIZE : ℤ) < s.lh.length + (s.outstanding + 1 + 1) * MAXOPBLOCKS
    rw [Int.add_mul (s.outstanding + 1)]
    omega
  | test p b hpc hsize hlen =>
    exact h.goto (by simp [hpc, Pc.InOp]) (by simp [hpc, Pc.InCommit]) nofun
  | append p b hpc =>
    have h' : Inv { s with lh := absorb b s.lh } := by
      refine { h with nodup := nodup_absorb h.nodup, sleeping := fun q hq => ?_ }
      refine (h.sleeping q hq).imp id fun hlt => lt_of_lt_of_le hlt ?_
      have := length_le_absorb b s.lh
      change (s.lh.length : ℤ) + (s.outstanding + 1) * MAXOPBLOCKS ≤
        (absorb b s.lh).length + (s.outstanding + 1) * MAXOPBLOCKS
      omega
    exact h'.goto (by simp [hpc, Pc.InOp]) (by simp [hpc, Pc.InCommit]) nofun
  | last p hpc hc ho =>
    have hpOp : (s.pc p).InOp := by simp [hpc, Pc.InOp]
    have honly : ∀ q, (({ s with outstanding := 0, committing := true }.goto p
        (.commit .start)).pc q).InCommit → q = p :=
      (forall_goto (P := fun q x => x.InCommit → q = p)).mpr
        ⟨fun _ => rfl, fun q _ hq => absurd hq (h.not_inCommit hc q)⟩
    refine ⟨?_, fun q _ => ⟨rfl, rfl⟩, fun q r hq hr => (honly q hq).trans (honly r hr).symm,
      fun _ => ⟨p, ?_⟩, h.nodup, fun q hq => .inl rfl⟩
    · have hcount := counts_leave (R := Pc.InOp) (x := .commit .start) h.count hpOp not_false
      rwa [ho, Int.sub_self] at hcount
    · rw [goto_pc_self]
      trivial
  | leave p hpc hc ho =>
    have hpOp : (s.pc p).InOp := by simp [hpc, Pc.InOp]
    have hcount := h.count.keep (wakeup_inOp s)
    exact .of_not_inCommit (counts_leave hcount ((wakeup_inOp s p).mpr hpOp) not_false)
      ((forall_goto (P := fun _ x => ¬x.InCommit)).mpr
        ⟨not_false, fun q _ hq => h.not_inCommit hc q ((wakeup_inCommit s q).mp hq)⟩) hc h.nodup
      ((forall_goto (P := fun _ x => x = .sleeping → _)).mpr
        ⟨nofun, fun q _ hq => absurd hq (wakeup_pc_ne_sleeping s q)⟩)
  | clear p hpc =>
    have hpc' : (s.pc p).InCommit := by simp [hpc, Pc.InCommit]
    have h' : Inv { s with lh := [] } :=
      { h with nodup := nodup_nil, sleeping := fun q hq => .inl (h.inCommit p hpc').2 }
    exact h'.goto (by simp [hpc, Pc.InOp]) (by simp [hpc, Pc.InCommit]) nofun
  | finish p hpc =>
    have hpc' : (s.pc p).InCommit := by simp [hpc, Pc.InCommit]
    have hcount := h.count.keep (wakeup_inOp s)
    refine .of_not_inCommit (counts_keep hcount ?_) ((forall_goto (P := fun _ x => ¬x.InCommit)).mpr
        ⟨not_false, fun q hqp hq => hqp (h.unique q p ((wakeup_inCommit s q).mp hq) hpc')⟩) rfl
      h.nodup ((forall_goto (P := fun _ x => x = .sleeping → _)).mpr
        ⟨nofun, fun q _ hq => absurd hq (wakeup_pc_ne_sleeping s q)⟩)
    rw [wakeup_inOp, hpc]
    exact Iff.rfl
  | advance p ph hpc hph =>
    exact h.goto (by simp [hpc, Pc.InOp]) (by simp [hpc, Pc.InCommit]) nofun
  | wake p hpc =>
    exact h.goto (by simp [hpc, Pc.InOp]) (by simp [hpc, Pc.InCommit]) nofun

/-- Every state a run reaches satisfies the invariant. -/
theorem inv_of_run {size : ℤ} (h : run step (init size) as = some s) : Inv s :=
  run_invariant Inv.step (inv_init size) h

/-! ### The blocks of one operation -/

/-- A step other than the erasure of the header keeps every block in it. -/
theorem lh_subset_of_step (h : step s a = some t) (hcl : ∀ q, a ≠ .commit q .clear) :
    s.lh ⊆ t.lh := by
  cases Step.of_step h with
  | append p b hpc => exact fun x hx => mem_absorb.mpr (.inr hx)
  | clear p hpc => exact absurd rfl (hcl p)
  | _ => exact List.Subset.refl _

/-- A run that does not erase the header keeps every block in it. -/
theorem lh_subset_of_run : ∀ {s t : St Pid}, run step s as = some t →
    (∀ q, Act.commit q .clear ∉ as) → s.lh ⊆ t.lh := by
  induction as with
  | nil =>
    intro s t h _
    rw [run_nil] at h
    exact Option.some.inj h ▸ List.Subset.refl _
  | cons a as ih =>
    intro s t h hcl
    obtain ⟨u, hu, ht⟩ := run_cons.mp h
    refine List.Subset.trans (lh_subset_of_step hu fun q hq => ?_)
      (ih ht fun q hq => hcl q (mem_cons_of_mem _ hq))
    exact hcl q (hq ▸ mem_cons_self)

/-- A process gets into an operation by `begin_op` and out of it by `end_op`. -/
theorem inOp_cases (h : step s a = some t) (p : Pid) : ((t.pc p).InOp ↔ (s.pc p).InOp) ∨
    a = .beginOp p ∧ ¬(s.pc p).InOp ∨ a = .endOp p ∧ ¬(t.pc p).InOp := by
  have moved : ∀ {s' : St Pid} {q : Pid} {pc : Pc}, ((s'.pc p).InOp ↔ (s.pc p).InOp) →
      (p = q → (pc.InOp ↔ (s.pc p).InOp) ∨ a = .beginOp p ∧ ¬(s.pc p).InOp ∨
        a = .endOp p ∧ ¬pc.InOp) → (((s'.goto q pc).pc p).InOp ↔ (s.pc p).InOp) ∨
          a = .beginOp p ∧ ¬(s.pc p).InOp ∨ a = .endOp p ∧ ¬((s'.goto q pc).pc p).InOp := by
    intro s' q pc hs' hpq
    rcases eq_or_ne p q with rfl | hne
    · rw [goto_pc_self]
      exact hpq rfl
    · rw [goto_pc_of_ne _ _ hne]
      exact .inl hs'
  cases Step.of_step h with
  | sleep q hpc =>
    refine moved Iff.rfl fun e => .inl ?_
    subst e
    rcases hpc with hq | hq <;> simp [hq, Pc.InOp]
  | enter q hpc =>
    refine moved Iff.rfl fun e => .inr (.inl ⟨e ▸ rfl, ?_⟩)
    subst e
    rcases hpc with hq | hq <;> simp [hq, Pc.InOp]
  | test q b hpc | append q b hpc | clear q hpc | advance q _ hpc | wake q hpc =>
    refine moved Iff.rfl fun e => .inl ?_
    subst e
    simp [hpc, Pc.InOp]
  | last q => exact moved Iff.rfl fun e => .inr (.inr ⟨e ▸ rfl, not_false⟩)
  | leave q => exact moved (wakeup_inOp _ p) fun e => .inr (.inr ⟨e ▸ rfl, not_false⟩)
  | finish q hpc =>
    refine moved (wakeup_inOp _ p) fun e => .inl ?_
    subst e
    simp [hpc, Pc.InOp]

/-- A process stays in its operation until it ends it. -/
theorem inOp_of_step (h : step s a = some t) (hp : (s.pc p).InOp) (ha : a ≠ .endOp p) :
    (t.pc p).InOp :=
  (inOp_cases h p).elim (·.mpr hp) fun hc => hc.elim (fun hb => absurd hp hb.2) fun he => absurd he.1 ha

/-- **An operation is never split by a commit**: while a process stays in its
operation nobody erases the header, and what it logs stays there. -/
theorem run_of_inOp : ∀ {s t : St Pid}, Inv s →
    (s.pc p).InOp → Act.endOp p ∉ as → run step s as = some t →
    (∀ q, Act.commit q .clear ∉ as) ∧ ∀ b, Act.logAppend p b ∈ as → b ∈ t.lh := by
  induction as with
  | nil => simp
  | cons a as ih =>
    intro s t hs hp hend h
    obtain ⟨u, hu, ht⟩ := run_cons.mp h
    have ha : a ≠ .endOp p := fun e => hend (e ▸ mem_cons_self)
    obtain ⟨hcl, hlog⟩ := ih (hs.step hu) (inOp_of_step hu hp ha)
      (fun hc => hend (mem_cons_of_mem _ hc)) ht
    refine ⟨fun q hq => ?_, fun b hb => ?_⟩
    · rcases mem_cons.mp hq with rfl | hq
      · -- the process about to erase the header is in a commit
        cases Step.of_step hu with
        | clear _ hpc => exact hs.not_inOp (p := q) (by simp [hpc, Pc.InCommit]) hp
        | advance _ _ hpc _ => exact hs.not_inOp (p := q) (by simp [hpc, Pc.InCommit]) hp
      · exact hcl q hq
    · rcases mem_cons.mp hb with rfl | hb
      · refine lh_subset_of_run ht hcl ?_
        cases Step.of_step hu with
        | append _ _ hpc => exact mem_absorb.mpr (.inl rfl)
      · exact hlog b hb

/-- A process gets into an operation by `begin_op` only. -/
theorem not_inOp_of_step (h : step s a = some t) (hp : ¬(s.pc p).InOp) (ha : a ≠ .beginOp p) :
    ¬(t.pc p).InOp :=
  (inOp_cases h p).elim (mt ·.mp hp) fun hc => hc.elim (fun hb => absurd hb.1 ha) And.right

theorem not_inOp_of_run : ∀ {s t : St Pid},
    ¬(s.pc p).InOp → Act.beginOp p ∉ as → run step s as = some t → ¬(t.pc p).InOp := by
  induction as with
  | nil =>
    intro s t hs _ h
    rw [run_nil] at h
    exact Option.some.inj h ▸ hs
  | cons a as ih =>
    intro s t hs hbeg h
    obtain ⟨u, hu, ht⟩ := run_cons.mp h
    exact ih (not_inOp_of_step hu hs fun e => hbeg (e ▸ mem_cons_self))
      (fun hc => hbeg (mem_cons_of_mem _ hc)) ht

/-- What `begin_op` leaves behind: an operation, or a sleeper. -/
theorem pc_of_beginOp (h : step s (.beginOp p) = some t) :
    t.pc p = .sleeping ∨ (t.pc p = .inOp ∧ s.committing = false) := by
  cases Step.of_step h with
  | sleep => exact .inl (goto_pc_self ..)
  | enter _ _ hc => exact .inr ⟨goto_pc_self .., hc⟩

/-- The header is not erased during an operation, and until it is next erased it holds every block
the operation logged. -/
theorem lh_of_op {size : ℤ} {l₁ l₂ l₃ : List (Act Pid)} (hbeg : Act.beginOp p ∉ l₂)
    (hend : Act.endOp p ∉ l₂)
    (h : run step (init size) (l₁ ++ .beginOp p :: (l₂ ++ .endOp p :: l₃)) = some s) :
    (∀ q, Act.commit q .clear ∉ l₂) ∧
      ((∀ q, Act.commit q .clear ∉ l₃) → ∀ b, Act.logAppend p b ∈ l₂ → b ∈ s.lh) := by
  obtain ⟨s₁, h₁, h⟩ := run_append.mp h
  obtain ⟨s₂, h₂, h⟩ := run_cons.mp h
  obtain ⟨s₃, h₃, h⟩ := run_append.mp h
  obtain ⟨s₄, h₄, h⟩ := run_cons.mp h
  have hinv₂ : Inv s₂ := (inv_of_run h₁).step h₂
  -- the operation that ends was admitted: a sleeper could not have ended it
  have hop₃ : (s₃.pc p).InOp := by
    cases Step.of_step h₄ with
    | last _ hpc => simp [hpc, Pc.InOp]
    | leave _ hpc => simp [hpc, Pc.InOp]
  have hop₂ : (s₂.pc p).InOp := by
    by_contra hc
    exact not_inOp_of_run hc hbeg h₃ hop₃
  obtain ⟨hcl, hlog⟩ := run_of_inOp hinv₂ hop₂ hend h₃
  refine ⟨hcl, fun hcl₃ b hb => ?_⟩
  have h₃₄ : s₃.lh ⊆ s₄.lh := lh_subset_of_step h₄ fun q hq => by simp at hq
  exact lh_subset_of_run h hcl₃ (h₃₄ (hlog b hb))

end Xv6.Log
