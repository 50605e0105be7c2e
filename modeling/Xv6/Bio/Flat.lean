import Xv6.Bio.Commit

/-!
# The cache and the log are one array of blocks

The main result about the buffer cache and the log, `Xv6.Bio.flat_array`: whatever
processes do, as long as they hand a buffer they have changed to `log_write` before
they give it back, `bread` returns what the last change of the block has left
(`Xv6.Bio.leftBy`), whether that has been committed or not. It says so about every
run from `Xv6.Bio.boot`, with every interleaving of readers, operations and
commits; runs in which `bget` finds no buffer stop there.

The proof is that every step keeps `Xv6.Bio.SysInv` and does to the array of blocks
what its action says (`Xv6.Bio.SysInv.step`).
-/

namespace Xv6.Bio

open Lib Function Log

variable {Pid : Type} [DecidableEq Pid] {s : Sys Pid}

section Steps

variable {s : Sys Pid} {p : Pid} {ph : Phase} {l : Log.St Pid} {w : Prop}

/-- A process that moves in the log neither into nor out of `commit()`. -/
theorem SysInv.logGoto (h : SysInv s) {pc : Log.Pc} (hl : Log.Inv (l.goto p pc))
    (hlh : l.lh = s.log.lh)
    (hpcs : ∀ q, (∀ ph, l.pc q = .commit ph ↔ s.log.pc q = .commit ph) ∧
      ((s.log.pc q).InOp → (l.pc q).InOp))
    (hp : ∀ ph, s.log.pc p ≠ .commit ph) (hpc : ∀ ph, pc ≠ .commit ph)
    (hop : (s.log.pc p).InOp → ∀ i, (s.cache.buf i).lock = some p → s.cache.pending i = true →
      pc.InOp) :
    SysInv { s with log := l.goto p pc } := by
  refine h.logStep hl hlh (fun q ph => ?_) fun i q hi hq hqop => ?_
  · rcases eq_or_ne q p with rfl | hqp
    · rw [goto_pc_self]
      exact iff_of_false (hpc ph) (hp ph)
    · rw [goto_pc_of_ne _ _ hqp]
      exact (hpcs q).1 ph
  · rcases eq_or_ne q p with rfl | hqp
    · rw [goto_pc_self]
      exact hop hqop i hq hi
    · rw [goto_pc_of_ne _ _ hqp]
      exact (hpcs q).2 hqop

/-- The last operation ends and starts `commit()`. -/
theorem SysInv.startCommit (h : SysInv s) (hpc : s.cache.pc p = .idle) (hp : (s.log.pc p).InOp)
    (hpend : ∀ i, (s.cache.buf i).lock = some p → s.cache.pending i = false)
    (hl : Log.Inv (l.goto p (.commit .start))) (hlh : l.lh = s.log.lh) (hpcs : l.pc = s.log.pc) :
    SysInv { s with log := l.goto p (.commit .start) } := by
  have hp' : (l.goto p (.commit .start)).pc p = .commit .start := goto_pc_self ..
  refine .of_commit h.cache hl hp' (fun b hb => h.home b (hlh ▸ hb)) (fun i hi => ?_) h.dirty
    (fun t b hb => .inr (h.pinned_of_inOp hp (List.mem_of_getElem? (hlh ▸ hb : s.log.lh[t]? = some b))))
    (.begin_zero (h.sub_of_inOp hp) hpc rfl)
  -- only the process itself was in an operation
  obtain ⟨q, hq, hqop⟩ := h.pending_of_inOp hp hi
  rcases eq_or_ne q p with rfl | hqp
  · exact absurd hi (by simp [hpend i hq])
  · refine absurd ?_ (hl.not_inOp (q := q) (inCommit_of_eq hp'))
    rwa [goto_pc_of_ne _ _ hqp, hpcs]

/-- What a step leaves in block `k`, which held `v`: only a process that changes
the block leaves something else. -/
def leave (a : Act Pid) (k : Key) (v : Block) : Block :=
  match a with
  | .modify _ _ k' x => if k' = k then x else v
  | _ => v

omit [DecidableEq Pid] in
/-- Calls to the cache from outside of `commit()`. -/
theorem SysInv.readyCall (h : SysInv s) (hready : ¬(s.log.pc p).InCommit) {c : Cache Pid}
    (hc : Inv c) (hcall : Call p s.cache c) : Quiet w s { s with cache := c } :=
  h.call hc hcall (SubOk.refl s p) fun _ hp => absurd (inCommit_of_eq hp) hready

omit [DecidableEq Pid] in
theorem Sys.Ready.not_inCommit (h : s.Ready p) : ¬(s.log.pc p).InCommit := by
  rcases h.2 with hp | hp <;> rw [hp] <;> exact not_false

/-- The steps of the log that are not steps of `commit()`. -/
theorem SysInv.logExec (h : SysInv s) {a : Log.Act Pid}
    (ha : a = .beginOp p ∨ (∃ b, a = .logWrite p b) ∨ a = .wake p ∨ a = .endOp p ∧ s.cache.pc p =
      .idle ∧ ∀ i, (s.cache.buf i).lock = some p → s.cache.pending i = false)
    (hl : Log.exec s.log a = .ok l) : SysInv { s with log := l } := by
  have hstep : Log.step s.log a = some l := Effect.toOption_eq_some.mpr hl
  have hinv := h.log.step hstep
  have hsame : ∀ q, (∀ ph, s.log.pc q = .commit ph ↔ s.log.pc q = .commit ph) ∧
      ((s.log.pc q).InOp → (s.log.pc q).InOp) := fun q => ⟨fun _ => Iff.rfl, id⟩
  cases Log.Step.of_step hstep with
  | sleep q hq hwait =>
    refine h.logGoto hinv rfl hsame ?_ (by simp) ?_
    · rcases hq with hq | hq <;> simp [hq]
    · rcases hq with hq | hq <;> simp [hq, Log.Pc.InOp]
  | enter q hq =>
    refine h.logGoto hinv rfl hsame ?_ (by simp) fun _ _ _ _ => trivial
    rcases hq with hq | hq <;> simp [hq]
  | test q b hq =>
    exact h.logGoto hinv rfl hsame (by simp [hq]) (by simp) fun _ _ _ _ => trivial
  | wake q hq =>
    exact h.logGoto hinv rfl hsame (by simp [hq]) (by simp) (by simp [hq, Log.Pc.InOp])
  | last q hq =>
    obtain ⟨rfl, hpc, hpend⟩ : q = p ∧ _ := by simpa using ha
    exact h.startCommit hpc (by rw [hq]; trivial) hpend hinv rfl rfl
  | leave q hq =>
    obtain ⟨rfl, -, hpend⟩ : q = p ∧ _ := by simpa using ha
    refine h.logGoto hinv rfl (fun r => ⟨fun ph => ?_, ?_⟩) (by simp [hq]) (by simp)
      fun _ i hi hp => absurd hp (by simp [hpend i hi])
    · change (if s.log.pc r = .sleeping then Log.Pc.woken else s.log.pc r) = .commit ph ↔ _
      split
      · simp [*]
      · exact Iff.rfl
    · exact (wakeup_inOp _ r).mpr
  | _ => simp at ha

/-- **A step keeps the invariant**, and changes the blocks outside of the log as
its action says. A buffer that `log_write` has marked is not taken over: it keeps its block
and its mark until `commit()` has written it. -/
theorem SysInv.step (h : SysInv s) {a : Act Pid} {t : Sys Pid} (hst : step s a = some t) :
    SysInv t ∧ t.dev = s.dev ∧ t.start = s.start ∧
      (∀ k, ¬s.InLog k → t.cache.flat k = leave a k (s.cache.flat k)) ∧
      ∀ i, (s.cache.buf i).dirty = true → Kept (∃ p, a = .commit p) s.cache t.cache i := by
  have hex : exec s a = .ok t := Effect.toOption_eq_some.mp hst
  have hsame : ∀ {w t}, Quiet w s t → SysInv t ∧ t.dev = s.dev ∧ t.start = s.start ∧
      (∀ k, ¬s.InLog k → t.cache.flat k = s.cache.flat k) ∧
      ∀ i, (s.cache.buf i).dirty = true → Kept w s.cache t.cache i := fun hq =>
    ⟨hq.inv, hq.dev, hq.start, hq.flat, hq.kept⟩
  have hlog : ∀ {w l}, SysInv { s with log := l } → Quiet w s { s with log := l } := fun hinv =>
    ⟨hinv, rfl, rfl, fun _ _ => rfl, fun _ hd => ⟨rfl, .inl hd⟩⟩
  cases a with
  | bread p k =>
    simp only [exec] at hex
    split at hex
    · rename_i hready
      obtain ⟨c, hc, rfl⟩ := Effect.map_eq_ok.mp hex
      exact hsame (h.readyCall hready.not_inCommit (h.cache.bget hready.1 hc)
        (h.cache.call_bget hc))
    · simp at hex
  | brelse p i =>
    simp only [exec] at hex
    split at hex
    · rename_i hready
      obtain ⟨c, hc, rfl⟩ := Effect.map_eq_ok.mp hex
      exact hsame (h.readyCall hready.1.not_inCommit
        (h.cache.brelse hready.1.1 hready.2 hc) (call_brelse hc))
    · simp at hex
  | next p =>
    obtain ⟨c, hc, rfl⟩ := Effect.map_eq_ok.mp hex
    cases hp : s.log.pc p with
    | commit ph => exact hsame (h.commitNext hp hc)
    | _ =>
      exact hsame (h.readyCall (by rw [hp]; exact not_false) (h.cache.next hc)
        (h.cache.call_next hc))
  | modify p i k x =>
    simp only [exec] at hex
    split at hex
    · rename_i hg
      obtain ⟨hpc, hop, hlock, hkey, -⟩ := hg
      obtain rfl := Effect.ok.inj hex
      refine ⟨h.modify hpc (by rw [hop]; trivial) hlock x, rfl, rfl, fun k' _ => ?_,
        fun j hd => kept_modify hd i x⟩
      change update s.cache.flat (s.cache.buf i).key x k' = _
      rw [hkey, leave, update_apply]
      exact if_congr eq_comm rfl rfl
    · simp at hex
  | beginOp p =>
    simp only [exec] at hex
    split at hex
    · obtain ⟨l, hl, rfl⟩ := Effect.map_eq_ok.mp hex
      exact hsame (hlog (h.logExec (.inl rfl) hl))
    · simp at hex
  | logWrite p i =>
    simp only [exec] at hex
    split at hex
    · obtain ⟨l, hl, rfl⟩ := Effect.map_eq_ok.mp hex
      exact hsame (hlog (h.logExec (.inr (.inl ⟨_, rfl⟩)) hl))
    · simp at hex
  | logAppend p i =>
    simp only [exec] at hex
    split at hex
    · rename_i hg
      obtain ⟨l, hl, rfl⟩ := Effect.map_eq_ok.mp hex
      obtain ⟨hinv, hkept⟩ := h.logAppend hg.1 hg.2.1 hg.2.2 hl rfl
      exact ⟨hinv, rfl, rfl, fun _ _ => rfl, hkept⟩
    · simp at hex
  | endOp p =>
    simp only [exec] at hex
    split at hex
    · rename_i hg
      obtain ⟨l, hl, rfl⟩ := Effect.map_eq_ok.mp hex
      exact hsame (hlog (h.logExec (.inr (.inr (.inr ⟨rfl, hg⟩))) hl))
    · simp at hex
  | commit p =>
    simp only [exec] at hex
    split at hex
    · rename_i ph hp
      split at hex
      · exact hsame (h.commitStep ⟨p, rfl⟩ hp ‹_› hex)
      · simp at hex
    · simp at hex
  | wake p =>
    obtain ⟨l, hl, rfl⟩ := Effect.map_eq_ok.mp hex
    exact hsame (hlog (h.logExec (.inr (.inr (.inl rfl))) hl))

end Steps

/-! ### Every run -/

omit [DecidableEq Pid] in
theorem sysInv_boot (dev start : ℕ) (disk : Key → Block) :
    SysInv (boot dev start disk : Sys Pid) :=
  .of_no_commit (inv_init disk) (Log.inv_init _) (fun p ph hp => by simp [boot, Log.init] at hp) rfl
    (fun b hb => absurd hb List.not_mem_nil) (fun i hi => absurd hi (by simp [boot, init]))
    (fun i hi => absurd hi (by simp [boot, init, Pool.init])) fun b hb => absurd hb List.not_mem_nil

/-- What the processes have left in block `k`: the contents of the last change of
it, or what was on the disk. -/
def leftBy (disk : Key → Block) (as : List (Act Pid)) (k : Key) : Block :=
  as.foldl (fun v a => leave a k v) (disk k)

theorem sysInv_of_run {dev start : ℕ} {disk : Key → Block} {as : List (Act Pid)} :
    ∀ {s : Sys Pid}, run step (boot dev start disk) as = some s →
      SysInv s ∧ s.dev = dev ∧ s.start = start ∧
        ∀ k, ¬s.InLog k → s.cache.flat k = leftBy disk as k := by
  induction as using List.reverseRecOn with
  | nil =>
    intro s h
    rw [run_nil] at h
    obtain rfl := Option.some.inj h
    exact ⟨sysInv_boot dev start disk, rfl, rfl, fun _ _ => rfl⟩
  | append_singleton as a ih =>
    intro s h
    obtain ⟨u, hu, hs⟩ := run_concat.mp h
    obtain ⟨hinv, hdev, hstart, hflat⟩ := ih hu
    obtain ⟨hinv', hdev', hstart', hflat', -⟩ := hinv.step hs
    refine ⟨hinv', hdev'.trans hdev, hstart'.trans hstart, fun k hk => ?_⟩
    have hk' : ¬u.InLog k := by
      unfold Sys.InLog at hk ⊢
      rwa [← hdev', ← hstart']
    rw [hflat' k hk', hflat k hk', leftBy, leftBy, List.foldl_append]
    rfl

omit [DecidableEq Pid] in
/-- What the disk has of a block of the log that a process is reading: nobody has
a newer version of it. -/
theorem SysInv.disk_of_inLog (h : SysInv s) {p : Pid} {k : Key} {i : Slot}
    (hp : s.cache.pc p = .reading k i) (hk : s.InLog k) : s.cache.disk k = s.cache.flat k := by
  rcases h.cache.disk k with hdisk | ⟨j, hkey, hv, hd | hpend⟩
  · exact hdisk
  · -- only home blocks are marked
    exact absurd (hkey ▸ h.dirty j hd) hk.not_home
  · -- the buffer is the one that is being read, so nobody has changed it
    have hlock := (h.cache.buf i).reading p k hp
    have hlive : (s.cache.buf i).Live :=
      .inl ((h.cache.buf i).refcnt_pos_of_lock (by simp [hlock]))
    obtain rfl : j = i := h.cache.eq_of_key (.inr hv) hlive
      (hkey.trans ((h.cache.buf i).asked p k (.inr hp)).symm)
    obtain ⟨q, hq, hne⟩ := (h.cache.buf j).pending hpend
    obtain rfl := Option.some.inj (hlock.symm.trans hq)
    exact absurd hp (hne k)

/-- What `bread` returns. -/
theorem SysInv.bread_returns (h : SysInv s) {p : Pid} {k : Key} {i : Slot}
    (hp : s.cache.pc p = .reading k i) : ∃ t, Bio.step s (.next p) = some t ∧
      (t.cache.buf i).lock = some p ∧ (t.cache.buf i).key = k ∧
      (t.cache.buf i).data = s.cache.flat k := by
  have hnext : next s.cache p = .ok (bread s.cache p i) := by rw [next, hp]
  have hheld : Held s.cache p i k :=
    ⟨(h.cache.buf i).reading p k hp, (h.cache.buf i).asked p k (.inr hp)⟩
  obtain ⟨hlock, hkey⟩ := hheld.call (h.cache.call_next hnext) (.inr (by simp [bread, Cache.goto]))
  exact ⟨_, by rw [Bio.step, exec, hnext]; rfl, hlock, hkey, h.cache.bread_data hp⟩

/-- **The buffer cache and the log behave as one array of blocks.** In every state
that the system can reach:

* `bread` returns a buffer for the block it is asked for, locked by the caller, and
  with the contents that the last change of the block has left, or that were on the
  disk if there was none; a block of the log, which nobody else changes, is read as
  it is on the disk;
* a buffer that `log_write` has marked stays the buffer of its block, and marked,
  until `commit()` has written the contents of the block to the disk;
* a logged block has such a buffer unless it has been installed;
* no two buffers that are in use or have been read are for the same block. -/
theorem flat_array {dev start : ℕ} {disk : Key → Block} {as : List (Act Pid)}
    (h : run step (boot dev start disk) as = some s) :
    (∀ p k i, s.cache.pc p = .reading k i → ∃ t, step s (.next p) = some t ∧
      (t.cache.buf i).lock = some p ∧ (t.cache.buf i).key = k ∧
      (t.cache.buf i).data = if s.InLog k then s.cache.disk k else leftBy disk as k) ∧
    (∀ i, (s.cache.buf i).dirty = true → ∀ a t, step s a = some t →
      (t.cache.buf i).key = (s.cache.buf i).key ∧
      ((t.cache.buf i).dirty = true ∨ (∃ p, a = .commit p) ∧
        t.cache.disk (s.cache.buf i).key = leftBy disk as (s.cache.buf i).key)) ∧
    (∀ n b, s.log.lh[n]? = some b → Installed s n ∨
      ∃ i, (s.cache.buf i).key = (dev, b) ∧ (s.cache.buf i).valid = true ∧
        (s.cache.buf i).dirty = true) ∧
    ∀ i j, (s.cache.buf i).Live → (s.cache.buf j).Live →
      (s.cache.buf i).key = (s.cache.buf j).key → i = j := by
  obtain ⟨hinv, hdev, -, hflat⟩ := sysInv_of_run h
  refine ⟨fun p k i hp => ?_, fun i hd a t hst => ?_, ?_, fun i j => hinv.cache.eq_of_key⟩
  · obtain ⟨t, ht, hl, hk, hdata⟩ := hinv.bread_returns hp
    refine ⟨t, ht, hl, hk, hdata.trans ?_⟩
    split
    · exact (hinv.disk_of_inLog hp ‹_›).symm
    · exact hflat k ‹_›
  · obtain ⟨hk, hd' | ⟨hcommit, hdisk⟩⟩ := (hinv.step hst).2.2.2.2 i hd
    · exact ⟨hk, .inl hd'⟩
    · refine ⟨hk, .inr ⟨hcommit, hdisk.trans ?_⟩⟩
      rw [(hinv.cache.buf i).data ((hinv.cache.buf i).dirty hd)]
      exact hflat _ fun hlog => hlog.not_home (hinv.dirty i hd)
  · rw [← hdev]
    exact hinv.pinned

/-- A process changes block 50, logs it and gives it back; another one asks for
it. -/
def changeAndRead (x : Block) : List (Act ℕ) :=
  [.beginOp 0, .bread 0 (1, 50), .next 0, .next 0, .modify 0 0 (1, 50) x, .logWrite 0 0,
    .logAppend 0 0, .brelse 0 0, .next 0, .bread 1 (1, 50), .next 1]

/-- The other process reads what the first one wrote, which is not on the disk
yet. -/
theorem flat_array_changeAndRead : ∃ s t : Sys ℕ,
    run step (boot 1 2 fun _ _ => 0) (changeAndRead fun _ => 7) = some s ∧
      step s (.next 1) = some t ∧ (t.cache.buf 0).data = fun _ => 7 := by
  have hrun : (run step (boot 1 2 fun _ _ => 0) (changeAndRead fun _ => 7)).map
      (fun s => (s.cache.pc 1, s.dev, s.start)) = some (.reading (1, 50) 0, 1, 2) := by
    decide +kernel
  obtain ⟨s, hs, heq⟩ := Option.map_eq_some_iff.mp hrun
  simp only [Prod.mk.injEq] at heq
  obtain ⟨hpc, hdev, hstart⟩ := heq
  obtain ⟨t, ht, -, -, hdata⟩ := (flat_array hs).1 1 (1, 50) 0 hpc
  refine ⟨s, t, hs, ht, hdata.trans ?_⟩
  rw [if_neg (by rw [Sys.InLog, hdev, hstart]; decide)]
  rfl

end Xv6.Bio
