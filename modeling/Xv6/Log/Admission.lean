import Mathlib.Algebra.Order.BigOperators.Group.Finset
import Xv6.Log.GroupCommit

/-!
# Admission control and the size of the log

`begin_op` admits an operation when the blocks already in the header, plus
`MAXOPBLOCKS` for every operation in progress and for the new one, make at most
`LOGSIZE`. `log_write` stops the kernel when the header holds `log.size - 1`
blocks, the first block of the log being the header's; and `mkfs` makes the log
`LOGSIZE` blocks long, header included. The two bounds are off by one: three
operations that log `MAXOPBLOCKS` blocks each are admitted together and the last
of their thirty blocks does not fit
(`Xv6.Log.three_ops_panic`).

With one block less the reservations would do. The blocks in the header and the blocks that the
operations in progress may still add make a number that only an admission increases
(`Xv6.Log.Room`); so if `begin_op` leaves less than `log.size - 1` by its own count, whenever it admits
an operation, then no `log_write` stops the kernel (`Xv6.Log.noTooBig_of_spared`).
-/

namespace Xv6.Log

open Lib List

variable {Pid : Type} [DecidableEq Pid] {as : List (Act Pid)} {size : ℤ} {s : St Pid}

/-! ### Reading a schedule -/

/-- The blocks process `p` has called `log_write` for since its last
`begin_op`. -/
def opBlocks (p : Pid) (as : List (Act Pid)) : List ℕ :=
  as.foldl (fun bs a => match a with
    | .beginOp q => if q = p then [] else bs
    | .logWrite q b => if q = p then b :: bs else bs
    | _ => bs) []

/-- The actions of the list can be taken one after the other, the last one
possibly stopping the kernel. -/
def Possible (size : ℤ) (as : List (Act Pid)) : Prop :=
  ∀ l a, l ++ [a] <+: as → ∃ s, run step (init size) l = some s ∧ exec s a ≠ .disabled

/-- Every operation logs at most `MAXOPBLOCKS` different blocks. -/
def OpBound (as : List (Act Pid)) : Prop :=
  ∀ l, l <+: as → ∀ p, (opBlocks p l).toFinset.card ≤ MAXOPBLOCKS

/-- No `log_write` of the list finds the transaction too big. -/
def NoTooBig (size : ℤ) (as : List (Act Pid)) : Prop :=
  ∀ l p b, l ++ [.logWrite p b] <+: as → ∀ s, run step (init size) l = some s →
    exec s (.logWrite p b) ≠ .panic "too big a transaction"

/-- Whenever `begin_op` admits an operation, the blocks in the header and the reservations make less
than the blocks of the log. -/
def Spared (size : ℤ) (as : List (Act Pid)) : Prop :=
  ∀ l p, l ++ [.beginOp p] <+: as → ∀ s, run step (init size) l = some s → s.committing = false →
    (s.lh.length : ℤ) + (s.outstanding + 1) * MAXOPBLOCKS ≤ LOGSIZE →
    (s.lh.length : ℤ) + (s.outstanding + 1) * MAXOPBLOCKS < min (LOGSIZE : ℤ) (size - 1)

/-! ### What is left of the reservations -/

/-- The blocks of the operation of `p` that are in the header. -/
def used (p : Pid) (as : List (Act Pid)) (lh : List ℕ) : Finset ℕ :=
  (opBlocks p as).toFinset ∩ lh.toFinset

/-- How many blocks the operations in `F` may still add to the header. -/
def reserve (F : Finset Pid) (as : List (Act Pid)) (lh : List ℕ) : ℕ :=
  ∑ p ∈ F, (MAXOPBLOCKS - (used p as lh).card)

/-- **What admission control keeps**: the blocks in the header and those that the operations in
progress may still add are fewer than the blocks of the log. -/
structure Room (size : ℤ) (as : List (Act Pid)) (s : St Pid) : Prop where
  /-- A block that is about to be stored is one of the operation. -/
  logging : ∀ p b, s.pc p = .logging b → b ∈ opBlocks p as
  room : ∀ F : Finset Pid, (∀ p, p ∈ F ↔ (s.pc p).InOp) → F.Nonempty →
    (s.lh.length : ℤ) + reserve F as s.lh < min (LOGSIZE : ℤ) (size - 1)

theorem opBlocks_concat (p : Pid) (as : List (Act Pid)) (a : Act Pid) :
    opBlocks p (as ++ [a]) = match a with
      | .beginOp q => if q = p then [] else opBlocks p as
      | .logWrite q b => if q = p then b :: opBlocks p as else opBlocks p as
      | _ => opBlocks p as := by
  simp only [opBlocks, foldl_append, foldl_cons, foldl_nil]

theorem size_of_run (h : run step (init size) as = some s) : s.size = size := by
  refine run_invariant (P := fun s => s.size = size) ?_ rfl h
  intro s t a hs hst
  cases Step.of_step hst <;> exact hs

/-- The one test of `log_write` that counts blocks. -/
theorem exec_logWrite_eq_tooBig {p : Pid} {b : ℕ} (hp : s.pc p = .inOp) :
    exec s (.logWrite p b) = .panic "too big a transaction" ↔
      (LOGSIZE : ℤ) ≤ s.lh.length ∨ s.size - 1 ≤ s.lh.length := by
  simp only [exec, if_pos hp, logWrite]
  split
  · exact iff_of_true rfl ‹_›
  · refine iff_of_false ?_ ‹_›
    split <;> simp

theorem opBlocks_subset {p : Pid} {a : Act Pid} (ha : a ≠ .beginOp p) :
    opBlocks p as ⊆ opBlocks p (as ++ [a]) := by
  rw [opBlocks_concat]
  cases a with
  | beginOp q =>
    dsimp only
    rw [if_neg fun e => ha (by rw [e])]
    exact List.Subset.refl _
  | logWrite q b =>
    dsimp only
    split
    · exact subset_cons_self ..
    · exact List.Subset.refl _
  | _ => exact List.Subset.refl _

theorem used_subset {p : Pid} {as' : List (Act Pid)} {lh lh' : List ℕ}
    (has : opBlocks p as ⊆ opBlocks p as') (hlh : lh ⊆ lh') : used p as lh ⊆ used p as' lh' := by
  intro b hb
  rw [used, Finset.mem_inter, mem_toFinset, mem_toFinset] at *
  exact ⟨has hb.1, hlh hb.2⟩

section

variable {t : St Pid} {a : Act Pid} {as' : List (Act Pid)} {lh lh' : List ℕ} {F G : Finset Pid}

theorem reserve_mono (hFG : F ⊆ G) (h : ∀ p ∈ F, used p as lh ⊆ used p as' lh') :
    reserve F as' lh' ≤ reserve G as lh :=
  (Finset.sum_le_sum fun p hp => Nat.sub_le_sub_left (Finset.card_le_card (h p hp)) _).trans
    (Finset.sum_le_sum_of_subset hFG)

/-- A block of an operation that is new in the header takes one from the reservation. -/
theorem reserve_absorb {p : Pid} {b : ℕ} (hFG : F ⊆ G) (hp : p ∈ F)
    (h : ∀ q ∈ F, used q as lh ⊆ used q as' (absorb b lh)) (hb : b ∈ opBlocks p as')
    (hnew : b ∉ lh) (hle : (opBlocks p as').toFinset.card ≤ MAXOPBLOCKS) :
    reserve F as' (absorb b lh) + 1 ≤ reserve G as lh := by
  have hlt : (used p as lh).card < (used p as' (absorb b lh)).card := by
    refine Finset.card_lt_card ⟨h p hp, fun hc => ?_⟩
    have hmem : b ∈ used p as' (absorb b lh) :=
      Finset.mem_inter.mpr ⟨mem_toFinset.mpr hb, mem_toFinset.mpr (mem_absorb.mpr (.inl rfl))⟩
    exact hnew (mem_toFinset.mp (Finset.mem_inter.mp (hc hmem)).2)
  have hused : (used p as' (absorb b lh)).card ≤ MAXOPBLOCKS :=
    (Finset.card_le_card Finset.inter_subset_left).trans hle
  refine Nat.succ_le_of_lt ((Finset.sum_lt_sum (fun q hq => Nat.sub_le_sub_left
    (Finset.card_le_card (h q hq)) _) ⟨p, hp, ?_⟩).trans_le (Finset.sum_le_sum_of_subset hFG))
  omega

/-- A process that is about to store a block has tested for it. -/
theorem logging_of_step {p : Pid} {b : ℕ} (h : step s a = some t) (hp : t.pc p = .logging b) :
    s.pc p = .logging b ∨ a = .logWrite p b := by
  have moved : ∀ {s' : St Pid} {q : Pid} {pc : Pc}, (s'.goto q pc).pc p = .logging b →
      (pc = .logging b → q = p → a = .logWrite p b) → (s'.pc p = .logging b → s.pc p = .logging b) →
      s.pc p = .logging b ∨ a = .logWrite p b := by
    intro s' q pc hgoto hpc hs'
    rcases eq_or_ne p q with rfl | hne
    · rw [goto_pc_self] at hgoto
      exact .inr (hpc hgoto rfl)
    · rw [goto_pc_of_ne _ _ hne] at hgoto
      exact .inl (hs' hgoto)
  have hwake : ∀ s' : St Pid, s'.wakeup.pc p = .logging b → s'.pc p = .logging b := by
    intro s' hw
    change (if s'.pc p = .sleeping then Pc.woken else s'.pc p) = _ at hw
    split at hw
    · cases hw
    · exact hw
  cases Step.of_step h with
  | test q c => exact moved hp (fun e hq => by cases e; rw [hq]) id
  | leave q | finish q => exact moved hp (fun e => by cases e) (hwake _)
  | _ => exact moved hp (fun e => by cases e) id

/-- **The reservations are kept by every step**, if there is room for them at each admission. -/
theorem Room.step (hs : Inv s) (h : Room size as s) (hst : step s a = some t)
    (hop : ∀ p, (opBlocks p (as ++ [a])).toFinset.card ≤ MAXOPBLOCKS)
    (hspare : ∀ p, a = .beginOp p → s.committing = false →
      (s.lh.length : ℤ) + (s.outstanding + 1) * MAXOPBLOCKS ≤ LOGSIZE →
      (s.lh.length : ℤ) + (s.outstanding + 1) * MAXOPBLOCKS < min (LOGSIZE : ℤ) (size - 1)) :
    Room size (as ++ [a]) t := by
  have hbegin : ∀ p, (s.pc p).InOp → a ≠ .beginOp p := by
    rintro p hp rfl
    cases Step.of_step hst with
    | sleep _ hpc | enter _ hpc => rcases hpc with e | e <;> simp [e, Pc.InOp] at hp
  refine ⟨fun p b hp => ?_, fun F hF hne => ?_⟩
  · rcases logging_of_step hst hp with hlog | rfl
    · exact opBlocks_subset (hbegin p (by simp [hlog, Pc.InOp])) (h.logging p b hlog)
    · rw [opBlocks_concat]
      simp
  obtain ⟨G, hG, -⟩ := hs.count
  by_cases hnew : ∃ p, a = .beginOp p ∧ (t.pc p).InOp
  · obtain ⟨p, rfl, hp⟩ := hnew
    have hcard : t.outstanding = F.card := (hs.step hst).count.unique ⟨F, hF, rfl⟩
    have hle : reserve F (as ++ [.beginOp p]) t.lh ≤ F.card * MAXOPBLOCKS :=
      Finset.sum_le_card_nsmul _ _ _ fun q _ => Nat.sub_le _ _
    cases Step.of_step hst with
    | sleep => rw [goto_pc_self] at hp; exact hp.elim
    | enter _ _ hc hroom =>
      have hlt := hspare p rfl hc hroom
      simp only [goto_lh, goto_outstanding] at hcard hle ⊢
      rw [hcard] at hlt
      exact lt_of_le_of_lt (Int.add_le_add_left (by exact_mod_cast hle) _) hlt
  -- Nobody enters, and the operations keep their blocks.
  have hkeep : ∀ q ∈ F, q ∈ G ∧ opBlocks q as ⊆ opBlocks q (as ++ [a]) := by
    intro q hq
    have hq' := (hF q).mp hq
    have ha : a ≠ .beginOp q := fun e => hnew ⟨q, e, hq'⟩
    refine ⟨(hG q).mpr ?_, opBlocks_subset ha⟩
    by_contra hc
    exact not_inOp_of_step hst hc ha hq'
  have hFG : F ⊆ G := fun q hq => (hkeep q hq).1
  have hold := h.room G hG (hne.mono hFG)
  have hsame : t.lh = s.lh → (t.lh.length : ℤ) + reserve F (as ++ [a]) t.lh <
      min (LOGSIZE : ℤ) (size - 1) := by
    intro e
    rw [e]
    refine lt_of_le_of_lt (Int.add_le_add_left (Int.ofNat_le.mpr ?_) _) hold
    exact reserve_mono hFG fun q hq => used_subset (hkeep q hq).2 (List.Subset.refl _)
  cases hstep : Step.of_step hst with
  | append p b hpc =>
    by_cases hb : b ∈ s.lh
    · exact hsame (by rw [goto_lh, absorb_eq, if_pos hb])
    · have hres := reserve_absorb hFG ((hF p).mpr (by rw [goto_pc_self]; trivial))
        (fun q hq => used_subset (hkeep q hq).2 fun x hx => mem_absorb.mpr (.inr hx))
        (opBlocks_subset (by simp) (h.logging p b hpc)) hb (hop p)
      have hlen : (absorb b s.lh).length = s.lh.length + 1 := by
        rw [absorb_eq, if_neg hb, length_append, length_singleton]
      simp only [goto_lh]
      omega
  | clear p hpc =>
    obtain ⟨q, hq⟩ := hne
    exact absurd ((hG q).mp (hFG hq)) (hs.not_inOp (p := p) (by simp [hpc, Pc.InCommit]))
  | _ => exact hsame rfl

theorem room_of_run (hop : OpBound as) (hspare : Spared size as) : ∀ {l : List (Act Pid)} {s : St Pid},
    l <+: as → run step (init size) l = some s → Room size l s := by
  intro l
  induction l using List.reverseRecOn with
  | nil =>
    intro s _ h
    rw [run_nil] at h
    obtain rfl := Option.some.inj h
    refine ⟨fun p b hp => by simp [init] at hp, fun F hF hne => ?_⟩
    obtain ⟨p, hp⟩ := hne
    exact ((hF p).mp hp).elim
  | append_singleton l a ih =>
    intro s hl h
    obtain ⟨u, hu, hs⟩ := run_concat.mp h
    refine (ih ((prefix_append l [a]).trans hl) hu).step (inv_of_run hu) hs (hop _ hl) ?_
    rintro p rfl
    exact hspare l p hl u hu

end

/-- **With a block to spare the reservations protect the log.** If every operation logs at most
`MAXOPBLOCKS` different blocks, and whenever `begin_op` admits one the blocks in the header and the
reservations make less than `log.size - 1`, then no `log_write` finds the transaction too big, however
the operations are interleaved. -/
theorem noTooBig_of_spared (hop : OpBound as) (hspare : Spared size as) : NoTooBig size as := by
  intro l p b hl s hs hpanic
  have hp : s.pc p = .inOp := by
    by_contra hc
    rw [exec, if_neg hc] at hpanic
    cases hpanic
  obtain ⟨F, hF, -⟩ := (inv_of_run hs).count
  have hroom := (room_of_run hop hspare ((prefix_append l _).trans hl) hs).room F hF
    ⟨p, (hF p).mpr (by simp [hp, Pc.InOp])⟩
  rw [exec_logWrite_eq_tooBig hp, size_of_run hs] at hpanic
  omega

/-- Two processes, of which the second is admitted when the first has stored a block. -/
def twoOps : List (Act (Fin 3)) :=
  [.beginOp 0, .logWrite 0 5, .logAppend 0 5, .beginOp 1, .logWrite 1 6, .logAppend 1 6, .logWrite 0 6]

theorem noTooBig_twoOps : OpBound twoOps ∧ Spared LOGSIZE twoOps ∧ NoTooBig LOGSIZE twoOps := by
  have hop : ∀ l ∈ twoOps.inits, ∀ p, (opBlocks p l).toFinset.card ≤ MAXOPBLOCKS := by
    decide +kernel
  have hspare : ∀ l ∈ twoOps.inits, (run step (init LOGSIZE) l).all fun s =>
      (s.lh.length : ℤ) + (s.outstanding + 1) * MAXOPBLOCKS ≤ LOGSIZE →
        (s.lh.length : ℤ) + (s.outstanding + 1) * MAXOPBLOCKS < min (LOGSIZE : ℤ) (LOGSIZE - 1) := by
    decide +kernel
  have hop' : OpBound twoOps := fun l hl => hop l ((mem_inits l _).mpr hl)
  have hspare' : Spared LOGSIZE twoOps := by
    intro l p hl s hs _
    have := hspare l ((mem_inits l _).mpr ((prefix_append l _).trans hl))
    rw [hs] at this
    exact of_decide_eq_true this
  exact ⟨hop', hspare', noTooBig_of_spared hop' hspare'⟩

/-! ### Three operations that fill the log -/

/-- What a run takes step by step is possible, and so is one more action. -/
theorem possible_concat {a : Act Pid} (h : run step (init size) as = some s)
    (ha : exec s a ≠ .disabled) :
    Possible size (as ++ [a]) := by
  intro l c hl
  rcases prefix_concat_iff.mp hl with heq | hpre
  · obtain ⟨rfl, hc⟩ := append_inj' heq rfl
    obtain rfl : c = a := singleton_inj.mp hc
    exact ⟨s, h, ha⟩
  · obtain ⟨l', rfl⟩ := hpre
    rw [append_assoc] at h
    obtain ⟨u, hu, h⟩ := run_append.mp h
    obtain ⟨v, hv, -⟩ := run_cons.mp h
    refine ⟨u, hu, fun hd => ?_⟩
    simp [step, hd, Effect.toOption] at hv

/-- The calls of `log_write` by `p` for the blocks of a list. -/
def logAll (p : Fin 3) (bs : List ℕ) : List (Act (Fin 3)) :=
  bs.flatMap fun b => [.logWrite p b, .logAppend p b]

/-- Three operations start together; two log ten blocks each and the third nine,
all different. -/
def fillLog : List (Act (Fin 3)) :=
  [.beginOp 0, .beginOp 1, .beginOp 2] ++ logAll 0 (List.range 10) ++
    logAll 1 (List.range' 10 10) ++ logAll 2 (List.range' 20 9)

/-- **Three operations within their reservation stop the kernel**: none of them
logs more than `MAXOPBLOCKS` blocks, yet the last block of the third does not
fit. -/
theorem three_ops_panic : Possible LOGSIZE (fillLog ++ [.logWrite 2 29]) ∧
    OpBound (fillLog ++ [.logWrite 2 29]) ∧ ¬NoTooBig LOGSIZE (fillLog ++ [.logWrite 2 29]) := by
  have hrun : (run step (init LOGSIZE) fillLog).any fun s =>
      s.pc 2 = .inOp ∧ s.size - 1 ≤ (s.lh.length : ℤ) := by decide +kernel
  obtain ⟨s, hs, hp, hn⟩ : ∃ s, run step (init LOGSIZE) fillLog = some s ∧ s.pc 2 = .inOp ∧
      s.size - 1 ≤ s.lh.length := by simpa [Option.any_eq_true] using hrun
  have htoo := (exec_logWrite_eq_tooBig (b := 29) hp).mpr (.inr hn)
  refine ⟨possible_concat hs (by rw [htoo]; simp), ?_, ?_⟩
  · have hall : ∀ l ∈ (fillLog ++ [Act.logWrite 2 29]).inits, ∀ p,
        (opBlocks p l).toFinset.card ≤ MAXOPBLOCKS := by decide +kernel
    exact fun l hl => hall l ((mem_inits l _).mpr hl)
  · exact fun h => h fillLog 2 29 (prefix_refl _) s hs htoo

end Xv6.Log
