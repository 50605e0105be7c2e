import Xv6.Bio.Inv

/-!
# What a call to the buffer cache leaves alone

Between any two steps of a process the others may go on, so every argument about a
process that has buffers locked needs to know what their calls cannot do to it.
`Xv6.Bio.Call` says it once for the steps of `bget`, `bread` and `brelse`: they do
not change what the blocks should hold, they do not touch a buffer that somebody
else has locked, and they neither take away a buffer that is to be written nor
mark one.
-/

namespace Xv6.Bio

open Lib Function

variable {Pid : Type} [DecidableEq Pid]

/-- **What a step of a call to the cache leaves alone**, when process `p` makes
it: what the blocks should hold, the buffers that others have locked, and the
buffers that are to be written. -/
structure Call (p : Pid) (c c' : Cache Pid) : Prop where
  flat : c'.flat = c.flat
  pending : c'.pending = c.pending
  pc : ∀ q, q ≠ p → c'.pc q = c.pc q
  /-- Only the process itself gives a buffer back, in `brelse`. -/
  lock : ∀ q i, (c.buf i).lock = some q →
    (c'.buf i).lock = some q ∨ q = p ∧ c'.pc p = .releasing i
  own : ∀ q i, (c'.buf i).lock = some q → (c.buf i).lock = some q ∨ q = p
  key : ∀ i, (c.buf i).lock ≠ none → (c'.buf i).key = (c.buf i).key
  pin : ∀ i, (c.buf i).valid = true → (c.buf i).dirty = true →
    (c'.buf i).valid = true ∧ (c'.buf i).dirty = true ∧ (c'.buf i).key = (c.buf i).key
  dirty : ∀ i, (c'.buf i).dirty = true →
    (c.buf i).dirty = true ∧ (c'.buf i).key = (c.buf i).key

section Calls

variable {c c' : Cache Pid} {p : Pid} {i : Slot} {k : Key}

/-- A call that only changes one buffer, and there nothing that matters to
others. -/
theorem call_set {x : Pc} {b : Buf Pid}
    (hlock : ∀ q, (c.buf i).lock = some q → b.lock = some q ∨ q = p ∧ x = .releasing i)
    (hown : ∀ q, b.lock = some q → (c.buf i).lock = some q ∨ q = p)
    (hkey : (c.buf i).lock ≠ none → b.key = (c.buf i).key)
    (hpin : (c.buf i).valid = true → (c.buf i).dirty = true →
      b.valid = true ∧ b.dirty = true ∧ b.key = (c.buf i).key)
    (hdirty : b.dirty = true → (c.buf i).dirty = true ∧ b.key = (c.buf i).key) :
    Call p c ((c.set i b).goto p x) := by
  have hself : ((c.set i b).goto p x).buf i = b := update_self ..
  have hx : ((c.set i b).goto p x).pc p = x := update_self ..
  have hne : ∀ j, j ≠ i → ((c.set i b).goto p x).buf j = c.buf j :=
    fun j hj => update_of_ne hj ..
  refine ⟨rfl, rfl, fun q hq => update_of_ne hq .., fun q j => ?_, fun q j => ?_, fun j => ?_,
    fun j => ?_, fun j => ?_⟩
  all_goals rcases eq_or_ne j i with rfl | hj
  · rw [hself, hx]
    exact hlock q
  · rw [hne j hj]
    exact .inl
  · rw [hself]
    exact hown q
  · rw [hne j hj]
    exact .inl
  · rwa [hself]
  · rw [hne j hj]
    exact fun _ => rfl
  · rwa [hself]
  · rw [hne j hj]
    exact fun hv hd => ⟨hv, hd, rfl⟩
  · rwa [hself]
  · rw [hne j hj]
    exact fun hd => ⟨hd, rfl⟩

/-- A call that changes at most how many refer to a buffer. -/
theorem call_refcnt {x : Pc} {n : ℕ} :
    Call p c ((c.set i { c.buf i with refcnt := n }).goto p x) :=
  call_set (fun _ => .inl) (fun _ => .inl) (fun _ => rfl) (fun hv hd => ⟨hv, hd, rfl⟩)
    fun hd => ⟨hd, rfl⟩

theorem Inv.call_bget (h : Inv c) (hc : Bio.bget c p k = .ok c') : Call p c c' := by
  rcases bget_ok hc with ⟨i, -, rfl⟩ | ⟨i, -, hi, rfl⟩
  · exact call_refcnt
  · obtain ⟨href, hclean⟩ := Pool.refcnt_of_unused hi
    -- a buffer that is taken over is not locked and not dirty
    have hfree : (c.buf i).lock = none := by
      by_contra hl
      have := (h.buf i).refcnt_pos_of_lock hl
      omega
    exact call_set (fun q hq => .inl hq) (fun _ => .inl) (fun hl => absurd hfree hl)
      (fun _ hd => absurd hd (by simp [hclean])) fun hd => absurd hd (by simp)

theorem Inv.call_next (h : Inv c) (hc : Bio.next c p = .ok c') : Call p c c' := by
  rcases next_ok hc with ⟨k, i, -, hfree, rfl⟩ | ⟨k, i, -, rfl⟩ | ⟨i, -, rfl⟩
  · exact call_set (fun q hq => absurd hq (by simp [hfree]))
      (fun q hq => .inr (Option.some.inj hq).symm) (fun _ => rfl)
      (fun hv hd => ⟨hv, hd, rfl⟩) fun hd => ⟨hd, rfl⟩
  · unfold Bio.bread
    split
    · have hc' : c.goto p .idle = (c.set i (c.buf i)).goto p .idle := by simp [Cache.set]
      rw [hc']
      exact call_refcnt
    · rename_i hv
      have hd : (c.buf i).dirty = false := by
        by_contra hd
        exact hv ((h.buf i).dirty (by simpa using hd))
      rw [iderw, hd, if_neg (by simp)]
      exact call_set (fun _ => .inl) (fun _ => .inl) (fun _ => rfl) (fun hv' _ => absurd hv' hv)
        fun hd' => absurd hd' (by simp)
  · have hcall : Call p c ((c.set i { c.buf i with refcnt := (c.buf i).refcnt - 1 }).goto p
        .idle) := call_refcnt
    exact { hcall with }

theorem call_brelse (hc : Bio.brelse c p i = .ok c') : Call p c c' := by
  unfold Bio.brelse at hc
  split at hc
  · rename_i hl
    obtain rfl := Effect.ok.inj hc
    exact call_set (fun q hq => .inr ⟨(Option.some.inj (hl.symm.trans hq)).symm, rfl⟩)
      (fun q hq => absurd hq (by simp)) (fun _ => rfl) (fun hv hd => ⟨hv, hd, rfl⟩)
      fun hd => ⟨hd, rfl⟩
  · simp at hc

theorem pc_bget (hc : Bio.bget c p k = .ok c') : ∃ i, c'.pc p = .getting k i := by
  rcases bget_ok hc with ⟨i, -, rfl⟩ | ⟨i, -, -, rfl⟩
  · exact ⟨i, update_self ..⟩
  · exact ⟨i, update_self ..⟩

/-- How a process moves in a call. -/
theorem pc_next (hc : Bio.next c p = .ok c') : c.pc p ≠ .idle ∧
    ((∃ k i, c.pc p = .getting k i ∧ c'.pc p = .reading k i) ∨ c'.pc p = .idle) := by
  rcases next_ok hc with ⟨k, i, hp, -, rfl⟩ | ⟨k, i, hp, rfl⟩ | ⟨i, hp, rfl⟩
  · exact ⟨by simp [hp], .inl ⟨k, i, hp, update_self ..⟩⟩
  · exact ⟨by simp [hp], .inr (update_self ..)⟩
  · exact ⟨by simp [hp], .inr (update_self ..)⟩

theorem flat_bwrite (hc : Bio.bwrite c p i = .ok c') : c'.flat = c.flat := by
  unfold Bio.bwrite at hc
  split at hc
  · obtain rfl := Effect.ok.inj hc
    rw [iderw_dirty]
    rfl
  · simp at hc

end Calls

end Xv6.Bio
