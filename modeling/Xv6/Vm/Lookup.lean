import Xv6.Vm.Rule

/-!
# `mappages` as an operation on a map

A page directory is a map from page addresses to entries that are present (`Xv6.Vm.PageDir.entry`),
and `mappages` adds a range to it, page after page, or the first pages of the range if it cannot get
a page table (`Xv6.Vm.Adds`). New page tables are clear, and so they add nothing.

The loop of the source has one way out besides running out of memory: that `a` is `last`, where
`a` is a `uint` (`Xv6.Vm.mappagesUntil`). The loop gets there after as many rounds as `mappages`
counts here, also if the range is at the very end of the address space (`Xv6.Vm.mappages_laws`).
-/

namespace Xv6.Vm

open Lib

variable {k : Layout} {pd pd₁ pd' : PageDir} {perm : Perm} {a n : ℕ} {pa : Page}

/-- The loop of `mappages` with its own condition; no result if it has not ended yet. -/
def mappagesUntil (perm : Perm) (last : ℕ) :
    (fuel : ℕ) → PageDir → (a : ℕ) → (pa : Page) → VmM (Option (PageDir × Bool))
  | 0, _, _, _ => pure none
  | fuel + 1, pd, a, pa => do
    match ← walkpgdir pd a with
    | none => pure (some (pd, false))
    | some pd => do
      panicIf (∃ pte ∈ pd.look a, pte.p = true) "remap"
      let pd := pd.setPte a ⟨pa, true, perm.w, perm.u⟩
      if a = last then return some (pd, true)
      else mappagesUntil perm last fuel pd (uint (a + PGSIZE)) (pa + 1)

/-- The map has got `n` pages more, from `a` on. -/
structure Adds (pd pd' : PageDir) (a n : ℕ) (pa : Page) (perm : Perm) : Prop where
  ins : ∀ i < n, pd'.entry (a + i * PGSIZE) = some ⟨pa + i, true, perm.w, perm.u⟩
  out : ∀ wa < 2 ^ 32, wa % PGSIZE = 0 → (∀ i < n, wa ≠ a + i * PGSIZE) →
    pd'.entry wa = pd.entry wa

theorem Adds.refl (pd : PageDir) (a : ℕ) (pa : Page) (perm : Perm) : Adds pd pd a 0 pa perm :=
  ⟨fun i hi => absurd hi (Nat.not_lt_zero i), fun _ _ _ _ => rfl⟩

theorem next_page (a n : ℕ) : a + (n + 1) * PGSIZE = a + PGSIZE + n * PGSIZE := by
  rw [Nat.succ_mul]
  omega

theorem uint_next (hlast : a + (n + 2) * PGSIZE ≤ 2 ^ 32) : uint (a + PGSIZE) = a + PGSIZE := by
  rw [← Nat.cast_add]
  refine uint_of_lt ?_
  rw [PGSIZE] at *
  omega

/-- **The loop ends**, and does what the counted one does. -/
theorem mappagesUntil_eq {fuel : ℕ} (hlast : a + (n + 1) * PGSIZE ≤ 2 ^ 32) (hfuel : n < fuel) :
    mappagesUntil perm (a + n * PGSIZE) fuel pd a pa =
      mappagesLoop perm (n + 1) pd a pa >>= fun r => pure (some r) := by
  induction fuel generalizing n pd a pa with
  | zero => exact absurd hfuel (Nat.not_lt_zero n)
  | succ fuel ih =>
    rw [mappagesUntil, mappagesLoop, Prog.bind_assoc]
    refine congrArg _ (funext fun r => ?_)
    cases r with
    | none => rfl
    | some pd₁ =>
      cases n with
      | zero =>
        simp only [Nat.zero_mul, Nat.add_zero, if_true, Prog.bind_assoc]
        rfl
      | succ n =>
        have hne : a ≠ a + (n + 1) * PGSIZE := by
          rw [PGSIZE]
          omega
        simp only [if_neg hne, uint_next hlast, Prog.bind_assoc]
        refine congrArg _ (funext fun _ => ?_)
        rw [next_page] at hlast ⊢
        exact ih hlast (by omega)

/-- One page. A new page table for it adds nothing to the map. -/
theorem Walked.adds (h : Walked pd a pd₁) (ha : a % PGSIZE = 0) (hlt : a < 2 ^ 32) :
    Adds pd (pd₁.setPte a ⟨pa, true, perm.w, perm.u⟩) a 1 pa perm where
  ins i hi := by
    obtain rfl := Nat.lt_one_iff.mp hi
    rw [Nat.zero_mul, PageDir.entry, Nat.add_zero,
      PageDir.look_setPte_of_eq h.look_ne_none hlt hlt rfl]
    rfl
  out wa hwa hmod hne := by
    have hpage : wa / PGSIZE ≠ a / PGSIZE := by
      have := hne 0 Nat.one_pos
      rw [PGSIZE] at *
      omega
    rw [PageDir.entry, PageDir.look_setPte_of_ne hwa hlt hpage, PageDir.entry]
    rcases h.look_cases wa with e | ⟨e, e'⟩
    · rw [e]
    · rw [e, e']
      rfl

/-- The first page, and the rest. -/
theorem Adds.cons (h : Adds pd pd₁ a 1 pa perm) (h' : Adds pd₁ pd' (a + PGSIZE) n (pa + 1) perm)
    (ha : a % PGSIZE = 0) (hlt : a < 2 ^ 32) : Adds pd pd' a (n + 1) pa perm where
  ins i hi := by
    cases i with
    | zero =>
      have hout := h'.out a hlt ha fun i _ => by
        rw [PGSIZE]
        omega
      have hin := h.ins 0 Nat.one_pos
      rw [Nat.zero_mul] at hin ⊢
      exact hout.trans hin
    | succ i => rw [next_page, h'.ins i (by omega), Nat.add_right_comm, Nat.add_assoc pa i 1]
  out wa hwa hmod hne := by
    rw [h'.out wa hwa hmod fun i hi => next_page a i ▸ hne (i + 1) (by omega)]
    exact h.out wa hwa hmod fun i hi => hne i (by omega)

/-- The loop adds its pages, or those before the one that there is no page table for. -/
theorem wp_mappagesLoop {m : Mem} {Q : PageDir × Bool → Mem → Prop} (ha : a % PGSIZE = 0)
    (hlast : a + n * PGSIZE ≤ 2 ^ 32) (hfresh : ∀ i < n, pd.entry (a + i * PGSIZE) = none)
    (hQ : ∀ pd' ok m' i, ok = true ∧ i = n ∨ ok = false ∧ i < n ∧ (m.fails = [] → m'.free = 0) →
      Adds pd pd' a i pa perm → Q (pd', ok) m') : (vm k fun _ => True).wp (mappagesLoop perm n pd a pa) Q m := by
  induction n generalizing pd a pa m Q with
  | zero => exact hQ pd true m 0 (.inl ⟨rfl, rfl⟩) (.refl ..)
  | succ n ih =>
    have hlt : a < 2 ^ 32 := by
      rw [PGSIZE] at hlast
      omega
    refine .bind (wp_walkpgdir (fun pd₁ m₁ hw _ hnext _ => ?_) fun m₁ hfree _ hout =>
      hQ pd false m₁ 0 (.inr ⟨rfl, Nat.succ_pos n, fun e => hfree.trans (hout e)⟩) (.refl ..))
    have hnew := hfresh 0 (Nat.succ_pos n)
    rw [Nat.zero_mul, Nat.add_zero, PageDir.entry_eq_none_iff] at hnew
    refine .bind (wp_panicIf (fun h => absurd h (hw.not_present hnew)) fun _ => ?_)
    have hone : Adds pd (pd₁.setPte a ⟨pa, true, perm.w, perm.u⟩) a 1 pa perm := hw.adds ha hlt
    cases n with
    | zero => exact hQ _ true m₁ 1 (.inl ⟨rfl, rfl⟩) hone
    | succ n =>
      rw [uint_next hlast]
      rw [next_page] at hlast
      have ha' : (a + PGSIZE) % PGSIZE = 0 := by rwa [Nat.add_mod_right]
      refine ih ha' hlast (fun i hi => ?_) fun pd' ok m' i hi h' => ?_
      · rw [hone.out _ ?_ ?_ ?_, ← next_page]
        · exact hfresh (i + 1) (by omega)
        all_goals
          rw [PGSIZE] at *
          intros
          omega
      · exact hQ pd' ok m' (i + 1) (hi.imp (.imp_right (by omega))
          (.imp_right (.imp (by omega) fun h e => h (hnext e)))) (hone.cons h' ha hlt)

/-- **The laws of `mappages`.** If nothing is mapped in a range, then `mappages` ends, whatever the
allocator does. Either all pages up to that of the last byte have been added to the map or, if a
page table could not be allocated, the first ones: then no page is free, unless a `kalloc` has failed
on its own. Every other address is mapped as before. -/
theorem mappages_laws (k : Layout) (m : Mem) (pd : PageDir) (va size : ℕ) (pa : Page) (perm : Perm)
    (halign : va % PGSIZE = 0) (hpos : 0 < size) (hlast : va + size ≤ 2 ^ 32)
    (hfresh : ∀ i, va + i * PGSIZE ≤ PGROUNDDOWN (va + size - 1) →
      pd.entry (va + i * PGSIZE) = none) :
    ∃ pd' ok m' n, (mappages pd va size pa perm).exec (handle k) m = .ok ((pd', ok), m') ∧
      (∀ fuel, size / PGSIZE < fuel →
        (mappagesUntil perm (PGROUNDDOWN (va + size - 1)) fuel pd va pa).exec (handle k) m =
          .ok (some (pd', ok), m')) ∧
      (ok = true ∧ va + n * PGSIZE = PGROUNDDOWN (va + size - 1) + PGSIZE ∨
        ok = false ∧ va + n * PGSIZE ≤ PGROUNDDOWN (va + size - 1) ∧
          (m.fails = [] → m'.free = 0)) ∧
      Adds pd pd' va n pa perm := by
  obtain ⟨n, hn, hle⟩ : ∃ n, PGROUNDDOWN (va + size - 1) = va + n * PGSIZE ∧ n ≤ size / PGSIZE := by
    refine ⟨(size - 1) / PGSIZE, ?_, Nat.div_le_div_right (Nat.sub_le size 1)⟩
    rw [PGROUNDDOWN]
    rw [PGSIZE] at *
    omega
  have hend : va + (n + 1) * PGSIZE ≤ 2 ^ 32 := by
    rw [PGROUNDDOWN] at hn
    rw [PGSIZE] at *
    omega
  have hcount : mappages pd va size pa perm = mappagesLoop perm (n + 1) pd va pa := by
    have hu : uint ((va : ℤ) + size - 1) = va + size - 1 := by
      rw [uint]
      omega
    have hd : uint (((va + n * PGSIZE : ℕ) : ℤ) - va) / PGSIZE = n := by
      rw [PGSIZE] at *
      rw [uint]
      omega
    rw [mappages, hu, hn, PGROUNDDOWN_of_aligned halign, hd]
  rw [hn] at hfresh ⊢
  rw [hcount]
  have hle' : ∀ i < n + 1, va + i * PGSIZE ≤ va + n * PGSIZE := fun i hi =>
    Nat.add_le_add_left (Nat.mul_le_mul_right _ (Nat.le_of_lt_succ hi)) va
  rcases Logic.ok_or_panic (fun _ _ => trivial) handle_ne_disabled
    (wp_mappagesLoop (k := k) (m := m) (Q := fun x m' => ∃ i, (x.2 = true ∧ i = n + 1 ∨
        x.2 = false ∧ i < n + 1 ∧ (m.fails = [] → m'.free = 0)) ∧ Adds pd x.1 va i pa perm)
      halign hend
      (fun i hi => hfresh i (hle' i hi)) fun _ _ _ i hi h => ⟨i, hi, h⟩) with
    ⟨⟨⟨pd', ok⟩, m'⟩, hx, i, hi, hadds⟩ | ⟨msg, -, hbad⟩
  · refine ⟨pd', ok, m', i, hx, fun fuel hfuel => ?_, ?_, hadds⟩
    · rw [mappagesUntil_eq hend (by omega)]
      exact Prog.exec_bind_ok hx _
    · exact hi.imp (.imp_right fun hi => by rw [hi, next_page, Nat.add_right_comm])
        (.imp_right (.imp_left (hle' i)))
  · exact absurd trivial hbad

/-- The last two pages of the devices are mapped, and the loop ends although the page after them
would be at address `0`. -/
theorem mappages_laws_devspace : ∃ pd' m',
    (mappages ⟨300, fun _ => none⟩ 0xFFFFE000 0x2000 0xFFFFE ⟨true, false⟩).exec
      (handle smallKernel) ⟨[301, 302], []⟩ = .ok ((pd', true), m') ∧
    (mappagesUntil ⟨true, false⟩ 0xFFFFF000 3 ⟨300, fun _ => none⟩ 0xFFFFE000 0xFFFFE).exec
      (handle smallKernel) ⟨[301, 302], []⟩ = .ok (some (pd', true), m') ∧
    Adds ⟨300, fun _ => none⟩ pd' 0xFFFFE000 2 0xFFFFE ⟨true, false⟩ := by
  obtain ⟨pd', ok, m', n, hx, huntil, hn, hadds⟩ := mappages_laws smallKernel ⟨[301, 302], []⟩
    ⟨300, fun _ => none⟩ 0xFFFFE000 0x2000 0xFFFFE ⟨true, false⟩ (by decide) (by decide) (by decide)
    fun _ _ => rfl
  obtain rfl : ok = true := by
    have hrun := Effect.ok.inj (hx.symm.trans rfl)
    exact congrArg (·.1.2) hrun
  obtain ⟨-, hn⟩ | ⟨hc, -⟩ := hn
  · obtain rfl : n = 2 := by
      rw [PGROUNDDOWN, PGSIZE] at hn
      omega
    exact ⟨pd', m', hx, huntil 3 (by decide), hadds⟩
  · cases hc

end Xv6.Vm
