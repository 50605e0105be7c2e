import Xv6.Vm.Table

/-!
# Rules for the functions on page directories

For every function of `vm.c` one rule, with two things in it. What the function does to the
map: `mappages` adds a range (`Xv6.Vm.Maps`), `deallocuvm` takes one away (`Xv6.Vm.Unmaps`). And
what becomes of the pages: the free pages together with the pages of the page directory
(`Xv6.Vm.Mem.all`) are the same before and after, however the function ends. From this it
follows that a page is freed only if it is one of the allocator's, so none of the functions
stops the system.

A function that fails for lack of memory says so: if no call of `kalloc` fails on its own,
then the list of the free pages is empty at that time (`Xv6.Vm.Mem.Out`).
-/

namespace Xv6.Vm

open Lib List

variable {k : Layout} {bad : String → Prop} {m : Mem} {α : Type} {pd pd' : PageDir} {va : ℕ}
  {Q : Unit → Mem → Prop} {perm : Perm}

/-- The logic of the memory. -/
def vm (k : Layout) (bad : String → Prop) : Logic Op.Res Mem :=
  ⟨handle k, fun _ _ => True, fun _ _ => True, bad, True⟩

/-- The free pages. -/
def Mem.free (m : Mem) : Multiset Page := m.freelist

/-- The free pages, and some others. -/
def Mem.all (m : Mem) (P : Multiset Page) : Multiset Page := m.free + P

theorem Mem.mem_all {P : Multiset Page} {x : Page} : x ∈ m.all P ↔ x ∈ m.free ∨ x ∈ P := by
  rw [Mem.all, Multiset.mem_add]

/-- There is no memory left, or a call has failed on its own. -/
def Mem.Out (m : Mem) : Prop := m.fails = [] → m.free = 0

/-- No call is going to fail on its own if none was before. -/
def Mem.Next (m m' : Mem) : Prop := m.fails = [] → m'.fails = []

theorem Mem.Next.refl (m : Mem) : m.Next m := id

theorem Mem.Next.trans {m' m'' : Mem} (h : m.Next m') (h' : m'.Next m'') : m.Next m'' :=
  fun e => h' (h e)

/-! ### Operations -/

theorem handle_ne_disabled (o : Op) (m : Mem) : handle k o m ≠ .disabled := by
  intro he
  cases o with
  | panic msg => cases he
  | kalloc =>
    obtain ⟨free, fails⟩ := m
    cases fails with
    | nil => cases free <;> cases he
    | cons b fails => cases b <;> cases free <;> cases he
  | kfree v =>
    rw [handle] at he
    split at he <;> cases he

/-- A program always comes to an end, or stops the system. -/
theorem exec_ne_disabled (p : VmM α) (m : Mem) : p.exec (handle k) m ≠ .disabled :=
  Prog.exec_ne_disabled handle_ne_disabled p m

theorem wp_panicIf {c : Prop} [Decidable c] {msg : String} (hbad : c → ¬bad msg)
    (hQ : ¬c → Q () m) : (vm k bad).wp (panicIf c msg) Q m := by
  rw [panicIf]
  split
  next hc => exact fun _ => ⟨trivial, hbad hc⟩
  next hc => exact hQ hc

theorem wp_kalloc {Q : Option Page → Mem → Prop}
    (hsome : ∀ v m', m.free = {v} + m'.free → m.Next m' → Q (some v) m')
    (hnone : ∀ m', m'.free = m.free → m.Next m' → m.Out → Q none m') :
    (vm k bad).wp kalloc Q m := by
  refine fun _ => ⟨trivial, ?_⟩
  obtain ⟨free, fails⟩ := m
  have htail : ∀ free', Mem.Next ⟨free, fails⟩ ⟨free', fails.tail⟩ := by
    intro free' (e : fails = [])
    rw [e]
    rfl
  match fails, free with
  | true :: fails, free => exact hnone ⟨free, fails⟩ rfl (by rintro ⟨⟩) (by rintro ⟨⟩)
  | false :: fails, [] => exact hnone ⟨[], fails⟩ rfl (by rintro ⟨⟩) fun _ => rfl
  | [], [] => exact hnone ⟨[], []⟩ rfl (htail []) fun _ => rfl
  | false :: fails, r :: free => exact hsome r ⟨free, fails⟩ rfl (by rintro ⟨⟩)
  | [], r :: free => exact hsome r ⟨free, []⟩ rfl (htail free)

theorem wp_kfree {v : Page} (hv : k.Has v)
    (hQ : ∀ m', m'.free = {v} + m.free → m'.fails = m.fails → Q () m') :
    (vm k bad).wp (kfree v) Q m := by
  refine fun _ => ⟨trivial, ?_⟩
  change (vm k bad).Outcome _ (handle k (.kfree v) m)
  rw [handle, if_pos hv]
  exact hQ _ rfl rfl

/-! ### Adding to the map -/

/-- The pages from `a` to `b` have been added to the map, with `PTE_U` or without. -/
structure Maps (pd pd' : PageDir) (a b : ℕ) (u : Bool) : Prop where
  ins : ∀ va, a ≤ va → va < b → ∃ pte ∈ pd'.look va, pte.p = true ∧ pte.u = u
  out : ∀ va < 2 ^ 32, ¬(a ≤ va ∧ va < b) → pd'.look va = pd.look va ∨
    pd.look va = none ∧ pd'.look va = some .zero
  none_iff : ∀ va < 2 ^ 32, pd'.look va = none ↔
    pd.look va = none ∧ ∀ wa, a ≤ wa → wa < b → PDX wa ≠ PDX va
  page : pd'.page = pd.page

namespace Maps

variable {pd pd' pd'' : PageDir} {a b c va : ℕ} {u : Bool}

theorem refl (pd : PageDir) (a : ℕ) (u : Bool) : Maps pd pd a a u where
  ins va h h' := absurd h (by omega)
  out _ _ _ := .inl rfl
  none_iff va _ := ⟨fun h => ⟨h, fun wa h h' => absurd h (by omega)⟩, And.left⟩
  page := rfl

variable (h : Maps pd pd' a b u)
include h

theorem trans (h' : Maps pd' pd'' b c u) (hab : a ≤ b) (hbc : b ≤ c)
    (hc : c ≤ 2 ^ 32) : Maps pd pd'' a c u where
  ins va hva hva' := by
    by_cases hb : va < b
    · obtain ⟨pte, hpte, hp⟩ := h.ins va hva hb
      refine ⟨pte, ?_, hp⟩
      rcases h'.out va (by omega) (by omega) with e | ⟨e, -⟩
      · rwa [e]
      · rw [hpte] at e
        cases e
    · exact h'.ins va (by omega) hva'
  out va hva hno := by
    have h1 := h.out va hva (by omega)
    have h2 := h'.out va hva (by omega)
    rcases h1 with h1 | ⟨h1, h1'⟩
    · rwa [h1] at h2
    · rcases h2 with h2 | ⟨h2, -⟩
      · exact .inr ⟨h1, h2.trans h1'⟩
      · rw [h1'] at h2
        cases h2
  none_iff va hva := by
    rw [h'.none_iff va hva, h.none_iff va hva]
    refine ⟨fun ⟨⟨h0, h1⟩, h2⟩ => ⟨h0, fun wa hwa hwa' => ?_⟩, fun ⟨h0, h1⟩ => ⟨⟨h0, ?_⟩, ?_⟩⟩
    · by_cases hb : wa < b
      · exact h1 wa hwa hb
      · exact h2 wa (by omega) hwa'
    · exact fun wa hwa hwa' => h1 wa hwa (by omega)
    · exact fun wa hwa hwa' => h1 wa (by omega) hwa'
  page := h'.page.trans h.page

/-- A range of user memory leaves the kernel's mappings alone. -/
theorem look_kern (hb : b ≤ KERNBASE) (hva : KERNBASE ≤ va)
    (hlt : va < 2 ^ 32) : pd'.look va = pd.look va := by
  rcases h.out va hlt (by omega) with e | ⟨e, e'⟩
  · exact e
  · have hnone := (h.none_iff va hlt).mpr ⟨e, fun wa _ hwa hd => ?_⟩
    · rw [hnone, e]
    · have hw : (PDX wa).val < UPDE :=
        (PDX_lt_iff (hwa.trans_le hb |>.trans (by decide))).mpr (by omega)
      rw [hd, PDX_lt_iff hlt] at hw
      omega

/-- A range of the kernel's mappings leaves user memory alone. -/
theorem look_user (ha : KERNBASE ≤ a) (hb : b ≤ 2 ^ 32)
    (hva : va < KERNBASE) : pd'.look va = pd.look va := by
  have hlt : va < 2 ^ 32 := hva.trans (by decide)
  rcases h.out va hlt (by omega) with e | ⟨e, e'⟩
  · exact e
  · have hnone := (h.none_iff va hlt).mpr ⟨e, fun wa hwa hwb hd => ?_⟩
    · rw [hnone, e]
    · have hv := (PDX_lt_iff hlt).mpr hva
      rw [← hd, PDX_lt_iff (by omega)] at hv
      omega

theorem present_out (hva : va < 2 ^ 32) (hno : ¬(a ≤ va ∧ va < b)) :
    pd'.Present va ↔ pd.Present va := by
  rcases h.out va hva hno with e | ⟨e, e'⟩
  · rw [PageDir.Present, e]
    exact Iff.rfl
  · refine iff_of_false ?_ ?_
    · rintro ⟨pte, hpte, hp⟩
      rw [e'] at hpte
      cases hpte
      cases hp
    · rintro ⟨pte, hpte, -⟩
      rw [e] at hpte
      cases hpte

end Maps

/-- What `walkpgdir` does: nothing, or a new page table. -/
def Walked (pd : PageDir) (va : ℕ) (pd' : PageDir) : Prop :=
  pd.look va ≠ none ∧ pd' = pd ∨ pd.look va = none ∧ ∃ v, pd' = pd.setPde (PDX va) v

theorem Walked.look_ne_none (h : Walked pd va pd') :
    pd'.look va ≠ none := by
  rcases h with ⟨h, rfl⟩ | ⟨-, v, rfl⟩
  · exact h
  · rw [PageDir.look_setPde_of_eq rfl]
    exact Option.some_ne_none _

/-- The new page table is clear. -/
theorem Walked.look_cases (h : Walked pd va pd') (wa : ℕ) :
    pd'.look wa = pd.look wa ∨ pd.look wa = none ∧ pd'.look wa = some .zero := by
  rcases h with ⟨-, rfl⟩ | ⟨h, v, rfl⟩
  · exact .inl rfl
  · by_cases hd : PDX wa = PDX va
    · refine .inr ⟨?_, PageDir.look_setPde_of_eq hd⟩
      rwa [PageDir.look_eq_none_iff, hd, ← PageDir.look_eq_none_iff]
    · exact .inl (PageDir.look_setPde_of_ne hd)

theorem Walked.none_iff (h : Walked pd va pd') (wa : ℕ) :
    pd'.look wa = none ↔ pd.look wa = none ∧ PDX va ≠ PDX wa := by
  by_cases hd : PDX va = PDX wa
  · have hne := h.look_ne_none
    rw [Ne, PageDir.look_eq_none_iff, hd, ← PageDir.look_eq_none_iff] at hne
    exact iff_of_false hne fun h => h.2 hd
  · rcases h with ⟨-, rfl⟩ | ⟨-, v, rfl⟩
    · exact ⟨fun h => ⟨h, hd⟩, And.left⟩
    · rw [PageDir.look_setPde_of_ne (Ne.symm hd)]
      exact ⟨fun h => ⟨h, hd⟩, And.left⟩

/-- Storing the entry that `walkpgdir` has found. -/
theorem Walked.maps {a : ℕ} (h : Walked pd a pd') (ha : a % PGSIZE = 0)
    (hlt : a + PGSIZE ≤ 2 ^ 32) (pte : Pte) (hp : pte.p = true) :
    Maps pd (pd'.setPte a pte) a (a + PGSIZE) pte.u where
  ins va hva hva' := by
    refine ⟨pte, PageDir.look_setPte_of_eq h.look_ne_none (by omega) (by rw [PGSIZE] at *; omega) ?_,
      hp, rfl⟩
    rw [PGSIZE] at *
    omega
  out va hva hno := by
    rw [PageDir.look_setPte_of_ne hva (by rw [PGSIZE] at *; omega) (by rw [PGSIZE] at *; omega)]
    exact h.look_cases va
  none_iff va hva := by
    rw [PageDir.look_eq_none_iff, PageDir.pde_setPte_eq_none_iff, ← PageDir.look_eq_none_iff,
      h.none_iff va]
    refine and_congr_right fun _ => ⟨fun hd wa hwa hwa' => ?_, fun hd => ?_⟩
    · have hsame : PDX wa = PDX a := by
        refine ((page_eq_iff (by omega) ?_).mp ?_).1 <;> rw [PGSIZE] at * <;> omega
      rwa [hsame]
    · exact hd a le_rfl (by rw [PGSIZE]; omega)
  page := by rcases h with ⟨-, rfl⟩ | ⟨-, v, rfl⟩ <;> rfl

theorem wp_walkpgdir {Q : Option PageDir → Mem → Prop}
    (hsome : ∀ pd' m', Walked pd va pd' → m'.all pd'.pages = m.all pd.pages → m.Next m' →
      m.free.card ≤ m'.free.card + 1 → Q (some pd') m')
    (hnone : ∀ m', m'.free = m.free → m.Next m' → m.Out → Q none m') :
    (vm k bad).wp (walkpgdir pd va) Q m := by
  rw [walkpgdir]
  split
  next pt hpt =>
    refine hsome pd m (.inl ⟨?_, rfl⟩) rfl (.refl m) (Nat.le_succ _)
    rw [Ne, PageDir.look_eq_none_iff, hpt]
    exact Option.some_ne_none pt
  next hpt =>
    refine .bind (wp_kalloc (fun v m' hm hnext => ?_) hnone)
    refine hsome _ m' (.inr ⟨PageDir.look_eq_none_iff.mpr hpt, v, rfl⟩) ?_ hnext
      (by rw [hm, Multiset.card_add, Multiset.card_singleton, add_comm])
    rw [Mem.all, Mem.all, PageDir.pages_setPde hpt, hm, add_left_comm, ← add_assoc]

/-- The entry is not there yet, so that `mappages` does not panic. -/
theorem Walked.not_present (h : Walked pd va pd') (hva : ¬pd.Present va) : ¬pd'.Present va := by
  rintro ⟨pte, hpte, hp⟩
  rcases h.look_cases va with e | ⟨-, e⟩
  · rw [e] at hpte
    exact hva ⟨pte, hpte, hp⟩
  · rw [e] at hpte
    cases hpte
    cases hp

/-- `mappages` for the kernel's mappings. -/
theorem wp_mappagesLoop_kern {n : ℕ} :
    ∀ {pd : PageDir} {a : ℕ} {pa : Page} {m : Mem} {Q : PageDir × Bool → Mem → Prop},
      (n ≠ 0 → KERNBASE ≤ a ∧ a % PGSIZE = 0 ∧ a + n * PGSIZE ≤ 2 ^ 32) →
      (∀ va, a ≤ va → va < a + n * PGSIZE → ¬pd.Present va) →
      (∀ pd' m', Maps pd pd' a (a + n * PGSIZE) perm.u → m'.all pd'.pages = m.all pd.pages →
        m.Next m' → Q (pd', true) m') →
      (∀ pd' m', (∀ va < KERNBASE, pd'.look va = pd.look va) → m'.all pd'.pages = m.all pd.pages →
        (m.fails = [] → m'.free = 0) → Q (pd', false) m') →
      (vm k bad).wp (mappagesLoop perm n pd a pa) Q m := by
  induction n with
  | zero =>
    intro pd a pa m Q _ _ hok _
    refine hok pd m ?_ rfl (.refl m)
    rw [Nat.zero_mul]
    exact Maps.refl pd a perm.u
  | succ n ih =>
    intro pd a pa m Q ha hfresh hok hfail
    obtain ⟨hbase, halign, hlast⟩ := ha (Nat.succ_ne_zero n)
    have hlast' : a + PGSIZE ≤ 2 ^ 32 := by
      rw [Nat.succ_mul] at hlast
      omega
    have hlt : a < 2 ^ 32 := by
      rw [PGSIZE] at hlast'
      omega
    have hstep : a + (n + 1) * PGSIZE = a + PGSIZE + n * PGSIZE := by
      rw [Nat.succ_mul]
      omega
    refine .bind (wp_walkpgdir (fun pd1 m1 hw hall hnext _ => ?_)
      fun m1 hfree _ hout => hfail pd m1 (fun _ _ => rfl) (by rw [Mem.all, Mem.all, hfree])
        fun e => ?_)
    · have hnew := hw.not_present (hfresh a le_rfl (by rw [hstep, PGSIZE]; omega))
      refine .bind (wp_panicIf (fun h => absurd h hnew) fun _ => ?_)
      have hmaps := hw.maps halign hlast' ⟨pa, true, perm.w, perm.u⟩ rfl
      have hpages := PageDir.pages_setPte_kern pd1 ⟨pa, true, perm.w, perm.u⟩ hbase hlt
      by_cases hn : n = 0
      · -- The last page, after which the address may be zero.
        subst hn
        refine hok _ m1 ?_ (by rw [hpages, hall]) hnext
        rwa [Nat.one_mul]
      · have hlast2 : a + PGSIZE + n * PGSIZE ≤ 2 ^ 32 := hstep ▸ hlast
        have hnext' : uint ((a : ℤ) + PGSIZE) = a + PGSIZE := by
          rw [← Nat.cast_add]
          refine uint_of_lt ?_
          rw [PGSIZE] at *
          omega
        rw [hnext']
        refine ih (fun _ => ⟨by omega, by rw [Nat.add_mod_right]; exact halign, hlast2⟩) ?_ ?_ ?_
        · intro va hva hva' hpres
          rw [hmaps.present_out (by omega) (by omega)] at hpres
          exact hfresh va (by omega) (by rw [hstep]; exact hva') hpres
        · intro pd' m' hmaps' hall' hnext'
          refine hok pd' m' ?_ (by rw [hall', hpages, hall]) (hnext.trans hnext')
          rw [hstep]
          exact hmaps.trans hmaps' (by omega) (by omega) hlast2
        · intro pd' m' huser hall' hfree
          refine hfail pd' m' (fun va hva => ?_) (by rw [hall', hpages, hall])
            fun e => hfree (hnext e)
          rw [huser va hva, hmaps.look_user hbase hlast' hva]
    · rw [hfree]
      exact hout e

/-- `mappages` for one page of user memory. -/
theorem wp_mappages_user {a : ℕ} {pa : Page} {Q : PageDir × Bool → Mem → Prop}
    (hbase : a < KERNBASE) (halign : a % PGSIZE = 0) (hfresh : ¬pd.Present a)
    (hok : ∀ pd' m', Maps pd pd' a (a + PGSIZE) perm.u →
      (∀ va, a ≤ va → va < a + PGSIZE → pd'.look va = some ⟨pa, true, perm.w, perm.u⟩) →
      m'.all pd'.pages = m.all ({pa} + pd.pages) → m.Next m' → m.free.card ≤ m'.free.card + 1 →
      Q (pd', true) m')
    (hfail : ∀ m', m'.free = m.free → m.Next m' → m.Out → Q (pd, false) m') :
    (vm k bad).wp (mappages pd a PGSIZE pa perm) Q m := by
  have hlast : a + PGSIZE ≤ 2 ^ 32 := by
    rw [KERNBASE] at hbase
    rw [PGSIZE]
    omega
  have hdown : PGROUNDDOWN a = a := PGROUNDDOWN_of_aligned halign
  have hend : PGROUNDDOWN (uint ((a : ℤ) + PGSIZE - 1)) = a := by
    rw [PGSIZE] at halign hlast
    rw [PGROUNDDOWN, uint, PGSIZE]
    omega
  rw [mappages, hdown, hend, sub_self]
  refine .bind (wp_walkpgdir (fun pd1 m1 hw hall hnext hlen => ?_) hfail)
  have hnew := hw.not_present hfresh
  refine .bind (wp_panicIf (fun h => absurd h hnew) fun _ => ?_)
  refine hok _ m1 (hw.maps halign hlast _ rfl) (fun va hva hva' => ?_) ?_ hnext hlen
  · refine PageDir.look_setPte_of_eq hw.look_ne_none (by omega) (by rw [PGSIZE] at *; omega) ?_
    rw [PGSIZE] at *
    omega
  obtain ⟨old, hold⟩ := Option.ne_none_iff_exists'.mp hw.look_ne_none
  have hp : old.p = false := Bool.eq_false_iff.mpr fun hp => hnew ⟨old, hold, hp⟩
  have hpages := PageDir.pages_setPte ⟨pa, true, perm.w, perm.u⟩ hold hbase
  rw [PageDir.entryPages_of_not hp, add_zero, PageDir.entryPages_of_p rfl] at hpages
  rw [hpages, Mem.all, ← add_assoc, add_comm]
  change {pa} + m1.all pd1.pages = _
  rw [hall, Mem.all, Mem.all, add_left_comm]

/-- `mappages` for a whole range of the kernel's mappings. -/
theorem wp_mappages_kern {size : ℕ} {pa : Page} {Q : PageDir × Bool → Mem → Prop}
    (hbase : KERNBASE ≤ va) (halign : va % PGSIZE = 0) (hsize : size % PGSIZE = 0)
    (hpos : 0 < size) (hlast : va + size ≤ 2 ^ 32)
    (hfresh : ∀ wa, va ≤ wa → wa < va + size → ¬pd.Present wa)
    (hok : ∀ pd' m', Maps pd pd' va (va + size) perm.u → m'.all pd'.pages = m.all pd.pages →
      m.Next m' → Q (pd', true) m')
    (hfail : ∀ pd' m', (∀ wa < KERNBASE, pd'.look wa = pd.look wa) →
      m'.all pd'.pages = m.all pd.pages → (m.fails = [] → m'.free = 0) → Q (pd', false) m') :
    (vm k bad).wp (mappages pd va size pa perm) Q m := by
  have hlen : uint ((PGROUNDDOWN (uint ((va : ℤ) + size - 1)) : ℤ) - PGROUNDDOWN va) / PGSIZE + 1 =
      size / PGSIZE := by
    rw [PGROUNDDOWN_of_aligned halign]
    rw [PGSIZE] at *
    rw [PGROUNDDOWN, uint, uint, PGSIZE]
    omega
  have hmul : size / PGSIZE * PGSIZE = size :=
    Nat.div_mul_cancel (Nat.dvd_of_mod_eq_zero hsize)
  rw [mappages, hlen, PGROUNDDOWN_of_aligned halign]
  refine wp_mappagesLoop_kern (fun _ => ⟨hbase, halign, by rw [hmul]; exact hlast⟩) ?_ ?_ hfail
  · rwa [hmul]
  · rwa [hmul]

/-! ### Taking from the map -/

/-- The pages from `a` to `b` have been taken out of the map. -/
structure Unmaps (pd pd' : PageDir) (a b : ℕ) : Prop where
  ins : ∀ va, a ≤ va → va < b → ¬pd'.Present va
  out : ∀ va < 2 ^ 32, ¬(a ≤ va ∧ va < b) → pd'.look va = pd.look va
  page : pd'.page = pd.page

/-- The page addresses from `a` on that are below `b`. -/
def pageAddrs (a b : ℕ) : List ℕ := List.range' a ((b - a + PGSIZE - 1) / PGSIZE) PGSIZE

/-- The pages that are mapped at some addresses. -/
def PageDir.pagesAt (pd : PageDir) (as : List ℕ) : List Page :=
  as.filterMap fun a => (pd.entry a).map Pte.addr

/-- **A plain walk**: the pages at some addresses are freed, one after the other. -/
def freeAt (pd : PageDir) : List ℕ → VmM PageDir
  | [] => pure pd
  | a :: as =>
    match pd.entry a with
    | none => freeAt pd as
    | some pte => do
      panicIf (pte.addr = 0) "kfree"
      kfree pte.addr
      freeAt (pd.setPte a .zero) as

/-- The pages at some addresses have been taken out of the map, and nothing else. -/
structure Cleared (pd : PageDir) (as : List ℕ) (pd' : PageDir) : Prop where
  ins : ∀ va < 2 ^ 32, PGROUNDDOWN va ∈ as → pd.Present va → pd'.look va = some .zero
  out : ∀ va < 2 ^ 32, ¬(PGROUNDDOWN va ∈ as ∧ pd.Present va) → pd'.look va = pd.look va
  page : pd'.page = pd.page

section Walk

variable {pd pd' : PageDir} {a b c : ℕ} {as : List ℕ} {pte : Pte}

theorem pageAddrs_of_le (h : b ≤ a) : pageAddrs a b = [] := by
  rw [pageAddrs, Nat.sub_eq_zero_of_le h, Nat.div_eq_of_lt (by decide), range'_zero]

theorem pageAddrs_of_lt (h : a < b) : pageAddrs a b = a :: pageAddrs (a + PGSIZE) b := by
  have hn : (b - a + PGSIZE - 1) / PGSIZE = (b - (a + PGSIZE) + PGSIZE - 1) / PGSIZE + 1 := by
    rw [PGSIZE]
    omega
  rw [pageAddrs, hn, range'_succ, pageAddrs]

theorem mem_pageAddrs (ha : a % PGSIZE = 0) :
    c ∈ pageAddrs a b ↔ c % PGSIZE = 0 ∧ a ≤ c ∧ c < b := by
  rw [pageAddrs, mem_range']
  rw [PGSIZE] at *
  constructor
  · rintro ⟨i, hi, rfl⟩
    omega
  · exact fun h => ⟨(c - a) / 4096, by omega, by omega⟩

theorem PageDir.look_PGROUNDDOWN (h : a < 2 ^ 32) : pd.look (PGROUNDDOWN a) = pd.look a := by
  have hle : PGROUNDDOWN a ≤ a := Nat.div_mul_le_self ..
  obtain ⟨hd, ht⟩ := (page_eq_iff (hle.trans_lt h) h).mp
    (Nat.mul_div_cancel (a / PGSIZE) (by decide : 0 < PGSIZE))
  rw [look, look, hd, ht]

/-- Where nothing is mapped the walk does nothing. -/
theorem freeAt_skip (n : ℕ) :
    ∀ {a : ℕ}, (∀ c, a ≤ c → c < a + n * PGSIZE → pd.entry c = none) →
      freeAt pd (pageAddrs a b) = freeAt pd (pageAddrs (a + n * PGSIZE) b) := by
  induction n with
  | zero =>
    intro a _
    rw [Nat.zero_mul, Nat.add_zero]
  | succ n ih =>
    intro a h
    rw [Nat.succ_mul] at h ⊢
    have hpos : 0 < PGSIZE := by decide
    by_cases hab : a < b
    · rw [pageAddrs_of_lt hab, freeAt, h a le_rfl (by omega)]
      rw [ih fun c hc hc' => h c (by omega) (by omega), Nat.add_assoc, Nat.add_comm PGSIZE]
    · rw [pageAddrs_of_le (by omega), pageAddrs_of_le (by omega)]

/-- **`deallocuvm` is a plain walk**, although it goes on with the next page table where there is
none. -/
theorem deallocuvmLoop_eq {oldsz : ℕ} (hold : oldsz ≤ KERNBASE) {n : ℕ} :
    ∀ {pd : PageDir} {a : ℕ}, a % PGSIZE = 0 → oldsz ≤ a + n * PGSIZE →
      deallocuvmLoop oldsz n pd a = freeAt pd (pageAddrs a oldsz) := by
  induction n with
  | zero =>
    intro pd a _ hn
    rw [pageAddrs_of_le (by omega)]
    rfl
  | succ n ih =>
    intro pd a ha hn
    rw [Nat.succ_mul] at hn
    have hmod : (a + PGSIZE) % PGSIZE = 0 := by
      rwa [Nat.add_mod_right]
    rw [deallocuvmLoop]
    split
    next hlt =>
      have h32 : a < 2 ^ 32 := (hlt.trans_le hold).trans (by decide)
      split
      next hnone =>
        -- All addresses up to the next page table have the same, absent one.
        have hd := PDX_val h32
        obtain ⟨j, hj⟩ : ∃ j, ((PDX a).val + 1) * 2 ^ 22 = a + j * PGSIZE := by
          refine ⟨(((PDX a).val + 1) * 2 ^ 22 - a) / PGSIZE, ?_⟩
          rw [PGSIZE] at *
          omega
        rw [freeAt_skip j, ← hj]
        · refine ih ?_ ?_ <;> rw [hd, PGSIZE] at * <;> omega
        · intro c hc hc'
          have hcd : PDX c = PDX a := by
            rw [← hj] at hc'
            rw [Fin.ext_iff, PDX_val (by omega), hd]
            omega
          rw [PageDir.entry, PageDir.look_eq_none_iff.mpr]
          · rfl
          · rwa [hcd, ← PageDir.look_eq_none_iff]
      next pte hpte =>
        rw [pageAddrs_of_lt hlt, freeAt, PageDir.entry, hpte, Option.filter]
        split
        next => exact congrArg _ (funext fun _ => congrArg _ (funext fun _ => ih hmod (by omega)))
        next => exact ih hmod (by omega)
    next hge =>
      rw [pageAddrs_of_le (by omega)]
      rfl

theorem Cleared.cons_none (h : Cleared pd as pd') (ha : pd.entry a = none) :
    Cleared pd (a :: as) pd' where
  ins va hva hmem hp := by
    rcases mem_cons.mp hmem with rfl | hmem
    · rw [PageDir.entry_eq_none_iff, PageDir.Present, PageDir.look_PGROUNDDOWN hva] at ha
      exact absurd hp ha
    · exact h.ins va hva hmem hp
  out va hva hno := h.out va hva fun hc => hno ⟨mem_cons_of_mem a hc.1, hc.2⟩
  page := h.page

theorem PGROUNDDOWN_ne (ha : a % PGSIZE = 0) (h : PGROUNDDOWN c ≠ a) : c / PGSIZE ≠ a / PGSIZE := by
  rw [PGROUNDDOWN] at h
  rw [PGSIZE] at *
  omega

theorem Cleared.cons (h : Cleared (pd.setPte a .zero) as pd') (ha : a % PGSIZE = 0)
    (h32 : a < 2 ^ 32) (hpte : pte ∈ pd.entry a) : Cleared pd (a :: as) pd' := by
  obtain ⟨hlook, hp⟩ := PageDir.mem_entry.mp hpte
  have hne : pd.look a ≠ none := by
    rw [hlook]
    exact Option.some_ne_none pte
  have hself : ∀ va < 2 ^ 32, PGROUNDDOWN va = a →
      pd.Present va ∧ pd'.look va = some .zero := by
    rintro va hva rfl
    have hzero : (pd.setPte (PGROUNDDOWN va) .zero).look va = some .zero := PageDir.look_setPte_of_eq hne hva h32
      (Nat.mul_div_cancel (va / PGSIZE) (by decide : 0 < PGSIZE)).symm
    refine ⟨⟨pte, by rw [← PageDir.look_PGROUNDDOWN hva]; exact hlook, hp⟩, ?_⟩
    rw [h.out va hva, hzero]
    rintro ⟨-, pte', hpte', hp'⟩
    rw [hzero] at hpte'
    cases hpte'
    cases hp'
  have hother : ∀ va < 2 ^ 32, PGROUNDDOWN va ≠ a →
      (pd.setPte a .zero).look va = pd.look va := fun va hva hpage =>
    PageDir.look_setPte_of_ne hva h32 (PGROUNDDOWN_ne ha hpage)
  refine ⟨fun va hva hmem hpr => ?_, fun va hva hno => ?_, h.page⟩
  · by_cases hpage : PGROUNDDOWN va = a
    · exact (hself va hva hpage).2
    · refine h.ins va hva ((mem_cons.mp hmem).resolve_left hpage) ?_
      rwa [PageDir.Present, hother va hva hpage]
  · have hpage : PGROUNDDOWN va ≠ a := fun hc =>
      hno ⟨mem_cons.mpr (.inl hc), (hself va hva hc).1⟩
    rw [h.out va hva, hother va hva hpage]
    rw [PageDir.Present, hother va hva hpage]
    exact fun hc => hno ⟨mem_cons_of_mem a hc.1, hc.2⟩

theorem Cleared.unmaps (h : Cleared pd (pageAddrs a b) pd') (ha : a % PGSIZE = 0)
    (hb : b ≤ KERNBASE) : Unmaps pd pd' a (PGROUNDUP b) where
  ins va hva hva' := by
    have h32 : va < 2 ^ 32 := hva'.trans_le ((PGROUNDUP_le hb).trans (by decide))
    have hmem : PGROUNDDOWN va ∈ pageAddrs a b := by
      rw [mem_pageAddrs ha, PGROUNDDOWN]
      rw [PGROUNDUP_eq hb] at hva'
      rw [PGSIZE] at *
      omega
    rintro ⟨pte, hpte, hp⟩
    by_cases hpr : pd.Present va
    · rw [h.ins va h32 hmem hpr] at hpte
      cases hpte
      cases hp
    · rw [h.out va h32 fun hc => hpr hc.2] at hpte
      exact hpr ⟨pte, hpte, hp⟩
  out va hva hno := by
    refine h.out va hva fun hc => hno ?_
    have hmem := (mem_pageAddrs ha).mp hc.1
    have hround := PGROUNDUP_eq hb
    rw [PGROUNDDOWN] at hmem
    rw [PGSIZE] at *
    omega
  page := h.page

/-- The pages that the walk frees are free afterwards, and no others. -/
theorem wp_freeAt : ∀ {pd : PageDir} {m : Mem} {Q : PageDir → Mem → Prop},
    (∀ a ∈ as, a % PGSIZE = 0 ∧ a < KERNBASE) → as.Nodup → (∀ v ∈ pd.pagesAt as, k.Has v) →
    (∀ pd' m', Cleared pd as pd' → m'.free = ↑(pd.pagesAt as) + m.free →
      m'.all pd'.pages = m.all pd.pages → m'.fails = m.fails → Q pd' m') →
    (vm k bad).wp (freeAt pd as) Q m := by
  induction as with
  | nil =>
    intro pd m Q _ _ _ hQ
    exact hQ pd m ⟨fun _ _ h => absurd h not_mem_nil, fun _ _ _ => rfl, rfl⟩
      (zero_add _).symm rfl rfl
  | cons a as ih =>
    intro pd m Q has hnodup hhas hQ
    obtain ⟨⟨halign, hbase⟩, has⟩ := forall_mem_cons.mp has
    obtain ⟨hmem, hnodup⟩ := nodup_cons.mp hnodup
    rw [freeAt]
    split
    next hnone =>
      have hsame : pd.pagesAt (a :: as) = pd.pagesAt as :=
        filterMap_cons_none (by rw [hnone]; rfl)
      rw [hsame] at hhas hQ
      exact ih has hnodup hhas fun pd' m' hc => hQ pd' m' (hc.cons_none hnone)
    next pte hpte =>
      obtain ⟨hlook, hp⟩ := PageDir.mem_entry.mp hpte
      have h32 : a < 2 ^ 32 := hbase.trans (by decide)
      have hcons : pd.pagesAt (a :: as) = pte.addr :: pd.pagesAt as :=
        filterMap_cons_some (by rw [hpte]; rfl)
      have hrest : (pd.setPte a .zero).pagesAt as = pd.pagesAt as := by
        refine filterMap_congr fun c hc => ?_
        obtain ⟨hca, hcb⟩ := has c hc
        rw [PageDir.entry, PageDir.look_setPte_of_ne (hcb.trans (by decide)) h32, PageDir.entry]
        refine PGROUNDDOWN_ne halign ?_
        rw [PGROUNDDOWN_of_aligned hca]
        exact ne_of_mem_of_not_mem hc hmem
      rw [hcons] at hhas hQ
      obtain ⟨hhas₀, hhas⟩ := forall_mem_cons.mp hhas
      have hne : pte.addr ≠ 0 := by
        intro e
        have h1 := hhas₀.1
        have h2 := k.data_gt
        have h3 := k.data_lt
        rw [e, Nat.zero_mul] at h1
        rw [KERNLINK, EXTMEM] at h2
        omega
      refine .bind (wp_panicIf (fun h => absurd h hne) fun _ => ?_)
      refine .bind (wp_kfree hhas₀ fun m₁ hm₁ hf₁ => ?_)
      have hpages := PageDir.pages_setPte .zero hlook hbase
      rw [PageDir.entryPages_of_p hp, PageDir.entryPages_of_not rfl, add_zero] at hpages
      refine ih has hnodup (by rwa [hrest]) fun pd' m' hc hfree hall hf =>
        hQ pd' m' (hc.cons halign h32 hpte) ?_ (hall.trans ?_) (hf.trans hf₁)
      · rw [hfree, hrest, hm₁, ← Multiset.cons_coe, ← Multiset.singleton_add, add_left_comm,
          add_assoc]
      · rw [Mem.all, Mem.all, ← hpages, hm₁, add_assoc, add_comm, add_assoc]

end Walk

/-- `deallocuvm` frees the pages at the page addresses between the two sizes. -/
theorem wp_deallocuvm_walk {oldsz newsz : ℕ} {Q : PageDir × ℕ → Mem → Prop}
    (hold : oldsz ≤ KERNBASE) (hlt : newsz < oldsz)
    (hhas : ∀ v ∈ pd.pagesAt (pageAddrs (PGROUNDUP newsz) oldsz), k.Has v)
    (hQ : ∀ pd' m', Cleared pd (pageAddrs (PGROUNDUP newsz) oldsz) pd' →
      m'.free = ↑(pd.pagesAt (pageAddrs (PGROUNDUP newsz) oldsz)) + m.free →
      m'.all pd'.pages = m.all pd.pages → m'.fails = m.fails → Q (pd', newsz) m') :
    (vm k bad).wp (deallocuvm pd oldsz newsz) Q m := by
  rw [deallocuvm, if_neg (by omega), deallocuvmLoop_eq hold PGROUNDUP_mod (by rw [PGSIZE]; omega)]
  refine .bind (wp_freeAt (fun a ha => ?_) (nodup_range' PGSIZE (by decide)) hhas hQ)
  obtain ⟨ha, -, hlt⟩ := (mem_pageAddrs PGROUNDUP_mod).mp ha
  exact ⟨ha, hlt.trans_le hold⟩

/-- `deallocuvm` takes away the pages between the two sizes, and frees them. -/
theorem wp_deallocuvm {oldsz newsz : ℕ} {Q : PageDir × ℕ → Mem → Prop} (hold : oldsz ≤ KERNBASE)
    (hhas : ∀ x ∈ m.all pd.pages, k.Has x) (hge : oldsz ≤ newsz → Q (pd, oldsz) m)
    (hlt : newsz < oldsz → ∀ pd' m', Unmaps pd pd' (PGROUNDUP newsz) (PGROUNDUP oldsz) →
      m'.all pd'.pages = m.all pd.pages → m'.fails = m.fails → Q (pd', newsz) m') :
    (vm k bad).wp (deallocuvm pd oldsz newsz) Q m := by
  by_cases h : newsz < oldsz
  · refine wp_deallocuvm_walk hold h (fun v hv => ?_) fun pd' m' hc _ =>
      hlt h pd' m' (hc.unmaps PGROUNDUP_mod hold)
    obtain ⟨a, ha, hv⟩ := mem_filterMap.mp hv
    obtain ⟨pte, hpte, rfl⟩ := Option.map_eq_some_iff.mp hv
    obtain ⟨hlook, hp⟩ := PageDir.mem_entry.mp hpte
    obtain ⟨-, -, hlt⟩ := (mem_pageAddrs PGROUNDUP_mod).mp ha
    exact hhas _ (Mem.mem_all.mpr (.inr (PageDir.addr_mem_pages hlook hp (hlt.trans_le hold))))
  · rw [deallocuvm, if_pos (not_lt.mp h)]
    exact hge (not_lt.mp h)

/-! ### Freeing a page directory -/

theorem wp_freeTables {is : List (Fin NPDENTRIES)} :
    ∀ {m : Mem} {Q : Unit → Mem → Prop},
      (∀ i ∈ is, ∀ x ∈ pd.tablePage i, k.Has x) →
      (∀ m', m'.free = m.all (is.map pd.tablePage).sum → m'.fails = m.fails →
        Q () m') →
      (vm k bad).wp (freeTables pd is) Q m := by
  induction is with
  | nil =>
    intro m Q _ hQ
    exact hQ m (add_zero _).symm rfl
  | cons i is ih =>
    intro m Q hhas hQ
    have hhas' : ∀ j ∈ is, ∀ x ∈ pd.tablePage j, k.Has x := fun j hj =>
      hhas j (mem_cons_of_mem i hj)
    have hi := hhas i (mem_cons_self ..)
    rw [map_cons, sum_cons] at hQ
    rw [freeTables]
    split
    next pt hpt =>
      have hpage : pd.tablePage i = {pt.page} := by
        rw [PageDir.tablePage, hpt]
      rw [hpage] at hi hQ
      refine .bind (wp_kfree (hi _ (Multiset.mem_singleton_self _)) fun m₁ hm₁ hf₁ => ?_)
      refine ih hhas' fun m' hm' hf => hQ m' ?_ (hf.trans hf₁)
      rw [hm', Mem.all, Mem.all, hm₁, add_left_comm, add_assoc]
    next hpt =>
      have hpage : pd.tablePage i = 0 := by
        rw [PageDir.tablePage, hpt]
      rw [hpage, zero_add] at hQ
      exact ih hhas' hQ

/-- **`freevm` frees everything**: the pages of the page directory are free then. -/
theorem wp_freevm (hhas : ∀ x ∈ m.all pd.pages, k.Has x)
    (hQ : ∀ m', m'.free = m.all pd.pages → m'.fails = m.fails → Q () m') :
    (vm k bad).wp (freevm pd) Q m := by
  refine .bind (wp_deallocuvm le_rfl hhas ?_ ?_)
  · intro h
    exact absurd h (by decide)
  intro _ pd' m' hun hall hf
  have hfree : ∀ va < KERNBASE, ¬pd'.Present va := by
    intro va hva
    refine hun.ins va ?_ ?_
    · rw [show PGROUNDUP 0 = 0 from rfl]
      exact Nat.zero_le va
    · exact hva.trans_le (le_PGROUNDUP le_rfl)
  rw [← hall] at hhas
  rw [PageDir.pages_of_unmapped hfree] at hall hhas
  refine .bind (wp_freeTables ?_ fun m'' hm'' hf' => ?_)
  · intro i _ x hx
    refine hhas x (Mem.mem_all.mpr (.inr (Multiset.mem_add.mpr (.inr ?_))))
    exact PageDir.mem_tables hx
  · refine wp_kfree (hhas _ (Mem.mem_all.mpr (.inr ?_))) fun m₃ hm₃ hf₃ =>
      hQ m₃ ?_ (hf₃.trans (hf'.trans hf))
    · exact Multiset.mem_add.mpr (.inl (Multiset.mem_singleton_self _))
    · rw [← hall, hm₃, hm'', PageDir.sum_entries, Mem.all, Mem.all, add_left_comm]

end Xv6.Vm
