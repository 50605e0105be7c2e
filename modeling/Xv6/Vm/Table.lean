import Mathlib.Algebra.BigOperators.Fin
import Mathlib.Algebra.Order.BigOperators.Group.Finset
import Mathlib.Tactic.Abel
import Xv6.Lib.Sum
import Xv6.Vm.Memory

/-!
# What a page directory maps, and what it is made of

Two ways to look at a page directory. As a map it says what a virtual address leads to:
`Xv6.Vm.PageDir.look`, and whether there is a page (`Xv6.Vm.PageDir.Present`). As a thing made of
pages it is a collection `Xv6.Vm.PageDir.pages`: its own page, its page tables, and the pages that
are mapped below `KERNBASE`. The pages of the kernel's own mappings do not belong to it. A page
that is in the collection twice is one that would be freed twice.

The changes are those of a new page table (`Xv6.Vm.PageDir.setPde`) and of a new entry
(`Xv6.Vm.PageDir.setPte`).
-/

namespace Xv6.Vm

open Lib Function

/-! ### Addresses -/

section

variable {va wa sz : ℕ}

theorem PDX_val (h : va < 2 ^ 32) : (PDX va).val = va / 2 ^ 22 := by
  have : va / 2 ^ 22 < 1024 := by omega
  exact Nat.mod_eq_of_lt this

theorem PTX_val : (PTX va).val = va / 2 ^ 12 % 1024 := rfl

/-- The entries of a page directory below this one are those of user memory. -/
def UPDE : ℕ := 512

theorem PDX_lt_iff (h : va < 2 ^ 32) : (PDX va).val < UPDE ↔ va < KERNBASE := by
  rw [PDX_val h, UPDE, KERNBASE]
  omega

/-- Two addresses have the same entry exactly when they are on the same page. -/
theorem page_eq_iff (hv : va < 2 ^ 32) (hw : wa < 2 ^ 32) :
    va / PGSIZE = wa / PGSIZE ↔ PDX va = PDX wa ∧ PTX va = PTX wa := by
  rw [Fin.ext_iff, Fin.ext_iff, PDX_val hv, PDX_val hw, PTX_val, PTX_val, PGSIZE]
  omega

theorem uint_of_lt {n : ℕ} (h : n < 2 ^ 32) : uint n = n := by
  rw [uint]
  omega

theorem PGROUNDDOWN_of_aligned (h : va % PGSIZE = 0) : PGROUNDDOWN va = va := by
  rw [PGROUNDDOWN]
  exact Nat.div_mul_cancel (Nat.dvd_of_mod_eq_zero h)

theorem PGROUNDUP_eq (h : sz ≤ KERNBASE) :
    PGROUNDUP sz = (sz + PGSIZE - 1) / PGSIZE * PGSIZE := by
  rw [KERNBASE] at h
  rw [PGROUNDUP, PGSIZE, uint]
  omega

theorem PGROUNDUP_mod : PGROUNDUP sz % PGSIZE = 0 := Nat.mul_mod_left _ _

/-- A page boundary is past a size exactly when it is past its last page. -/
theorem PGROUNDUP_le_iff {a : ℕ} (h : sz ≤ KERNBASE) (ha : a % PGSIZE = 0) :
    PGROUNDUP sz ≤ a ↔ sz ≤ a := by
  rw [PGROUNDUP_eq h]
  rw [PGSIZE] at *
  omega

theorem le_PGROUNDUP (h : sz ≤ KERNBASE) : sz ≤ PGROUNDUP sz := by
  rw [PGROUNDUP_eq h, PGSIZE]
  omega

theorem PGROUNDUP_of_aligned (h : sz ≤ KERNBASE) (ha : sz % PGSIZE = 0) :
    PGROUNDUP sz = sz :=
  le_antisymm ((PGROUNDUP_le_iff h ha).mpr le_rfl) (le_PGROUNDUP h)

theorem PGROUNDUP_mono {sz' : ℕ} (hle : sz ≤ sz') (h : sz' ≤ KERNBASE) :
    PGROUNDUP sz ≤ PGROUNDUP sz' :=
  (PGROUNDUP_le_iff (hle.trans h) PGROUNDUP_mod).mpr (hle.trans (le_PGROUNDUP h))

theorem PGROUNDUP_le (h : sz ≤ KERNBASE) : PGROUNDUP sz ≤ KERNBASE :=
  (PGROUNDUP_le_iff h (by decide)).mpr h

end

namespace PageDir

variable {pd : PageDir} {va wa : ℕ} {pte old : Pte} {i : Fin NPDENTRIES} {v : Page}

/-! ### The map -/

/-- A page is mapped there. -/
def Present (pd : PageDir) (va : ℕ) : Prop := ∃ pte ∈ pd.look va, pte.p = true

/-- The entry for an address, if it is present. -/
def entry (pd : PageDir) (va : ℕ) : Option Pte := (pd.look va).filter (·.p)

theorem mem_entry : pte ∈ pd.entry va ↔ pd.look va = some pte ∧ pte.p = true :=
  Option.filter_eq_some_iff

theorem entry_eq_none_iff : pd.entry va = none ↔ ¬pd.Present va := by
  rw [Option.eq_none_iff_forall_ne_some, Present, not_exists]
  exact forall_congr' fun _ => mem_entry.not

theorem look_eq_none_iff : pd.look va = none ↔ pd.pde (PDX va) = none := by
  rw [look, Option.map_eq_none_iff]

theorem pde_setPde : (pd.setPde i v).pde =
    update pd.pde i (some ⟨v, fun _ => Pte.zero⟩) := rfl

theorem pde_setPte : (pd.setPte va pte).pde = update pd.pde (PDX va)
    ((pd.pde (PDX va)).map fun pt => ⟨pt.page, update pt.pte (PTX va) pte⟩) := rfl

theorem look_setPde_of_eq (h : PDX va = i) : (pd.setPde i v).look va = some Pte.zero := by
  rw [look, pde_setPde, h, update_self]
  rfl

theorem look_setPde_of_ne (h : PDX va ≠ i) : (pd.setPde i v).look va = pd.look va := by
  rw [look, pde_setPde, update_of_ne h, look]

theorem look_setPte_of_eq (h : pd.look wa ≠ none) (hv : va < 2 ^ 32) (hw : wa < 2 ^ 32)
    (hpage : va / PGSIZE = wa / PGSIZE) : (pd.setPte wa pte).look va = some pte := by
  obtain ⟨hd, ht⟩ := (page_eq_iff hv hw).mp hpage
  obtain ⟨pt, hpt⟩ := Option.ne_none_iff_exists'.mp (mt look_eq_none_iff.mpr h)
  rw [look, pde_setPte, hd, update_self, hpt, ht]
  exact congrArg some (update_self ..)

theorem look_setPte_of_ne (hv : va < 2 ^ 32) (hw : wa < 2 ^ 32)
    (hpage : va / PGSIZE ≠ wa / PGSIZE) : (pd.setPte wa pte).look va = pd.look va := by
  rw [look, pde_setPte, look]
  by_cases hd : PDX va = PDX wa
  · have ht : PTX va ≠ PTX wa := fun ht => hpage ((page_eq_iff hv hw).mpr ⟨hd, ht⟩)
    rw [hd, update_self, Option.map_map]
    refine congrFun (congrArg Option.map (funext fun pt => ?_)) _
    exact update_of_ne ht _ _
  · rw [update_of_ne hd]

/-- No page table comes or goes with an entry. -/
theorem pde_setPte_eq_none_iff : (pd.setPte va pte).pde i = none ↔ pd.pde i = none := by
  rw [pde_setPte]
  by_cases hi : i = PDX va
  · rw [hi, update_self, Option.map_eq_none_iff]
  · rw [update_of_ne hi]

/-! ### The pages -/

/-- The page that an entry of a page table stands for. -/
def entryPages (pte : Pte) : Multiset Page := if pte.p then {pte.addr} else 0

/-- The pages of one entry of a page directory. -/
def tablePages (i : Fin NPDENTRIES) : Option PageTable → Multiset Page
  | none => 0
  | some pt => {pt.page} + if i.val < UPDE then ∑ j, entryPages (pt.pte j) else 0

/-- The pages that belong to a page directory. -/
def pages (pd : PageDir) : Multiset Page := {pd.page} + ∑ i, tablePages i (pd.pde i)

theorem entryPages_of_not (h : pte.p = false) : entryPages pte = 0 := by
  rw [entryPages, h]
  rfl

theorem entryPages_of_p (h : pte.p = true) : entryPages pte = {pte.addr} := by
  rw [entryPages, h]
  rfl

theorem tablePages_zero : tablePages i (some ⟨v, fun _ => Pte.zero⟩) = {v} := by
  simp [tablePages, entryPages, Pte.zero]

/-- A new page directory. -/
theorem pages_empty : (⟨v, fun _ => none⟩ : PageDir).pages = {v} := by
  rw [pages, Finset.sum_eq_zero fun i _ => show tablePages i none = 0 from rfl, add_zero]

/-- A new page table. -/
theorem pages_setPde (h : pd.pde i = none) : (pd.setPde i v).pages = {v} + pd.pages := by
  have hsum := sum_update_add tablePages pd.pde i (some ⟨v, fun _ => Pte.zero⟩)
  rw [h, tablePages_zero, show tablePages i none = 0 from rfl, add_zero] at hsum
  rw [pages, pages, pde_setPde, hsum, ← add_assoc]
  exact add_comm _ _

/-- What a change of a table adds and takes away is what the change of the directory does. -/
theorem add_shares {P S S' T T' E E' : Multiset Page} (houter : S' + (P + T) = S + (P + T'))
    (hinner : T' + E = T + E') : S' + E = S + E' := by
  refine add_right_cancel (b := P + T) ?_
  calc S' + E + (P + T) = S' + (P + T) + E := add_right_comm _ _ _
    _ = S + (P + (T' + E)) := by rw [houter]; abel
    _ = S + E' + (P + T) := by rw [hinner]; abel

/-- A new entry in user memory. -/
theorem pages_setPte (pte : Pte) (h : pd.look va = some old) (hv : va < KERNBASE) :
    (pd.setPte va pte).pages + entryPages old = pd.pages + entryPages pte := by
  obtain ⟨pt, hpt, rfl⟩ := Option.map_eq_some_iff.mp h
  have hu : (PDX va).val < UPDE := (PDX_lt_iff (hv.trans (by decide))).mpr hv
  have hinner := sum_update_add (fun (_ : Fin NPTENTRIES) pte => entryPages pte) pt.pte (PTX va) pte
  have houter := sum_update_add tablePages pd.pde (PDX va)
    (some ⟨pt.page, update pt.pte (PTX va) pte⟩)
  rw [hpt, tablePages, tablePages, if_pos hu, if_pos hu] at houter
  rw [pages, pages, pde_setPte, hpt, Option.map_some]
  rw [add_assoc, add_assoc, add_shares houter hinner]
  rfl

/-- A new entry in the kernel's mappings. -/
theorem pages_setPte_kern (pd : PageDir) (pte : Pte) (hv : KERNBASE ≤ va) (hlt : va < 2 ^ 32) :
    (pd.setPte va pte).pages = pd.pages := by
  have hu : ¬(PDX va).val < UPDE := fun h => absurd ((PDX_lt_iff hlt).mp h) (by omega)
  rw [pages, pages]
  refine congrArg₂ _ rfl (Finset.sum_congr rfl fun i _ => ?_)
  rw [pde_setPte]
  by_cases hi : i = PDX va
  · subst hi
    rw [update_self]
    cases pd.pde (PDX va) with
    | none => rfl
    | some pt =>
      rw [Option.map_some, tablePages, tablePages, if_neg hu, if_neg hu]
  · rw [update_of_ne hi]

/-- The page of a page table. -/
def tablePage (pd : PageDir) (i : Fin NPDENTRIES) : Multiset Page :=
  match pd.pde i with
  | none => 0
  | some pt => {pt.page}

/-- The pages of the page tables. -/
def tables (pd : PageDir) : Multiset Page := ∑ i, pd.tablePage i

/-- The address of an entry of user memory. -/
theorem exists_address (hi : i.val < UPDE) (j : Fin NPTENTRIES) :
    ∃ va < KERNBASE, PDX va = i ∧ PTX va = j := by
  have hi' : i.val < 512 := hi
  have hj : j.val < 1024 := j.isLt
  refine ⟨i.val * 2 ^ 22 + j.val * 2 ^ 12, by rw [KERNBASE]; omega, ?_, ?_⟩
  · rw [Fin.ext_iff, PDX_val (by omega)]
    omega
  · rw [Fin.ext_iff, PTX_val]
    omega

/-- Without user memory a page directory is made of its own page and the page tables. -/
theorem pages_of_unmapped (h : ∀ va < KERNBASE, ¬pd.Present va) :
    pd.pages = {pd.page} + pd.tables := by
  rw [pages, tables]
  refine congrArg₂ _ rfl (Finset.sum_congr rfl fun i _ => ?_)
  rw [tablePage]
  cases hi : pd.pde i with
  | none => rfl
  | some pt =>
    rw [tablePages]
    split
    next hu =>
      rw [Finset.sum_eq_zero, add_zero]
      intro j _
      refine entryPages_of_not (Bool.eq_false_iff.mpr fun hp => ?_)
      obtain ⟨va, hva, rfl, rfl⟩ := exists_address hu j
      refine h va hva ⟨_, ?_, hp⟩
      rw [look, hi]
      rfl
    next => rw [add_zero]

theorem mem_tables (h : v ∈ pd.tablePage i) : v ∈ pd.tables := by
  rw [tables, Multiset.mem_sum]
  exact ⟨i, Finset.mem_univ i, h⟩

theorem card_tables_le : pd.tables.card ≤ NPDENTRIES := by
  have hone : ∀ i, (pd.tablePage i).card ≤ 1 := by
    intro i
    rw [tablePage]
    cases pd.pde i with
    | none => exact Nat.zero_le 1
    | some pt => exact le_rfl
  rw [tables, Multiset.card_sum]
  refine (Finset.sum_le_card_nsmul _ _ 1 fun i _ => hone i).trans ?_
  rw [Finset.card_univ, Fintype.card_fin, smul_eq_mul, Nat.mul_one]

theorem sum_entries : (entries.map pd.tablePage).sum = pd.tables := by
  unfold entries
  exact (Fin.sum_univ_def _).symm

theorem page_mem_pages (pd : PageDir) : pd.page ∈ pd.pages := by
  rw [pages, Multiset.mem_add]
  exact .inl (Multiset.mem_singleton_self _)

-- A membership in the pages is not to be decided by looking at the tables.
attribute [irreducible] pages tables

theorem tables_subset_pages (h : v ∈ pd.tables) : v ∈ pd.pages := by
  rw [tables, Multiset.mem_sum] at h
  obtain ⟨i, -, hv⟩ := h
  rw [pages, Multiset.mem_add, Multiset.mem_sum]
  refine .inr ⟨i, Finset.mem_univ i, ?_⟩
  rw [tablePage] at hv
  cases hi : pd.pde i with
  | none => rwa [hi] at hv
  | some pt =>
    rw [hi] at hv
    exact Multiset.mem_add.mpr (.inl hv)

theorem tables_setPte (pte : Pte) : (pd.setPte va pte).tables = pd.tables := by
  rw [tables, tables]
  refine Finset.sum_congr rfl fun i _ => ?_
  rw [tablePage, tablePage, pde_setPte]
  by_cases hi : i = PDX va
  · rw [hi, update_self]
    cases pd.pde (PDX va) <;> rfl
  · rw [update_of_ne hi]

/-- A page of user memory belongs to the page directory. -/
theorem addr_mem_pages (h : pd.look va = some pte) (hp : pte.p = true) (hv : va < KERNBASE) :
    pte.addr ∈ pd.pages := by
  have hpages := pages_setPte .zero h hv
  rw [entryPages_of_p hp, entryPages_of_not rfl, add_zero] at hpages
  rw [← hpages, Multiset.mem_add]
  exact .inr (Multiset.mem_singleton_self _)

/-- It is neither the page directory nor a page table, if all the pages are distinct. -/
theorem addr_notMem_tables (hd : pd.pages.Nodup) (h : pd.look va = some pte) (hp : pte.p = true)
    (hv : va < KERNBASE) : pte.addr ≠ pd.page ∧ pte.addr ∉ pd.tables := by
  have hpages := pages_setPte .zero h hv
  rw [entryPages_of_p hp, entryPages_of_not rfl, add_zero] at hpages
  rw [← hpages, Multiset.nodup_add] at hd
  have hnot : pte.addr ∉ (pd.setPte va .zero).pages := fun hc =>
    Multiset.disjoint_left.mp hd.2.2 hc (Multiset.mem_singleton_self _)
  refine ⟨fun hc => hnot ?_, fun hc => hnot (tables_subset_pages ?_)⟩
  · rw [hc]
    exact page_mem_pages (pd.setPte va .zero)
  · rwa [tables_setPte]

/-- What a page of a page directory is. -/
theorem mem_pages (h : v ∈ pd.pages) : v = pd.page ∨ v ∈ pd.tables ∨
    ∃ va < KERNBASE, ∃ pte ∈ pd.entry va, pte.addr = v := by
  rw [pages, Multiset.mem_add, Multiset.mem_singleton, Multiset.mem_sum] at h
  refine h.imp_right ?_
  rintro ⟨i, -, hv⟩
  cases hi : pd.pde i with
  | none =>
    rw [hi] at hv
    exact absurd hv (Multiset.notMem_zero v)
  | some pt =>
    rw [hi, tablePages, Multiset.mem_add] at hv
    have htable : pd.tablePage i = {pt.page} := by rw [tablePage, hi]
    rw [← htable] at hv
    refine hv.imp mem_tables fun hv => ?_
    split at hv
    next hu =>
      rw [Multiset.mem_sum] at hv
      obtain ⟨j, -, hj⟩ := hv
      obtain ⟨va, hva, rfl, rfl⟩ := exists_address hu j
      by_cases hp : (pt.pte (PTX va)).p = true
      · rw [entryPages_of_p hp, Multiset.mem_singleton] at hj
        exact ⟨va, hva, _, mem_entry.mpr ⟨by rw [look, hi]; rfl, hp⟩, hj.symm⟩
      · rw [entryPages_of_not (Bool.eq_false_iff.mpr hp)] at hj
        exact absurd hj (Multiset.notMem_zero v)
    next => exact absurd hv (Multiset.notMem_zero v)

end PageDir

end Xv6.Vm
