import Mathlib.Algebra.BigOperators.Fin
import Xv6.Lib.Prog

/-!
# Physical pages and page tables

`kalloc.c` and `vm.c`. A physical page is a page number. The allocator is the list of its
free pages; since it may have to fail at any time, whoever uses the memory besides, it
comes with a list that says which of the next calls fail anyway.

A page directory is one page with, at each of its entries, nothing or a page table; a page
table is one page with page table entries. A pointer to an entry of a page table, as
`walkpgdir` returns it, is a virtual address here, together with the page directory. So a
function that changes a page directory returns the new one, also when it fails. With
`alloc` zero `walkpgdir` only looks (`Xv6.Vm.PageDir.look`).

Addresses are natural numbers below `2 ^ 32`; where the source computes with `uint`s that
may overflow, the result is `Xv6.Vm.uint`. A loop over pages is a recursion on the number of
pages, and comments say what that number is.
-/

namespace Xv6.Vm

open Lib Function

/-! ### Addresses -/

/-- A number as a `uint`. -/
def uint (x : ℤ) : ℕ := (x % 2 ^ 32).toNat

/-- Bytes mapped by a page. -/
def PGSIZE : ℕ := 4096

/-- Entries of a page directory. -/
def NPDENTRIES : ℕ := 1024

/-- Entries of a page table. -/
def NPTENTRIES : ℕ := 1024

instance : NeZero NPDENTRIES := ⟨by decide⟩

instance : NeZero NPTENTRIES := ⟨by decide⟩

/-- Start of extended memory. -/
def EXTMEM : ℕ := 0x100000

/-- Top of physical memory. -/
def PHYSTOP : ℕ := 0xE000000

/-- Other devices are at high addresses. -/
def DEVSPACE : ℕ := 0xFE000000

/-- First kernel virtual address. -/
def KERNBASE : ℕ := 0x80000000

/-- Address where the kernel is linked. -/
def KERNLINK : ℕ := KERNBASE + EXTMEM

/-- Page directory index. -/
def PDX (va : ℕ) : Fin NPDENTRIES := Fin.ofNat _ (va / 2 ^ 22)

/-- Page table index. -/
def PTX (va : ℕ) : Fin NPTENTRIES := Fin.ofNat _ (va / 2 ^ 12)

def PGROUNDUP (sz : ℕ) : ℕ := uint (sz + PGSIZE - 1) / PGSIZE * PGSIZE

def PGROUNDDOWN (a : ℕ) : ℕ := a / PGSIZE * PGSIZE

/-- The symbols that the linker defines. -/
structure Layout where
  /-- The first address of the kernel's data. -/
  data : ℕ
  /-- The first address after the kernel. -/
  last : ℕ
  data_gt : KERNLINK < data
  data_aligned : data % PGSIZE = 0
  data_lt : data < last
  last_le : last ≤ KERNBASE + PHYSTOP

/-- A kernel of two pages. -/
def smallKernel : Layout where
  data := KERNLINK + PGSIZE
  last := KERNLINK + 2 * PGSIZE
  data_gt := by decide
  data_aligned := by decide
  data_lt := by decide
  last_le := by decide

/-! ### The allocator -/

/-- The number of a physical page. -/
abbrev Page := ℕ

/-- The free pages, and which of the next calls of `kalloc` fail. -/
structure Mem where
  freelist : List Page
  fails : List Bool

/-- An operation on the memory. -/
inductive Op where
  | panic (msg : String)
  | kalloc
  | kfree (v : Page)

/-- What an operation answers. -/
@[reducible] def Op.Res : Op → Type
  | .panic _ => Empty
  | .kalloc => Option Page
  | .kfree _ => Unit

/-- The page is one that may be handed to the allocator. -/
def Layout.Has (k : Layout) (v : Page) : Prop :=
  k.last ≤ KERNBASE + v * PGSIZE ∧ v * PGSIZE < PHYSTOP

instance (k : Layout) : DecidablePred k.Has := fun _ => inferInstanceAs (Decidable (_ ∧ _))

/-- What the operations do. -/
def handle (k : Layout) : (o : Op) → Mem → Effect (o.Res × Mem)
  | .panic msg, _ => .panic msg
  | .kalloc, ⟨free, true :: fails⟩ => .ok (none, ⟨free, fails⟩)
  | .kalloc, ⟨[], fails⟩ => .ok (none, ⟨[], fails.tail⟩)
  | .kalloc, ⟨r :: free, fails⟩ => .ok (some r, ⟨free, fails.tail⟩)
  | .kfree v, ⟨free, fails⟩ =>
    if k.Has v then .ok ((), ⟨v :: free, fails⟩) else .panic "kfree"

/-- A program that uses the allocator. -/
abbrev VmM := Prog Op.Res

/-- `panic`. -/
def panic {α : Type} (msg : String) : VmM α := .op (.panic msg) fun e => nomatch e

/-- `if(c) panic(msg)`. -/
def panicIf (c : Prop) [Decidable c] (msg : String) : VmM Unit :=
  if c then panic msg else .ret ()

/-- `kalloc`. -/
def kalloc : VmM (Option Page) := Prog.perform Op.kalloc

/-- `kfree`. -/
def kfree (v : Page) : VmM Unit := Prog.perform (Op.kfree v)

/-! ### Page tables -/

/-- `pte_t`: the page and the flags `PTE_P`, `PTE_W` and `PTE_U`. -/
structure Pte where
  addr : Page
  p : Bool
  w : Bool
  u : Bool
  deriving DecidableEq

/-- The entry of a cleared page. -/
def Pte.zero : Pte := ⟨0, false, false, false⟩

/-- A page table. -/
structure PageTable where
  page : Page
  pte : Fin NPTENTRIES → Pte

/-- A page directory. Where an entry is present, `PTE_W` and `PTE_U` are set. -/
structure PageDir where
  page : Page
  pde : Fin NPDENTRIES → Option PageTable

namespace PageDir

variable (pd : PageDir)

/-- `walkpgdir(pgdir, va, 0)`, and what the entry is. -/
def look (va : ℕ) : Option Pte := (pd.pde (PDX va)).map fun pt => pt.pte (PTX va)

/-- A new page table. -/
def setPde (i : Fin NPDENTRIES) (v : Page) : PageDir :=
  ⟨pd.page, update pd.pde i (some ⟨v, fun _ => Pte.zero⟩)⟩

/-- Store a page table entry, through the pointer that `walkpgdir` has returned. -/
def setPte (va : ℕ) (pte : Pte) : PageDir :=
  ⟨pd.page, update pd.pde (PDX va) ((pd.pde (PDX va)).map fun pt =>
    ⟨pt.page, update pt.pte (PTX va) pte⟩)⟩

end PageDir

/-- `walkpgdir(pgdir, va, 1)` -/
def walkpgdir (pd : PageDir) (va : ℕ) : VmM (Option PageDir) :=
  match pd.pde (PDX va) with
  | some _ => pure (some pd)
  | none => do
    match ← kalloc with
    | none => pure none
    | some pgtab => pure (some (pd.setPde (PDX va) pgtab))

/-- The permissions of a mapping. -/
structure Perm where
  w : Bool
  u : Bool

/-- The loop of `mappages`, for `n` pages from the address `a` on. -/
def mappagesLoop (perm : Perm) : (n : ℕ) → PageDir → (a : ℕ) → (pa : Page) → VmM (PageDir × Bool)
  | 0, pd, _, _ => pure (pd, true)
  | n + 1, pd, a, pa => do
    match ← walkpgdir pd a with
    | none => pure (pd, false)
    | some pd => do
      panicIf (∃ pte ∈ pd.look a, pte.p = true) "remap"
      mappagesLoop perm n (pd.setPte a ⟨pa, true, perm.w, perm.u⟩) (uint (a + PGSIZE)) (pa + 1)

/-- `mappages`. The result is false if a page table could not be allocated. The loop ends
when `a` is `last`, the page of the last byte. -/
def mappages (pd : PageDir) (va size : ℕ) (pa : Page) (perm : Perm) : VmM (PageDir × Bool) :=
  let a := PGROUNDDOWN va
  let last := PGROUNDDOWN (uint (va + size - 1))
  mappagesLoop perm (uint (last - a) / PGSIZE + 1) pd a pa

/-- The loop of `deallocuvm`, for `a` at most `n` pages below `oldsz`. -/
def deallocuvmLoop (oldsz : ℕ) : (n : ℕ) → PageDir → (a : ℕ) → VmM PageDir
  | 0, pd, _ => pure pd
  | n + 1, pd, a =>
    if a < oldsz then
      match pd.look a with
      -- `a = PGADDR(PDX(a) + 1, 0, 0) - PGSIZE`, and then `a += PGSIZE`
      | none => deallocuvmLoop oldsz n pd (((PDX a).val + 1) * 2 ^ 22)
      | some pte =>
        if pte.p then do
          panicIf (pte.addr = 0) "kfree"
          kfree pte.addr
          deallocuvmLoop oldsz n (pd.setPte a .zero) (a + PGSIZE)
        else deallocuvmLoop oldsz n pd (a + PGSIZE)
    else pure pd

/-- `deallocuvm` -/
def deallocuvm (pd : PageDir) (oldsz newsz : ℕ) : VmM (PageDir × ℕ) :=
  if newsz ≥ oldsz then pure (pd, oldsz)
  else do
    let pd ← deallocuvmLoop oldsz (oldsz / PGSIZE + 1) pd (PGROUNDUP newsz)
    pure (pd, newsz)

/-- The second loop of `freevm`. -/
def freeTables (pd : PageDir) : List (Fin NPDENTRIES) → VmM Unit
  | [] => pure ()
  | i :: is =>
    match pd.pde i with
    | some pt => do
      kfree pt.page
      freeTables pd is
    | none => freeTables pd is

/-- The entries of a page directory, in order. -/
@[irreducible] def entries : List (Fin NPDENTRIES) := List.finRange NPDENTRIES

/-- `freevm` -/
def freevm (pd : PageDir) : VmM Unit := do
  let (pd, _) ← deallocuvm pd KERNBASE 0
  freeTables pd entries
  kfree pd.page

/-- A mapping of the kernel. -/
structure Kmap where
  virt : ℕ
  phys_start : ℕ
  phys_end : ℕ
  perm : Perm

/-- `kmap` -/
def kmap (k : Layout) : List Kmap :=
  [⟨KERNBASE, 0, EXTMEM, ⟨true, false⟩⟩,
    ⟨KERNLINK, EXTMEM, k.data - KERNBASE, ⟨false, false⟩⟩,
    ⟨k.data, k.data - KERNBASE, PHYSTOP, ⟨true, false⟩⟩,
    ⟨DEVSPACE, DEVSPACE, 0, ⟨true, false⟩⟩]

/-- The loop of `setupkvm`. -/
def setupkvmLoop (pd : PageDir) : List Kmap → VmM (Option PageDir)
  | [] => pure (some pd)
  | k :: ks => do
    let (pd, ok) ← mappages pd k.virt (uint (k.phys_end - k.phys_start)) (k.phys_start / PGSIZE)
      k.perm
    if ok then setupkvmLoop pd ks
    else do
      freevm pd
      pure none

/-- `setupkvm` -/
def setupkvm (k : Layout) : VmM (Option PageDir) := do
  match ← kalloc with
  | none => pure none
  | some pgdir => do
    panicIf (KERNBASE + PHYSTOP > DEVSPACE) "PHYSTOP too high"
    setupkvmLoop ⟨pgdir, fun _ => none⟩ (kmap k)

/-- The loop of `allocuvm`, for `n` pages from the address `a` on. -/
def allocuvmLoop (oldsz newsz : ℕ) : (n : ℕ) → PageDir → (a : ℕ) → VmM (PageDir × ℕ)
  | 0, pd, _ => pure (pd, newsz)
  | n + 1, pd, a => do
    match ← kalloc with
    | none => do
      let (pd, _) ← deallocuvm pd newsz oldsz
      pure (pd, 0)
    | some mem => do
      let (pd, ok) ← mappages pd a PGSIZE mem ⟨true, true⟩
      if ok then allocuvmLoop oldsz newsz n pd (a + PGSIZE)
      else do
        let (pd, _) ← deallocuvm pd newsz oldsz
        kfree mem
        pure (pd, 0)

/-- `allocuvm`. The loop runs while `a < newsz`. -/
@[irreducible] def allocuvm (pd : PageDir) (oldsz newsz : ℕ) : VmM (PageDir × ℕ) :=
  if newsz ≥ KERNBASE then pure (pd, 0)
  else if newsz < oldsz then pure (pd, oldsz)
  else
    let a := PGROUNDUP oldsz
    allocuvmLoop oldsz newsz ((newsz - a + PGSIZE - 1) / PGSIZE) pd a

/-- `clearpteu` -/
def clearpteu (pd : PageDir) (uva : ℕ) : VmM PageDir :=
  match pd.look uva with
  | none => panic "clearpteu"
  | some pte => pure (pd.setPte uva { pte with u := false })

end Xv6.Vm
