import Xv6.Malloc.Run
import Xv6.Vm.Grow

/-!
# `malloc` with the numbers of the machine

`Xv6.Malloc.Heap.malloc` is right for requests of moderate size. For the others it matters that
`umalloc.c` computes with words of 32 bits: the number of headers may wrap around, and so may the
number of bytes for `sbrk`, which takes it for a signed one. What `sbrk` does is decided
by `growproc` in the kernel, and that does not fail when the number is zero or negative.

The memory of a process is mapped up to some address, and an access to another one is a fault. A
list that was right is right as long as all of its blocks are mapped, so there are just two places
where a fault can happen. The stack of a process is the last page below the address `lo` where the
heap begins, and returning from `sbrk` reads it; and `morecore` writes a header to the memory that it
has got. If both is possible, then no page has been taken away.
-/

namespace Xv6.Malloc

open Lib
open Vm (uint KERNBASE PGSIZE PGROUNDUP)

/-! ### The kernel -/

/-- The memory of a process: its size, and the address up to which it is mapped. -/
structure Space where
  sz : ℕ
  top : ℕ

/-- **`growproc`**, with `allocuvm` and `deallocuvm`; `ok` says if there are enough free pages. The
result is false for `-1`. -/
def growproc (ok : Bool) (m : Space) (n : ℤ) : Space × Bool :=
  let newsz := uint (m.sz + n)
  if n > 0 then
    if newsz ≥ KERNBASE then (m, false)
    else if newsz < m.sz then (m, m.sz ≠ 0)
    else if ok then (⟨newsz, PGROUNDUP newsz⟩, newsz ≠ 0) else (m, false)
  else if n < 0 then
    if newsz ≥ m.sz then (m, m.sz ≠ 0)
    else if newsz = 0 then (⟨m.sz, 0⟩, false) else (⟨newsz, PGROUNDUP newsz⟩, true)
  else (m, true)

theorem growproc_pos {ok : Bool} {sz top : ℕ} {n : ℤ} (hn : 0 < n) : growproc ok ⟨sz, top⟩ n =
    if uint (sz + n) ≥ KERNBASE then (⟨sz, top⟩, false)
    else if uint (sz + n) < sz then (⟨sz, top⟩, sz ≠ 0)
    else if ok then (⟨uint (sz + n), PGROUNDUP (uint (sz + n))⟩, uint (sz + n) ≠ 0)
    else (⟨sz, top⟩, false) :=
  if_pos hn

theorem growproc_neg {ok : Bool} {sz top : ℕ} {n : ℤ} (hn : n < 0) : growproc ok ⟨sz, top⟩ n =
    if uint (sz + n) ≥ sz then ((⟨sz, top⟩, sz ≠ 0) : Space × Bool)
    else if uint (sz + n) = 0 then (⟨sz, 0⟩, false)
    else (⟨uint (sz + n), PGROUNDUP (uint (sz + n))⟩, true) :=
  (if_neg hn.not_gt).trans (if_pos hn)

/-- A word of the machine. -/
def word (n : ℕ) : ℕ := n % 2 ^ 32

/-- A word as a number with a sign. -/
def toInt (x : ℕ) : ℤ := if x < 2 ^ 31 then x else x - 2 ^ 32

section Kernel

variable {k : Vm.Layout} {m : Vm.Mem} {p : Vm.Proc} {n : ℤ}

/-- **This is what the kernel does.** If no `kalloc` fails on its own, two free pages for each new
page of the process are enough. -/
theorem growproc_exec (hp : p.Fits) (hhas : ∀ x ∈ m.all p.pgdir.pages, k.Has x)
    (hnodup : (m.all p.pgdir.pages).Nodup) (b : Vm.Bytes) (hn : -2 ^ 31 ≤ n) (hn' : n < 2 ^ 31) :
    ∃ q r s, (Vm.growproc p n).exec (Vm.handleBytes k) (m, b) = .ok ((q, r), s) ∧
      ∃ ok top, growproc ok ⟨p.sz, PGROUNDUP p.sz⟩ n = (⟨q.sz, top⟩, r) ∧
        (∀ va < KERNBASE, q.pgdir.Present va ↔ va < top) ∧
        (ok = false → uint (p.sz + n) < KERNBASE → m.fails = [] → m.freelist.length <
          2 * (Vm.pageAddrs (PGROUNDUP p.sz) (uint (p.sz + n))).length) := by
  suffices h : (Vm.vmb k fun _ => True).wp (Vm.growproc p n) (fun r _ => ∃ ok top,
      growproc ok ⟨p.sz, PGROUNDUP p.sz⟩ n = (⟨r.1.sz, top⟩, r.2) ∧
        (∀ va < KERNBASE, r.1.pgdir.Present va ↔ va < top) ∧
        (ok = false → uint (p.sz + n) < KERNBASE → m.fails = [] → m.freelist.length <
          2 * (Vm.pageAddrs (PGROUNDUP p.sz) (uint (p.sz + n))).length)) (m, b) by
    obtain ⟨⟨q, r⟩, s, hexec, hq⟩ := Vm.exec_of_wp h
    exact ⟨q, r, s, hexec, hq⟩
  have hnew := Vm.uint_add hp hn hn'
  have hne {P : Prop} (h : true = false) : P := Bool.noConfusion h
  rcases lt_trichotomy n 0 with hneg | rfl | hpos
  · rcases lt_trichotomy (p.sz + n : ℤ) 0 with hbelow | hzero | habove
    · refine Vm.wp_growproc_below hp hhas hn hbelow ⟨true, _, ?_, hp.present_iff, hne⟩
      rw [if_neg (by omega)] at hnew
      rw [growproc_neg hneg, if_pos (by omega)]
    · obtain rfl : n = -p.sz := by omega
      refine Vm.wp_growproc_to_zero hp hhas (by omega) fun pd' m' b' hgone =>
        ⟨true, 0, ?_, ?_, hne⟩
      · rw [if_pos (by omega)] at hnew
        rw [growproc_neg hneg, if_neg (by omega), if_pos (by omega)]
      · exact fun va hva => iff_of_false (hgone va hva) (Nat.not_lt_zero va)
    · refine Vm.wp_growproc_neg hp hhas hnodup hneg habove fun q m' b' hq =>
        ⟨true, PGROUNDUP q.sz, ?_, hq.fits.present_iff, hne⟩
      have hsz := hq.sz
      rw [if_pos (by omega)] at hnew
      obtain heq : uint (p.sz + n) = q.sz := by omega
      rw [growproc_neg hneg, heq, if_neg (by omega), if_neg (by omega)]
  · rw [Vm.growproc, if_neg (lt_irrefl 0), if_neg (lt_irrefl 0)]
    refine ⟨true, _, ?_, hp.present_iff, hne⟩
    rw [growproc, if_neg (lt_irrefl 0), if_neg (lt_irrefl 0)]
  · rw [if_pos (by omega)] at hnew
    refine Vm.wp_growproc_pos hp hhas hnodup hpos hn' fun q r m' b' hq hfew => ⟨r, ?_⟩
    cases r with
    | true =>
      have hsz := hq.sz
      have hlt := hq.fits.lt
      obtain heq : uint (p.sz + n) = q.sz := by omega
      refine ⟨PGROUNDUP q.sz, ?_, hq.fits.present_iff, hne⟩
      rw [growproc_pos hpos, heq, if_neg (by omega), if_neg (by omega), if_pos rfl,
        decide_eq_true (by omega)]
    | false =>
      refine ⟨PGROUNDUP p.sz, ?_, fun va hva => ?_, hfew⟩
      · rw [growproc_pos hpos, hq.sz]
        split_ifs with h1 h2 h3
        · rfl
        · omega
        · exact h3.elim
        · rfl
      · rw [← hp.present_iff va hva, ← not_iff_not, ← Vm.PageDir.entry_eq_none_iff,
          ← Vm.PageDir.entry_eq_none_iff, hq.user va hva]

/-- A process without memory asks for a page and gets it. -/
theorem growproc_exec_empty : ∃ q s, (Vm.growproc ⟨0, Vm.emptyDir⟩ 4096).exec
    (Vm.handleBytes Vm.smallKernel) (⟨[301, 302], []⟩, fun _ _ => 5) = .ok ((q, true), s) ∧
      growproc true ⟨0, PGROUNDUP 0⟩ 4096 = (⟨q.sz, 4096⟩, true) ∧
      ∀ va < KERNBASE, q.pgdir.Present va ↔ va < 4096 := by
  have hall := Vm.emptyDir_all [301, 302]
  obtain ⟨q, r, s, hx, ok, top, ht, hpres, hfew⟩ := growproc_exec (k := Vm.smallKernel) (n := 4096)
    (m := ⟨[301, 302], []⟩) Vm.emptyDir_fits (by rw [hall]; decide) (by rw [hall]; decide)
    (fun _ _ => 5) (by decide) (by decide)
  cases ok with
  | true =>
    have hrun : growproc true ⟨0, PGROUNDUP 0⟩ 4096 = (⟨4096, 4096⟩, true) := rfl
    obtain ⟨hspace, rfl⟩ := Prod.mk.inj (ht.symm.trans hrun)
    obtain ⟨hsz, rfl⟩ := Space.mk.inj hspace
    exact ⟨q, s, hx, by rw [hsz]; exact hrun, hpres⟩
  | false => exact absurd (hfew rfl (by decide) rfl) (by decide)

end Kernel

/-! ### The allocator -/

/-- Why a call does not return: a page fault, or a loop has no more rounds. -/
inductive Trap where
  | fault
  | rounds
  deriving DecidableEq

/-- A heap, and the address up to which the memory of the process is mapped. -/
structure Machine where
  heap : Heap
  top : ℕ

namespace Machine

/-- **`sbrk`**, which takes a word; the result is none for `-1`. -/
def sbrk (lo : ℕ) (ok : Bool) (s : Machine) (n : ℕ) : Except Trap (Machine × Option ℕ) :=
  let r := growproc ok ⟨s.heap.brk, s.top⟩ (toInt n)
  if r.1.top < lo then .error .fault
  else .ok (⟨{ s.heap with brk := r.1.sz }, r.1.top⟩, if r.2 then some s.heap.brk else none)

/-- **`morecore`** -/
def morecore (lo : ℕ) (s : Machine) (fuel nu : ℕ) (ok : Bool) :
    Except Trap (Machine × Option ℕ) :=
  let nu := if nu < 4096 then 4096 else nu
  (s.sbrk lo ok (nu * 8 % 2 ^ 32)).bind fun x =>
    match x.2 with
    | none => .ok (x.1, none)
    | some hp =>
      if x.1.top < hp + 8 then .error .fault
      else
        match (x.1.heap.set hp { x.1.heap.mem hp with size := nu }).free fuel (hp + 8) word with
        | none => .error .rounds
        | some h => .ok (⟨h, x.1.top⟩, some h.freep)

/-- The loop of **`malloc`**. -/
def mallocLoop (lo nunits : ℕ) : (fuel : ℕ) → Machine → List Bool → (prevp p : ℕ) →
    Except Trap (Machine × Option ℕ)
  | 0, _, _, _, _ => .error .rounds
  | fuel + 1, s, ok, prevp, p =>
    s.heap.round nunits p
      (.ok (⟨(s.heap.take nunits prevp p word).1, s.top⟩, some (s.heap.take nunits prevp p word).2))
      ((s.morecore lo fuel nunits (ok.headD false)).bind fun x =>
        match x.2 with
        | none => .ok (x.1, none)
        | some p => mallocLoop lo nunits fuel x.1 ok.tail p (x.1.heap.mem p).ptr)
      (mallocLoop lo nunits fuel s ok p (s.heap.mem p).ptr)

/-- **`malloc`**. What is in the list says for each call of `sbrk` if there are enough pages. -/
def malloc (base lo : ℕ) (s : Machine) (fuel nbytes : ℕ) (ok : List Bool) :
    Except Trap (Machine × Option ℕ) :=
  let nunits := (nbytes + 8 - 1) % 2 ^ 32 / 8 + 1
  let h := s.heap.init base
  mallocLoop lo nunits fuel ⟨h, s.top⟩ ok h.freep (h.mem h.freep).ptr

end Machine

end Xv6.Malloc
