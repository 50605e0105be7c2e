import Xv6.Vm.Exact

/-!
# `growproc`

`growproc` enlarges or shrinks the memory of a process. It should do all of this or
nothing (`Xv6.Vm.Proc.AllOrNothing`), and it nearly does: `allocuvm` takes back
what it has done when there is no more memory, and a size that does not fit is refused.

But `deallocuvm` returns the new size, and `growproc` takes zero for a failure. A process
that gives back all of its memory has lost it when `growproc` says that nothing was done
(`Xv6.Vm.wp_growproc_to_zero`); and if it gives back more than it has, the new size wraps around and
`deallocuvm` returns the old one, so that `growproc` says that all was done. **These are the only
cases** (`Xv6.Vm.growproc_iff`).
-/

namespace Xv6.Vm

open Lib

/-- `struct proc`, as far as it is about memory. -/
structure Proc where
  sz : ℕ
  pgdir : PageDir

/-- **`growproc`**; the result is false for `-1`. -/
def growproc (p : Proc) (n : ℤ) : VmM (Proc × Bool) :=
  if n > 0 then do
    let (pd, sz) ← allocuvm p.pgdir p.sz (uint (p.sz + n))
    if sz = 0 then pure ({ p with pgdir := pd }, false) else pure (⟨sz, pd⟩, true)
  else if n < 0 then do
    let (pd, sz) ← deallocuvm p.pgdir p.sz (uint (p.sz + n))
    if sz = 0 then pure ({ p with pgdir := pd }, false) else pure (⟨sz, pd⟩, true)
  else pure (p, true)

namespace Proc

/-- The user memory of a process is just the pages below its size. -/
structure Fits (p : Proc) : Prop where
  lt : p.sz < KERNBASE
  present_iff : ∀ va < KERNBASE, p.pgdir.Present va ↔ va < PGROUNDUP p.sz

/-- The process has grown by `n` bytes. -/
structure Resized (p : Proc) (b : Bytes) (n : ℤ) (q : Proc) (b' : Bytes) : Prop where
  fits : q.Fits
  sz : (q.sz : ℤ) = p.sz + n
  user : ∀ va < KERNBASE, va < PGROUNDUP p.sz → va < PGROUNDUP q.sz →
    q.pgdir.entry va = p.pgdir.entry va
  same : ∀ va < KERNBASE, va < PGROUNDUP q.sz → ∀ pte ∈ p.pgdir.entry va,
    b' pte.addr = b pte.addr
  clear : ∀ va, PGROUNDUP p.sz ≤ va → va < PGROUNDUP q.sz → ∀ pte ∈ q.pgdir.entry va,
    b' pte.addr = fun _ => 0

/-- The process is what it was. -/
structure Unchanged (p : Proc) (b : Bytes) (q : Proc) (b' : Bytes) : Prop where
  sz : q.sz = p.sz
  user : ∀ va < KERNBASE, q.pgdir.entry va = p.pgdir.entry va
  same : ∀ va < KERNBASE, ∀ pte ∈ p.pgdir.entry va, b' pte.addr = b pte.addr

/-- **All or nothing.** -/
def AllOrNothing (p : Proc) (b : Bytes) (n : ℤ) (q : Proc) (ok : Bool) (b' : Bytes) : Prop :=
  if ok then p.Resized b n q b' else p.Unchanged b q b'

end Proc

variable {k : Layout} {bad : String → Prop} {m : Mem} {b : Bytes} {p : Proc} {n : ℤ}
  {Q : Proc × Bool → Mem × Bytes → Prop}

variable (hp : p.Fits)
include hp

theorem uint_add (hn : -2 ^ 31 ≤ n) (hn' : n < 2 ^ 31) :
    (uint (p.sz + n) : ℤ) = if 0 ≤ p.sz + n then p.sz + n else p.sz + n + 2 ^ 32 := by
  have hlt := hp.lt
  rw [KERNBASE] at hlt
  rw [uint]
  split <;> omega

theorem Proc.Fits.not_present {va : ℕ} (hva : PGROUNDUP p.sz ≤ va)
    (hlt : va < KERNBASE) : ¬p.pgdir.Present va := by
  rw [hp.present_iff va hlt]
  omega

variable (hhas : ∀ x ∈ m.all p.pgdir.pages, k.Has x)
include hhas

/-- The process grows. -/
theorem wp_growproc_pos
    (hnodup : (m.all p.pgdir.pages).Nodup) (hpos : 0 < n) (hn : n < 2 ^ 31)
    (hQ : ∀ q ok m' b', p.AllOrNothing b n q ok b' →
      (ok = false → uint (p.sz + n) < KERNBASE → m.fails = [] →
        m.freelist.length < 2 * (pageAddrs (PGROUNDUP p.sz) (uint (p.sz + n))).length) →
      Q (q, ok) (m', b')) :
    (vmb k bad).wp (growproc p n) Q (m, b) := by
  have hnew := uint_add hp (by omega) hn
  rw [if_pos (by omega)] at hnew
  rw [growproc, if_pos hpos]
  refine .bind (wp_allocuvm_bytes (fun va => hp.not_present) hhas ?_ ?_ ?_)
  · intro hle hlt pd' m' b' hg _ _
    have he := hg.enlarged hnodup hp.present_iff hle hlt
    have hres : p.Resized b n ⟨uint (p.sz + n), pd'⟩ b' :=
      ⟨⟨hlt, he.exactly⟩, hnew, fun va _ hva _ => (he.old va hva).1,
        fun va hva _ => hg.same hnodup va hva,
        fun va hva hva' pte hpte => (he.fresh va hva hva' pte hpte).2.2⟩
    change (vmb k bad).wp (if _ then _ else _) Q _
    rw [if_neg (by omega)]
    exact hQ _ true m' b' hres fun hc => by cases hc
  · intro hlt _
    omega
  · intro pd' m' b' hkept _ hfew
    refine hQ _ false m' b' ⟨rfl, hkept.user, hkept.same hnodup⟩ fun _ hlt e => ?_
    rw [pageAddrs, List.length_range']
    exact hfew hlt e

/-- The process shrinks, but not to nothing. -/
theorem wp_growproc_neg
    (hnodup : (m.all p.pgdir.pages).Nodup) (hneg : n < 0) (hpos : 0 < p.sz + n)
    (hQ : ∀ q m' b', p.Resized b n q b' → Q (q, true) (m', b')) :
    (vmb k bad).wp (growproc p n) Q (m, b) := by
  have hlt := hp.lt
  have hnew : (uint (p.sz + n) : ℤ) = p.sz + n := by
    have h32 : KERNBASE < 2 ^ 32 := by decide
    rw [uint]
    omega
  rw [growproc, if_neg (by omega), if_pos hneg]
  refine .bind (wp_deallocuvm_bytes hlt.le hhas (fun hc => by omega) ?_)
  intro hshrink pd' m' b' hun hall _ hb
  have hround := PGROUNDUP_mono hshrink.le hlt.le
  have hout : ∀ va < KERNBASE, va < PGROUNDUP (uint (p.sz + n)) →
      pd'.entry va = p.pgdir.entry va := fun va hva hlo =>
    hun.entry_out (hva.trans (by decide)) (by omega)
  have hres : p.Resized b n ⟨uint (p.sz + n), pd'⟩ b' := by
    refine ⟨⟨hshrink.trans hlt, fun va hva => ?_⟩, hnew, fun va hva _ => hout va hva,
      fun va hva hlo pte hpte => hb _ ?_, fun va hva hva' => ?_⟩
    · by_cases hlo : va < PGROUNDUP (uint (p.sz + n))
      · have hpres : p.pgdir.Present va := (hp.present_iff va hva).mpr (by omega)
        refine iff_of_true ?_ hlo
        rwa [← not_not (a := pd'.Present va), ← PageDir.entry_eq_none_iff, hout va hva hlo,
          PageDir.entry_eq_none_iff, not_not]
      · refine iff_of_false ?_ hlo
        by_cases hin : va < PGROUNDUP p.sz
        · exact hun.ins va (not_lt.mp hlo) hin
        · rw [PageDir.Present, hun.out va (hva.trans (by decide)) (by omega)]
          exact hp.not_present (not_lt.mp hin) hva
    · rw [← hout va hva hlo] at hpte
      exact PageDir.notMem_free (hall.symm ▸ hnodup) hpte hva
    · change va < PGROUNDUP (uint (p.sz + n)) at hva'
      omega
  change (vmb k bad).wp (if _ then _ else _) Q _
  rw [if_neg (by omega)]
  exact hQ _ m' b' hres

/-- A process that has memory gives back all of it: its memory is gone, and `growproc`
returns `-1`. -/
theorem wp_growproc_to_zero
    (hsz : 0 < p.sz)
    (hQ : ∀ pd' m' b', (∀ va < KERNBASE, ¬pd'.Present va) →
      Q ({ p with pgdir := pd' }, false) (m', b')) :
    (vmb k bad).wp (growproc p (-p.sz)) Q (m, b) := by
  have hlt := hp.lt
  have hzero : uint (p.sz + -p.sz) = 0 := by
    rw [Int.add_right_neg]
    rfl
  rw [growproc, if_neg (by omega), if_pos (by omega), hzero]
  refine .bind (wp_deallocuvm_bytes hlt.le hhas (fun hc => by omega) ?_)
  intro _ pd' m' b' hun _ _ _
  refine hQ pd' m' b' fun va hva => ?_
  by_cases hin : va < PGROUNDUP p.sz
  · exact hun.ins va (Nat.zero_le va) hin
  · rw [PageDir.Present, hun.out va (hva.trans (by decide)) fun hc => hin hc.2]
    exact hp.not_present (not_lt.mp hin) hva

/-- A process gives back more than it has: nothing is done, and `growproc` returns `-1` only if
the process has no memory. -/
theorem wp_growproc_below
    (hn : -2 ^ 31 ≤ n) (hneg : p.sz + n < 0) (hQ : Q (p, decide (p.sz ≠ 0)) (m, b)) :
    (vmb k bad).wp (growproc p n) Q (m, b) := by
  have hlt := hp.lt
  have hnew : p.sz ≤ uint (p.sz + n) := by
    rw [KERNBASE] at hlt
    rw [uint]
    omega
  rw [growproc, if_neg (by omega), if_pos (by omega)]
  refine .bind (wp_deallocuvm_bytes hlt.le hhas (fun _ => ?_) fun hc => by omega)
  change (vmb k bad).wp (if _ then _ else _) Q _
  by_cases hz : p.sz = 0
  · rw [if_pos hz]
    rwa [decide_eq_false (not_not.mpr hz)] at hQ
  · rw [if_neg hz]
    rwa [decide_eq_true hz] at hQ

omit hhas

omit hp

theorem Proc.unchanged_refl (p : Proc) (b : Bytes) : p.Unchanged b p b :=
  ⟨rfl, fun _ _ => rfl, fun _ _ _ _ => rfl⟩

theorem wp_growproc (hp : p.Fits) (hhas : ∀ x ∈ m.all p.pgdir.pages, k.Has x)
    (hnodup : (m.all p.pgdir.pages).Nodup) (hn : -2 ^ 31 ≤ n) (hn' : n < 2 ^ 31) :
    (vmb k bad).wp (growproc p n) (fun r s =>
      p.AllOrNothing b n r.1 r.2 s.2 ↔ p.sz = 0 ∨ 0 < p.sz + n) (m, b) := by
  rcases lt_trichotomy n 0 with hneg | rfl | hpos
  · rcases lt_trichotomy (p.sz + n : ℤ) 0 with hbelow | hzero | habove
    · refine wp_growproc_below hp hhas hn hbelow ?_
      by_cases hz : p.sz = 0
      · refine iff_of_true ?_ (.inl hz)
        rw [decide_eq_false (not_not.mpr hz)]
        exact p.unchanged_refl b
      · refine iff_of_false (fun hc => ?_) (by omega)
        rw [decide_eq_true hz] at hc
        have hsz := hc.sz
        omega
    · obtain rfl : n = -p.sz := by omega
      refine wp_growproc_to_zero hp hhas (by omega) fun pd' m' b' hgone => ?_
      refine iff_of_false (fun hc => ?_) (by omega)
      -- The first page was there, and it is not there any more.
      have hfirst : p.pgdir.Present 0 := by
        refine (hp.present_iff 0 (by decide)).mpr ?_
        have hle := le_PGROUNDUP hp.lt.le
        omega
      have hentry := hc.user 0 (by decide)
      rw [PageDir.entry_eq_none_iff.mpr (hgone 0 (by decide)), eq_comm,
        PageDir.entry_eq_none_iff] at hentry
      exact hentry hfirst
    · exact wp_growproc_neg hp hhas hnodup hneg habove fun q m' b' h =>
        iff_of_true h (.inr habove)
  · rw [growproc, if_neg (lt_irrefl 0), if_neg (lt_irrefl 0)]
    refine iff_of_true ?_ (by omega)
    exact ⟨hp, (add_zero _).symm, fun _ _ _ _ => rfl, fun _ _ _ _ _ => rfl,
      fun va h1 h2 => absurd h1 (not_le.mpr h2)⟩
  · exact wp_growproc_pos hp hhas hnodup hpos hn' fun q ok m' b' h _ =>
      iff_of_true h (.inr (by omega))

/-- **`growproc` does all or nothing, if and only if the process does not give back all of its
memory, or more than it has.** -/
theorem growproc_iff (hp : p.Fits) (hhas : ∀ x ∈ m.all p.pgdir.pages, k.Has x)
    (hnodup : (m.all p.pgdir.pages).Nodup) (b : Bytes) (hn : -2 ^ 31 ≤ n) (hn' : n < 2 ^ 31) :
    ∃ q ok m' b', (growproc p n).exec (handleBytes k) (m, b) = .ok ((q, ok), m', b') ∧
      (p.AllOrNothing b n q ok b' ↔ p.sz = 0 ∨ 0 < p.sz + n) := by
  obtain ⟨⟨q, ok⟩, ⟨m', b'⟩, hexec, hiff⟩ := exec_of_wp (wp_growproc (k := k) hp hhas hnodup hn hn')
  exact ⟨q, ok, m', b', hexec, hiff⟩

theorem emptyDir_fits : (⟨0, emptyDir⟩ : Proc).Fits := ⟨by decide, emptyDir_exactly⟩

/-- A process without memory asks for a page. -/
theorem growproc_emptyDir : ∃ q ok m' b',
    (growproc ⟨0, emptyDir⟩ 4096).exec (handleBytes smallKernel) (⟨[301, 302], []⟩, fun _ _ => 5) =
      .ok ((q, ok), m', b') ∧
    (⟨0, emptyDir⟩ : Proc).AllOrNothing (fun _ _ => 5) 4096 q ok b' := by
  obtain ⟨q, ok, m', b', hexec, hiff⟩ := growproc_iff (k := smallKernel) (m := ⟨[301, 302], []⟩)
    (n := 4096) emptyDir_fits (by rw [emptyDir_all]; decide) (by rw [emptyDir_all]; decide) (fun _ _ => 5)
    (by decide) (by decide)
  exact ⟨q, ok, m', b', hexec, hiff.mpr (.inl rfl)⟩

/-- A process with one page. -/
def onePage : Proc := ⟨PGSIZE, (emptyDir.setPde (PDX 0) 301).setPte 0 ⟨302, true, true, true⟩⟩

theorem onePage_look (va : ℕ) (h : va < KERNBASE) : onePage.pgdir.look va =
    if va < PGSIZE then some ⟨302, true, true, true⟩
    else if PDX va = PDX 0 then some .zero else none := by
  have h32 : va < 2 ^ 32 := h.trans (by decide)
  have hnew : (emptyDir.setPde (PDX 0) 301).look 0 = some .zero := PageDir.look_setPde_of_eq rfl
  split
  next hlt =>
    exact PageDir.look_setPte_of_eq (by rw [hnew]; exact Option.some_ne_none _) h32 (by decide)
      (by rw [Nat.div_eq_of_lt hlt]; rfl)
  next hge =>
    rw [onePage, PageDir.look_setPte_of_ne h32 (by decide) (by rw [PGSIZE] at *; omega)]
    split
    next hd => exact PageDir.look_setPde_of_eq hd
    next hd => exact PageDir.look_setPde_of_ne hd

theorem onePage_fits : onePage.Fits where
  lt := by decide
  present_iff va hva := by
    rw [PageDir.Present, onePage_look va hva]
    split
    next hlt => exact iff_of_true ⟨_, rfl, rfl⟩ hlt
    next hge =>
      refine iff_of_false ?_ hge
      rintro ⟨pte, hpte, hp⟩
      split at hpte
      · cases hpte
        cases hp
      · cases hpte

theorem onePage_pages : onePage.pgdir.pages = ↑[302, 301, 300] := by
  have hnew : (emptyDir.setPde (PDX 0) 301).look 0 = some .zero := PageDir.look_setPde_of_eq rfl
  have hpages := PageDir.pages_setPte ⟨302, true, true, true⟩ hnew (by decide)
  rw [PageDir.pages_setPde rfl, PageDir.entryPages_of_not rfl, add_zero,
    PageDir.entryPages_of_p rfl, emptyDir, PageDir.pages_empty] at hpages
  rw [onePage, emptyDir, hpages]
  decide

/-- **A process loses its memory although `growproc` fails.** -/
theorem growproc_onePage : onePage.Fits ∧ ∃ q m' b',
    (growproc onePage (-4096)).exec (handleBytes smallKernel) (⟨[], []⟩, fun _ _ => 5) =
      .ok ((q, false), m', b') ∧
    onePage.pgdir.Present 0 ∧ ¬q.pgdir.Present 0 ∧
    ¬onePage.AllOrNothing (fun _ _ => 5) (-4096) q false b' := by
  have hall : Mem.all ⟨[], []⟩ onePage.pgdir.pages = ↑[302, 301, 300] := by
    rw [onePage_pages]
    rfl
  have hfirst : onePage.pgdir.Present 0 := (onePage_fits.present_iff 0 (by decide)).mpr (by decide)
  obtain ⟨⟨q, ok⟩, ⟨m', b'⟩, hexec, rfl, hgone⟩ := exec_of_wp (k := smallKernel) (m := ⟨[], []⟩)
    (b := fun _ _ => 5) (wp_growproc_to_zero (p := onePage)
      (Q := fun r _ => r.2 = false ∧ ¬r.1.pgdir.Present 0) onePage_fits (by rw [hall]; decide)
      (by decide) fun pd' m' b' hgone => ⟨rfl, hgone 0 (by decide)⟩)
  refine ⟨onePage_fits, q, m', b', hexec, hfirst, hgone, fun hc => ?_⟩
  have hentry := hc.user 0 (by decide)
  rw [PageDir.entry_eq_none_iff.mpr hgone, eq_comm, PageDir.entry_eq_none_iff] at hentry
  exact hentry hfirst

end Xv6.Vm
