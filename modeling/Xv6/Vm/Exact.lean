import Xv6.Vm.Space

/-!
# `allocuvm` and `deallocuvm` are exact

`allocuvm` adds the pages between two sizes, which are clear and which the program may write, or it
takes back what it has done. Then only page tables are left of the pages that it took
(`Xv6.Vm.RolledBack`): these stay in the page directory.

`deallocuvm` goes on with the next page table where there is none, and it does so for any page
directory, also one that no other function has made. It is the same as a walk from page to page
(`Xv6.Vm.freeAt`), and so **it frees just the pages that are mapped between the two sizes**
(`Xv6.Vm.uvm_exact`).
-/

namespace Xv6.Vm

open Lib

variable {k : Layout} {m m' : Mem} {b b' : Bytes} {pd pd' : PageDir} {oldsz newsz : ℕ}

/-- User memory is exactly the pages below a size. -/
def PageDir.Exactly (pd : PageDir) (sz : ℕ) : Prop :=
  ∀ va < KERNBASE, pd.Present va ↔ va < PGROUNDUP sz

/-- User memory has been enlarged. -/
structure Enlarged (pd : PageDir) (b : Bytes) (oldsz newsz : ℕ) (pd' : PageDir) (b' : Bytes) :
    Prop where
  exactly : pd'.Exactly newsz
  old : ∀ va < PGROUNDUP oldsz, pd'.entry va = pd.entry va ∧
    ∀ pte ∈ pd.entry va, b' pte.addr = b pte.addr
  fresh : ∀ va, PGROUNDUP oldsz ≤ va → va < PGROUNDUP newsz → ∀ pte ∈ pd'.entry va,
    pte.w = true ∧ pte.u = true ∧ b' pte.addr = fun _ => 0

/-- User memory is what it was, and the pages that have been taken are free again, except for page
tables. -/
structure RolledBack (pd : PageDir) (m : Mem) (b : Bytes) (pd' : PageDir) (m' : Mem) (b' : Bytes) :
    Prop where
  user : ∀ va < KERNBASE, pd'.entry va = pd.entry va ∧
    ∀ pte ∈ pd.entry va, b' pte.addr = b pte.addr
  free : ∀ v ∈ m.free, v ∈ m'.free ∨ v ∈ pd'.tables

theorem Grown.enlarged (h : Grown (m.all pd.pages).Nodup pd b (PGROUNDUP oldsz) (PGROUNDUP newsz)
    pd' b') (hd : (m.all pd.pages).Nodup) (hpd : pd.Exactly oldsz) (hle : oldsz ≤ newsz)
    (hlt : newsz < KERNBASE) : Enlarged pd b oldsz newsz pd' b' := by
  have hround := PGROUNDUP_mono hle hlt.le
  have hupper := PGROUNDUP_le hlt.le
  have h32 : KERNBASE ≤ 2 ^ 32 := by decide
  refine ⟨fun va hva => ?_, fun va hva => ⟨?_, ?_⟩, fun va hva hva' pte hpte => ?_⟩
  · by_cases hin : PGROUNDUP oldsz ≤ va ∧ va < PGROUNDUP newsz
    · obtain ⟨pte, hpte, hp, -⟩ := h.maps.ins va hin.1 hin.2
      exact iff_of_true ⟨pte, hpte, hp⟩ hin.2
    · rw [h.maps.present_out (by omega) hin, hpd va hva]
      omega
  · exact h.maps.entry_out (by omega) (by omega)
  · exact h.same hd va (by omega)
  · obtain ⟨pte', hpte', -, hu⟩ := h.maps.ins va hva hva'
    obtain ⟨hw, hzero⟩ := h.clear va hva hva' pte hpte
    obtain rfl := Option.mem_unique (PageDir.mem_entry.mp hpte).1 hpte'
    exact ⟨hw, hu, hzero hd⟩

theorem Kept.rolledBack (h : Kept (m.all pd.pages).Nodup pd b pd' b') (hd : (m.all pd.pages).Nodup)
    (hall : m'.all pd'.pages = m.all pd.pages) : RolledBack pd m b pd' m' b' := by
  refine ⟨fun va hva => ⟨h.user va hva, h.same hd va hva⟩, fun v hv => ?_⟩
  -- A page that was free was not one of the page directory.
  have hnot : v ∉ pd.pages := Multiset.disjoint_left.mp (Multiset.nodup_add.mp hd).2.2 hv
  have hmem : v ∈ m'.all pd'.pages := by
    rw [hall]
    exact Mem.mem_all.mpr (.inl hv)
  refine (Mem.mem_all.mp hmem).imp_right fun hv' => ?_
  rcases PageDir.mem_pages hv' with rfl | htable | ⟨va, hva, pte, hpte, rfl⟩
  · rw [h.page] at hnot
    exact absurd pd.page_mem_pages hnot
  · exact htable
  · rw [h.user va hva] at hpte
    obtain ⟨hlook, hp⟩ := PageDir.mem_entry.mp hpte
    exact absurd (PageDir.addr_mem_pages hlook hp hva) hnot

/-- A program for which there is no bad outcome ends. -/
theorem exec_of_wp {α : Type} {f : VmM α} {Q : α → Mem × Bytes → Prop}
    (h : (vmb k fun _ => True).wp f Q (m, b)) :
    ∃ r s, f.exec (handleBytes k) (m, b) = .ok (r, s) ∧ Q r s := by
  rcases Logic.ok_or_panic (fun _ _ => trivial) handleBytes_ne_disabled h with
    ⟨x, hx, hQ⟩ | ⟨msg, -, hbad⟩
  · exact ⟨x.1, x.2, hx, hQ⟩
  · exact absurd trivial hbad

/-- **`allocuvm` and `deallocuvm` are exact.** If user memory is just the pages below the old size,
`allocuvm` makes it the pages below the new one, or leaves it as it was. That happens only if a
`kalloc` fails, and if none fails on its own there are fewer than two free pages for each page. And
for every page directory `deallocuvm` is a walk from page to page, which frees and unmaps each page
that is mapped at a page address between the two sizes, and nothing else. -/
theorem uvm_exact (k : Layout) (m : Mem) (b : Bytes) (pd : PageDir) (oldsz newsz : ℕ) :
    (oldsz ≤ newsz → newsz < KERNBASE → pd.Exactly oldsz → (∀ x ∈ m.all pd.pages, k.Has x) →
      (m.all pd.pages).Nodup → ∃ pd' r m' b',
        (allocuvm pd oldsz newsz).exec (handleBytes k) (m, b) = .ok ((pd', r), m', b') ∧
        (r = newsz ∧ Enlarged pd b oldsz newsz pd' b' ∨
          r = 0 ∧ RolledBack pd m b pd' m' b' ∧ (m.fails = [] →
            m.freelist.length < 2 * (pageAddrs (PGROUNDUP oldsz) newsz).length))) ∧
    (newsz < oldsz → oldsz ≤ KERNBASE →
      deallocuvm pd oldsz newsz =
        (do
          let pd' ← freeAt pd (pageAddrs (PGROUNDUP newsz) oldsz)
          pure (pd', newsz)) ∧
      ((∀ v ∈ pd.pagesAt (pageAddrs (PGROUNDUP newsz) oldsz), k.Has v) → ∃ pd' m' b',
        (deallocuvm pd oldsz newsz).exec (handleBytes k) (m, b) = .ok ((pd', newsz), m', b') ∧
        Cleared pd (pageAddrs (PGROUNDUP newsz) oldsz) pd' ∧
        m'.free = ↑(pd.pagesAt (pageAddrs (PGROUNDUP newsz) oldsz)) + m.free ∧
        ∀ v ∉ m'.free, b' v = b v)) := by
  refine ⟨fun hle hlt hpd hhas hd => ?_, fun hlt hold => ⟨?_, fun hhas => ?_⟩⟩
  · have hwp : (vmb k fun _ => True).wp (allocuvm pd oldsz newsz)
        (fun x s => x.2 = newsz ∧ Enlarged pd b oldsz newsz x.1 s.2 ∨
          x.2 = 0 ∧ RolledBack pd m b x.1 s.1 s.2 ∧ (m.fails = [] →
            m.freelist.length < 2 * (pageAddrs (PGROUNDUP oldsz) newsz).length)) (m, b) :=
      wp_allocuvm_bytes
        (fun va hva hva' hp => absurd ((hpd va hva').mp hp) (not_lt.mpr hva)) hhas
        (fun _ _ pd' m' b' hg _ _ => .inl ⟨rfl, hg.enlarged hd hpd hle hlt⟩)
        (fun hc => absurd hle (not_le.mpr hc))
        fun pd' m' b' hk hall hfew => .inr ⟨rfl, hk.rolledBack hd hall, fun e => by
          rw [pageAddrs, List.length_range']
          exact hfew hlt e⟩
    obtain ⟨⟨pd', r⟩, ⟨m', b'⟩, hexec, hQ⟩ := exec_of_wp hwp
    exact ⟨pd', r, m', b', hexec, hQ⟩
  · rw [deallocuvm, if_neg (not_le.mpr hlt),
      deallocuvmLoop_eq hold PGROUNDUP_mod (by rw [PGSIZE]; omega)]
  · have hwp : (vmb k fun _ => True).wp (deallocuvm pd oldsz newsz)
        (fun x s => x.2 = newsz ∧ Cleared pd (pageAddrs (PGROUNDUP newsz) oldsz) x.1 ∧
          s.1.free = ↑(pd.pagesAt (pageAddrs (PGROUNDUP newsz) oldsz)) + m.free ∧
          ∀ v ∉ s.1.free, s.2 v = b v) (m, b) := by
      refine wp_bytes (Q := fun x m' => x.2 = newsz ∧
          Cleared pd (pageAddrs (PGROUNDUP newsz) oldsz) x.1 ∧
          m'.free = ↑(pd.pagesAt (pageAddrs (PGROUNDUP newsz) oldsz)) + m.free)
        (wp_deallocuvm_walk hold hlt hhas fun pd' m' hc hfree _ _ => ⟨rfl, hc, hfree⟩)
        fun x m' b' hx hQ => ⟨hQ.1, hQ.2.1, hQ.2.2, ?_⟩
      exact (exec_takes (only_deallocuvm pd oldsz newsz) hx).2
    obtain ⟨⟨pd', r⟩, ⟨m', b'⟩, hexec, rfl, hc, hfree, hb⟩ := exec_of_wp hwp
    exact ⟨pd', m', b', hexec, hc, hfree, hb⟩

/-- A page directory with nothing in it. -/
def emptyDir : PageDir := ⟨300, fun _ => none⟩

theorem emptyDir_exactly : emptyDir.Exactly 0 := by
  intro va _
  refine iff_of_false ?_ (Nat.not_lt_zero va)
  rintro ⟨pte, hpte, -⟩
  cases hpte

theorem emptyDir_all (free : List Page) :
    Mem.all ⟨free, []⟩ emptyDir.pages = ((free ++ [300] : List Page) : Multiset Page) := by
  rw [emptyDir, PageDir.pages_empty]
  rfl

/-- A page directory with a page at address `4096`. -/
def secondPage : PageDir := (emptyDir.setPde (PDX 0) 301).setPte PGSIZE ⟨302, true, true, true⟩

/-- With four free pages a process without memory gets the two pages below `5000`. Another process
gives back the page that it has there. -/
theorem uvm_exact_emptyDir :
    (∃ pd' m' b', (allocuvm emptyDir 0 5000).exec (handleBytes smallKernel)
        (⟨[301, 302, 303, 304], []⟩, fun _ _ => 5) = .ok ((pd', 5000), m', b') ∧
      Enlarged emptyDir (fun _ _ => 5) 0 5000 pd' b') ∧
    ∃ pd' m' b', (deallocuvm secondPage 5000 0).exec (handleBytes smallKernel)
        (⟨[303], []⟩, fun _ _ => 5) = .ok ((pd', 0), m', b') ∧
      Cleared secondPage [0, 4096] pd' ∧ m'.free = ↑[302, 303] ∧ b' 300 = fun _ => 5 := by
  constructor
  · obtain ⟨pd', r, m', b', hexec, ⟨rfl, h⟩ | ⟨-, -, h⟩⟩ :=
      (uvm_exact smallKernel ⟨[301, 302, 303, 304], []⟩ (fun _ _ => 5) emptyDir 0 5000).1 (by decide)
        (by decide) emptyDir_exactly (by rw [emptyDir_all]; decide) (by rw [emptyDir_all]; decide)
    · exact ⟨pd', m', b', hexec, h⟩
    · exact absurd (h rfl) (by decide)
  · obtain ⟨pd', m', b', hexec, hc, hfree, hb⟩ := ((uvm_exact smallKernel ⟨[303], []⟩ (fun _ _ => 5)
      secondPage 5000 0).2 (by decide) (by decide)).2 (by decide)
    have hfree' : m'.free = ↑[302, 303] := hfree
    exact ⟨pd', m', b', hexec, hc, hfree', hb 300 (by rw [hfree']; decide)⟩

end Xv6.Vm
