import Xv6.Vm.Bytes

/-!
# Address spaces

What a page directory looks like that `setupkvm` has made and the other functions have
changed. The kernel's part (`Xv6.Vm.Kernel`) is the same in all of them: no entry there has
`PTE_U`, and the page tables are there except between the end of physical memory and the
devices. User memory ends with the size of the process (`Xv6.Vm.Space`).

**`setupkvm` either makes such a page directory or leaves the free pages as they were**
(`Xv6.Vm.wp_setupkvm`), and so does `allocuvm` (`Xv6.Vm.wp_allocuvm`).
-/

namespace Xv6.Vm

open Lib Function

variable {k : Layout} {bad : String → Prop} {m m₀ : Mem} {pd pd' pd₀ : PageDir}
  {sz a va oldsz newsz : ℕ} {b b₀ b' : Bytes} {Q : Option PageDir → Mem → Prop} {distinct : Prop}

/-- The part of the kernel. -/
structure Kernel (pd : PageDir) : Prop where
  none_iff : ∀ va, KERNBASE ≤ va → va < 2 ^ 32 →
    (pd.look va = none ↔ KERNBASE + PHYSTOP ≤ va ∧ va < DEVSPACE)
  user : ∀ va, KERNBASE ≤ va → va < 2 ^ 32 → ∀ pte ∈ pd.look va, pte.u = false

/-- The address space of a process of size `sz`. -/
structure Space (pd : PageDir) (sz : ℕ) : Prop where
  kernel : Kernel pd
  above : ∀ va, PGROUNDUP sz ≤ va → va < KERNBASE → ¬pd.Present va

theorem Kernel.congr (h : Kernel pd)
    (hlook : ∀ va, KERNBASE ≤ va → va < 2 ^ 32 → pd'.look va = pd.look va) : Kernel pd' where
  none_iff va hva hlt := by
    rw [hlook va hva hlt]
    exact h.none_iff va hva hlt
  user va hva hlt := by
    rw [hlook va hva hlt]
    exact h.user va hva hlt

/-! ### The kernel's mappings -/

/-- No entry has `PTE_U`. -/
def NoUser (pd : PageDir) : Prop := ∀ va < 2 ^ 32, ∀ pte ∈ pd.look va, pte.u = false

theorem NoUser.maps {b : ℕ} (h : NoUser pd) (hm : Maps pd pd' a b false) : NoUser pd' := by
  intro va hva pte hpte
  by_cases hin : a ≤ va ∧ va < b
  · obtain ⟨pte', hpte', -, hu⟩ := hm.ins va hin.1 hin.2
    rwa [Option.mem_unique hpte hpte']
  · rcases hm.out va hva hin with e | ⟨-, e⟩
    · rw [e] at hpte
      exact h va hva pte hpte
    · rw [e] at hpte
      cases hpte
      rfl

/-- The two ranges that the kernel maps are all there is to say about its part. -/
theorem Kernel.of_maps {pd₁ : PageDir} (h₀ : ∀ va, pd₀.look va = none)
    (h₁ : Maps pd₀ pd₁ KERNBASE (KERNBASE + PHYSTOP) false)
    (h₂ : Maps pd₁ pd DEVSPACE (2 ^ 32) false) :
    Kernel pd ∧ ∀ va < KERNBASE, pd.look va = none := by
  have hnone : ∀ va < 2 ^ 32, pd.look va = none ↔
      va < KERNBASE ∨ KERNBASE + PHYSTOP ≤ va ∧ va < DEVSPACE := by
    intro va hva
    rw [h₂.none_iff va hva, h₁.none_iff va hva]
    have hd := PDX_val hva
    refine ⟨fun ⟨⟨_, h1⟩, h2⟩ => ?_, fun h => ⟨⟨h₀ va, fun wa hwa hwa' e => ?_⟩,
      fun wa hwa hwa' e => ?_⟩⟩
    · by_contra hc
      by_cases hlow : va < KERNBASE + PHYSTOP
      · exact h1 va (by omega) hlow rfl
      · exact h2 va (by omega) hva rfl
    · have hw : wa < 2 ^ 32 := hwa'.trans_le (by decide)
      rw [Fin.ext_iff, PDX_val hw, hd] at e
      rw [KERNBASE, PHYSTOP, DEVSPACE] at *
      omega
    · rw [Fin.ext_iff, PDX_val hwa', hd] at e
      rw [KERNBASE, PHYSTOP, DEVSPACE] at *
      omega
  have hno : NoUser pd := by
    have h0 : NoUser pd₀ := by
      intro va _ pte hpte
      rw [h₀ va] at hpte
      cases hpte
    exact (h0.maps h₁).maps h₂
  refine ⟨⟨fun va hva hlt => ?_, fun va _ hlt => hno va hlt⟩, fun va hva => ?_⟩
  · rw [hnone va hlt]
    exact or_iff_right (by omega)
  · exact (hnone va (hva.trans (by decide))).mpr (.inl hva)

/-- A page directory without user memory has at most one page for each of its entries,
and its own. -/
theorem PageDir.card_pages_le (h : ∀ va < KERNBASE, pd.look va = none) :
    pd.pages.card ≤ NPDENTRIES + 1 := by
  have hno : ∀ va < KERNBASE, ¬pd.Present va := by
    rintro va hva ⟨pte, hpte, -⟩
    rw [h va hva] at hpte
    cases hpte
  have htables := pd.card_tables_le
  rw [PageDir.pages_of_unmapped hno, Multiset.card_add, Multiset.card_singleton]
  omega

/-- One round of the loop of `setupkvm`: a range is mapped, or everything is freed. -/
theorem wp_setupkvmLoop_cons {e : Kmap} {es : List Kmap} {size : ℕ}
    (hsize : uint ((e.phys_end : ℤ) - e.phys_start) = size) (hbase : KERNBASE ≤ e.virt)
    (halign : e.virt % PGSIZE = 0) (hmod : size % PGSIZE = 0) (hpos : 0 < size)
    (hlast : e.virt + size ≤ 2 ^ 32)
    (hfresh : ∀ va, e.virt ≤ va → va < e.virt + size → ¬pd.Present va)
    (hhas : ∀ x ∈ m₀.free, k.Has x) (huser : ∀ va < KERNBASE, pd.look va = none)
    (hall : m.all pd.pages = m₀.free) (hnext : m₀.Next m)
    (hok : ∀ pd' m', Maps pd pd' e.virt (e.virt + size) e.perm.u → m'.all pd'.pages = m₀.free →
      m₀.Next m' → (vm k bad).wp (setupkvmLoop pd' es) Q m')
    (hnone : ∀ m', m'.free = m₀.free → (m₀.fails = [] → m₀.free.card ≤ NPDENTRIES + 1) →
      Q none m') :
    (vm k bad).wp (setupkvmLoop pd (e :: es)) Q m := by
  rw [setupkvmLoop, hsize]
  refine .bind (wp_mappages_kern hbase halign hmod hpos hlast hfresh ?_ ?_)
  · intro pd' m' hmaps hall' hnext'
    exact hok pd' m' hmaps (hall'.trans hall) (hnext.trans hnext')
  · intro pd' m' hlook hall' hout
    rw [hall] at hall'
    refine .bind (wp_freevm ?_ fun m'' hm'' _ => hnone m'' (hm''.trans hall') fun e => ?_)
    · rwa [hall']
    · -- Everything that was free is in the page directory.
      have hcard := congrArg Multiset.card hall'
      have hle := PageDir.card_pages_le fun va hva => (hlook va hva).trans (huser va hva)
      rw [Mem.all, hout (hnext e), zero_add] at hcard
      rwa [← hcard]

/-- `setupkvm` makes a page directory without user memory out of free pages, or none. -/
theorem wp_setupkvm (hhas : ∀ x ∈ m.free, k.Has x)
    (hsome : ∀ pd m', Kernel pd → (∀ va < KERNBASE, pd.look va = none) → m'.all pd.pages = m.free →
      m.Next m' → Q (some pd) m')
    (hnone : ∀ m', m'.free = m.free → (m.fails = [] → m.free.card ≤ NPDENTRIES + 1) → Q none m') :
    (vm k bad).wp (setupkvm k) Q m := by
  refine .bind (wp_kalloc (fun v m₁ hm₁ hn₁ => ?_) fun m' hfree _ hout => ?_)
  · refine .bind (wp_panicIf (fun h => absurd h (by decide)) fun _ => ?_)
    have hdata := k.data_gt
    have hdata' := k.data_aligned
    have hlt := k.data_lt.trans_le k.last_le
    have h₀ : ∀ va, (⟨v, fun _ => none⟩ : PageDir).look va = none := fun _ => rfl
    have habs : ∀ va, ¬(⟨v, fun _ => none⟩ : PageDir).Present va := by
      rintro va ⟨pte, hpte, -⟩
      cases hpte
    have hall₁ : m₁.all (⟨v, fun _ => none⟩ : PageDir).pages = m.free := by
      rw [PageDir.pages_empty, Mem.all, hm₁, add_comm]
    have hsize₁ : uint ((EXTMEM : ℤ) - (0 : ℕ)) = EXTMEM := rfl
    have hsize₂ : uint (((k.data - KERNBASE : ℕ) : ℤ) - EXTMEM) = k.data - KERNLINK := by
      rw [uint]
      rw [KERNLINK] at *
      rw [KERNBASE, EXTMEM, PHYSTOP] at *
      omega
    have hsize₃ : uint ((PHYSTOP : ℤ) - (k.data - KERNBASE : ℕ)) = KERNBASE + PHYSTOP - k.data := by
      rw [uint]
      rw [KERNLINK] at *
      rw [KERNBASE, EXTMEM, PHYSTOP] at *
      omega
    have hsize₄ : uint (((0 : ℕ) : ℤ) - DEVSPACE) = 2 ^ 32 - DEVSPACE := rfl
    -- The three ranges of physical memory follow each other.
    refine wp_setupkvmLoop_cons hsize₁ le_rfl rfl rfl (by decide) (by decide)
      (fun va _ _ => habs va) hhas (fun va _ => h₀ va) hall₁ hn₁ (fun pd₂ m₂ hm₂ hall₂ hn₂ => ?_)
      hnone
    have hm₂ : Maps _ pd₂ KERNBASE KERNLINK false := hm₂
    have hle : KERNLINK + (k.data - KERNLINK) = k.data := Nat.add_sub_of_le hdata.le
    refine wp_setupkvmLoop_cons hsize₂ (show KERNBASE ≤ KERNLINK by decide)
      (show KERNLINK % PGSIZE = 0 by decide) ?_ (by omega) ?_ ?_ hhas ?_ hall₂ hn₂ (fun pd₃ m₃ hm₃ hall₃ hn₃ => ?_) hnone
    · rw [KERNLINK, KERNBASE, EXTMEM, PGSIZE] at *
      omega
    · rw [hle, KERNBASE, PHYSTOP] at *
      omega
    · intro va (hva : KERNLINK ≤ va) (hva' : va < KERNLINK + (k.data - KERNLINK))
      rw [hm₂.present_out (by rw [hle, KERNBASE, PHYSTOP] at *; omega) (by omega)]
      exact habs va
    · intro va hva
      rw [hm₂.look_user le_rfl (by decide) hva]
      exact h₀ va
    rw [hle] at hm₃
    have hm₃ := hm₂.trans hm₃ (by decide) hdata.le (by rw [KERNBASE, PHYSTOP] at hlt; omega)
    have hle' : k.data + (KERNBASE + PHYSTOP - k.data) = KERNBASE + PHYSTOP :=
      Nat.add_sub_of_le hlt.le
    refine wp_setupkvmLoop_cons hsize₃ ?_ hdata' ?_ (by omega) ?_ ?_ hhas ?_ hall₃ hn₃
      (fun pd₄ m₄ hm₄ hall₄ hn₄ => ?_) hnone
    · rw [KERNLINK] at hdata
      dsimp only
      omega
    · rw [KERNBASE, PHYSTOP, PGSIZE] at *
      omega
    · rw [hle']
      decide
    · intro va (hva : k.data ≤ va) (hva' : va < k.data + (KERNBASE + PHYSTOP - k.data))
      rw [hle'] at hva'
      rw [hm₃.present_out (hva'.trans_le (by decide)) (by omega)]
      exact habs va
    · intro va hva
      rw [hm₃.look_user le_rfl (by rw [KERNBASE, PHYSTOP] at hlt; omega) hva]
      exact h₀ va
    rw [hle'] at hm₄
    have hm₄ := hm₃.trans hm₄ (by rw [KERNLINK] at hdata; omega) hlt.le (by decide)
    refine wp_setupkvmLoop_cons hsize₄ (by decide) rfl rfl (by decide) (by decide) ?_ hhas ?_ hall₄
      hn₄ (fun pd₅ m₅ hm₅ hall₅ hn₅ => ?_) hnone
    · intro va (hva : DEVSPACE ≤ va) hva'
      rw [hm₄.present_out hva' ?_]
      · exact habs va
      · rw [DEVSPACE] at hva
        rw [KERNBASE, PHYSTOP]
        omega
    · intro va hva
      rw [hm₄.look_user le_rfl (by decide) hva]
      exact h₀ va
    obtain ⟨hker, huser⟩ := Kernel.of_maps h₀ hm₄ hm₅
    exact hsome pd₅ m₅ hker huser hall₅ hn₅
  · refine hnone m' hfree fun e => ?_
    rw [hout e]
    exact Nat.zero_le _

/-! ### User memory -/

/-- A process that has grown. -/
theorem Space.maps {u : Bool} (h : Space pd oldsz)
    (hm : Maps pd pd' (PGROUNDUP oldsz) (PGROUNDUP newsz) u) (hnew : newsz ≤ KERNBASE)
    (hle : PGROUNDUP oldsz ≤ PGROUNDUP newsz) : Space pd' newsz where
  kernel := h.kernel.congr fun _ hva hlt => hm.look_kern (PGROUNDUP_le hnew) hva hlt
  above va hva hlt := by
    rw [hm.present_out (hlt.trans (by decide)) (by omega)]
    exact h.above va (by omega) hlt

theorem Maps.entry_out {b : ℕ} {u : Bool} (h : Maps pd pd' a b u) (hva : va < 2 ^ 32)
    (hno : ¬(a ≤ va ∧ va < b)) : pd'.entry va = pd.entry va := by
  rcases h.out va hva hno with e | ⟨e, e'⟩
  · rw [PageDir.entry, e, ← PageDir.entry]
  · rw [PageDir.entry, e', PageDir.entry, e]
    rfl

theorem Unmaps.entry_out {b : ℕ} (h : Unmaps pd pd' a b) (hva : va < 2 ^ 32)
    (hno : ¬(a ≤ va ∧ va < b)) : pd'.entry va = pd.entry va := by
  rw [PageDir.entry, h.out va hva hno, ← PageDir.entry]

/-- A page of user memory is not free. -/
theorem PageDir.notMem_free (h : (m.all pd.pages).Nodup) {pte : Pte} (hpte : pte ∈ pd.entry va)
    (hva : va < KERNBASE) : pte.addr ∉ m.free := by
  obtain ⟨hlook, hp⟩ := PageDir.mem_entry.mp hpte
  exact fun hfree => Multiset.disjoint_left.mp (Multiset.nodup_add.mp h).2.2 hfree
    (PageDir.addr_mem_pages hlook hp hva)

/-- User memory has grown from `lo` to `hi`: there are new pages, which are clear, and the old ones
are as they were. About the bytes this says nothing unless all pages are distinct. -/
structure Grown (distinct : Prop) (pd : PageDir) (b : Bytes) (lo hi : ℕ) (pd' : PageDir)
    (b' : Bytes) : Prop where
  maps : Maps pd pd' lo hi true
  clear : ∀ va, lo ≤ va → va < hi → ∀ pte ∈ pd'.entry va,
    pte.w = true ∧ (distinct → b' pte.addr = fun _ => 0)
  same : distinct → ∀ va < KERNBASE, ∀ pte ∈ pd.entry va, b' pte.addr = b pte.addr

/-- User memory is what it was. -/
structure Kept (distinct : Prop) (pd : PageDir) (b : Bytes) (pd' : PageDir) (b' : Bytes) :
    Prop where
  user : ∀ va < KERNBASE, pd'.entry va = pd.entry va
  kern : ∀ va, KERNBASE ≤ va → va < 2 ^ 32 → pd'.look va = pd.look va
  page : pd'.page = pd.page
  same : distinct → ∀ va < KERNBASE, ∀ pte ∈ pd.entry va, b' pte.addr = b pte.addr

/-- One more page. -/
theorem Grown.snoc {lo : ℕ} {v : Page} (h : Grown distinct pd₀ b₀ lo a pd b)
    (hmaps : Maps pd pd' a (a + PGSIZE) true)
    (hlook : ∀ va, a ≤ va → va < a + PGSIZE → pd'.look va = some ⟨v, true, true, true⟩)
    (hlo : lo ≤ a) (hhi : a + PGSIZE ≤ KERNBASE)
    (habove : ∀ va, lo ≤ va → va < KERNBASE → ¬pd₀.Present va) (hv : distinct → b' v = fun _ => 0)
    (hb : distinct → ∀ va < KERNBASE, ∀ pte ∈ pd.entry va, b' pte.addr = b pte.addr) :
    Grown distinct pd₀ b₀ lo (a + PGSIZE) pd' b' where
  maps := h.maps.trans hmaps hlo (Nat.le_add_right ..) (hhi.trans (by decide))
  clear va hva hva' pte hpte := by
    by_cases ha : va < a
    · have hlt : va < KERNBASE := by omega
      rw [hmaps.entry_out (hlt.trans (by decide)) (by omega)] at hpte
      obtain ⟨hw, hzero⟩ := h.clear va hva ha pte hpte
      exact ⟨hw, fun hd => (hb hd va hlt pte hpte).trans (hzero hd)⟩
    · have hl := hlook va (not_lt.mp ha) hva'
      rw [PageDir.mem_entry, hl] at hpte
      obtain rfl := Option.some.inj hpte.1
      exact ⟨rfl, hv⟩
  same hd va hva pte hpte := by
    -- The old pages are below `lo`, and so they are still there.
    have hlow : va < lo := by
      by_contra hc
      rw [PageDir.entry_eq_none_iff.mpr (habove va (not_lt.mp hc) hva)] at hpte
      cases hpte
    have hold := h.same hd va hva pte hpte
    rw [← h.maps.entry_out (hva.trans (by decide)) (by omega)] at hpte
    exact (hb hd va hva pte hpte).trans hold

/-- The new pages are taken away again. -/
theorem Grown.kept {lo hi : ℕ} (h : Grown distinct pd₀ b₀ lo a pd b) (hun : Unmaps pd pd' lo hi)
    (ha : a ≤ hi) (hhi : hi ≤ KERNBASE) (habove : ∀ va, lo ≤ va → va < KERNBASE → ¬pd₀.Present va)
    (hb : distinct → ∀ va < KERNBASE, ∀ pte ∈ pd'.entry va, b' pte.addr = b pte.addr) :
    Kept distinct pd₀ b₀ pd' b' := by
  have huser : ∀ va < KERNBASE, pd'.entry va = pd₀.entry va := by
    intro va hva
    by_cases hin : lo ≤ va ∧ va < hi
    · rw [PageDir.entry_eq_none_iff.mpr (hun.ins va hin.1 hin.2),
        PageDir.entry_eq_none_iff.mpr (habove va hin.1 hva)]
    · rw [hun.entry_out (hva.trans (by decide)) hin,
        h.maps.entry_out (hva.trans (by decide)) (by omega)]
  refine ⟨huser, fun va hva hlt => ?_, hun.page.trans h.maps.page, fun hd va hva pte hpte => ?_⟩
  · rw [hun.out va hlt (by omega), h.maps.look_kern (ha.trans hhi) hva hlt]
  · exact (hb hd va hva pte (by rw [huser va hva]; exact hpte)).trans (h.same hd va hva pte hpte)

theorem wp_allocuvmLoop (hle : oldsz ≤ newsz) (hnew : newsz < KERNBASE)
    (habove₀ : ∀ va, PGROUNDUP oldsz ≤ va → va < KERNBASE → ¬pd₀.Present va)
    (hhas : ∀ x ∈ m₀.all pd₀.pages, k.Has x) {n : ℕ} :
    ∀ {pd : PageDir} {a : ℕ} {m : Mem} {b : Bytes} {Q : PageDir × ℕ → Mem × Bytes → Prop},
      a % PGSIZE = 0 → a + n * PGSIZE = PGROUNDUP newsz → PGROUNDUP oldsz ≤ a →
      Grown (m₀.all pd₀.pages).Nodup pd₀ b₀ (PGROUNDUP oldsz) a pd b →
      m.all pd.pages = m₀.all pd₀.pages →
      (∀ pd' m' b', Grown (m₀.all pd₀.pages).Nodup pd₀ b₀ (PGROUNDUP oldsz) (PGROUNDUP newsz) pd' b' →
        m'.all pd'.pages = m₀.all pd₀.pages → m.Next m' → Q (pd', newsz) (m', b')) →
      (∀ pd' m' b', Kept (m₀.all pd₀.pages).Nodup pd₀ b₀ pd' b' →
        m'.all pd'.pages = m₀.all pd₀.pages →
        (m.fails = [] → m.free.card < 2 * n) → Q (pd', 0) (m', b')) →
      (vmb k bad).wp (allocuvmLoop oldsz newsz n pd a) Q (m, b) := by
  have hupper := PGROUNDUP_le hnew.le
  induction n with
  | zero =>
    intro pd a m b Q _ hend _ hgrown hall hok _
    rw [Nat.zero_mul, Nat.add_zero] at hend
    rw [hend] at hgrown
    exact hok pd m b hgrown hall (.refl m)
  | succ n ih =>
    intro pd a m b Q ha hend hlow hgrown hall hok hfail
    rw [Nat.succ_mul] at hend
    have hpos : 0 < PGSIZE := by decide
    have hbase : a < KERNBASE := by omega
    have hlt : oldsz < newsz := by
      by_contra hc
      have : newsz = oldsz := by omega
      rw [this] at hend
      omega
    have hfresh : ¬pd.Present a := by
      rw [hgrown.maps.present_out (hbase.trans (by decide)) (by omega)]
      exact habove₀ a hlow hbase
    have hnodup : ∀ {pd' : PageDir} {m' : Mem}, m'.all pd'.pages = m₀.all pd₀.pages →
        (m₀.all pd₀.pages).Nodup → ∀ va < KERNBASE, ∀ pte ∈ pd'.entry va, pte.addr ∉ m'.free :=
      fun hall' hd va hva pte hpte => PageDir.notMem_free (hall'.symm ▸ hd) hpte hva
    -- What `deallocuvm` does when there is no memory left.
    have hdealloc : ∀ {β : Type} {f : PageDir × ℕ → VmM β} {Q' : β → Mem × Bytes → Prop}
        {m' : Mem} {b' : Bytes}, (∀ x ∈ m'.all pd.pages, k.Has x) →
        (∀ pd' m'' b'', Unmaps pd pd' (PGROUNDUP oldsz) (PGROUNDUP newsz) →
          m''.all pd'.pages = m'.all pd.pages → (∀ v ∈ m'.free, v ∈ m''.free) →
          (∀ v ∉ m''.free, b'' v = b' v) → (vmb k bad).wp (f (pd', oldsz)) Q' (m'', b'')) →
        (vmb k bad).wp (deallocuvm pd newsz oldsz >>= f) Q' (m', b') := by
      intro β f Q' m' b' hhas' hQ'
      exact .bind (wp_deallocuvm_bytes hnew.le hhas' (fun h => absurd h (by omega))
        fun _ => hQ')
    refine .bind (wp_kalloc_bytes (fun mem m₁ hm₁ hn₁ => ?_) fun m₁ hm₁ _ hout => ?_)
    · have hmem : mem ∈ m.free := by
        rw [hm₁]
        exact Multiset.mem_add.mpr (.inl (Multiset.mem_singleton_self mem))
      have hsub : ∀ v ∈ m₁.free, v ∈ m.free := fun v hv => by
        rw [hm₁]
        exact Multiset.mem_add.mpr (.inr hv)
      have hhas₁ : ∀ x ∈ m₁.all ({mem} + pd.pages), k.Has x := by
        rw [Mem.all, ← add_assoc, add_comm m₁.free, ← hm₁]
        rwa [← hall] at hhas
      refine .bind (wp_mappages_bytes hbase ha hfresh ?_ ?_)
      · intro pd₂ m₂ b₂ hmaps₂ hlook₂ hall₂ hn₂ hcard hb₂
        have hmod : (a + PGSIZE) % PGSIZE = 0 := by
          rwa [Nat.add_mod_right]
        refine ih hmod (by omega) (by omega) (hgrown.snoc hmaps₂ hlook₂ hlow (by omega) habove₀
          (fun hd => ?_) fun hd va hva pte hpte => ?_) ?_ ?_ ?_
        · have hfree : m.free.Nodup := (Multiset.nodup_add.mp (hall.symm ▸ hd)).1
          rw [hm₁] at hfree
          have hnot : mem ∉ m₁.free := fun hc => Multiset.disjoint_left.mp
            (Multiset.nodup_add.mp hfree).2.2 (Multiset.mem_singleton_self mem) hc
          rw [hb₂ mem hnot, update_self]
        · have hnot := hnodup hall hd va hva pte hpte
          rw [hb₂ _ fun hc => hnot (hsub _ hc),
            update_of_ne fun (hc : pte.addr = mem) => hnot (hc ▸ hmem)]
        · rw [hall₂, Mem.all, ← add_assoc, add_comm m₁.free, ← hm₁]
          exact hall
        · exact fun pd' m' b' hg' hall' hn' => hok pd' m' b' hg' hall' ((hn₁.trans hn₂).trans hn')
        · intro pd' m' b' hs hall' hfew
          refine hfail pd' m' b' hs hall' fun e => ?_
          have := hfew (hn₂ (hn₁ e))
          rw [hm₁, Multiset.card_add, Multiset.card_singleton]
          omega
      · intro m₂ b₂ hm₂ _ hout hb₂
        have hhas₂ : ∀ x ∈ m₂.all pd.pages, k.Has x := by
          intro x hx
          refine hhas₁ x ?_
          rw [Mem.all, hm₂] at hx
          rw [Mem.all, add_left_comm, Multiset.mem_add]
          exact .inr hx
        refine hdealloc hhas₂ fun pd' m₃ b₃ hun hall₃ hsub₃ hb₃ => ?_
        have hmem' : k.Has mem := by
          refine hhas₁ mem (Mem.mem_all.mpr (.inr ?_))
          exact Multiset.mem_add.mpr (.inl (Multiset.mem_singleton_self mem))
        refine .bind (wp_kfree_bytes hmem' fun m₄ hm₄ _ => ?_)
        have hall₄ : m₄.all pd'.pages = m₀.all pd₀.pages := by
          have : m₄.all pd'.pages = {mem} + m₃.all pd'.pages := by
            rw [Mem.all, Mem.all, hm₄, add_assoc]
          rw [this, hall₃, ← hall, Mem.all, Mem.all, hm₁, hm₂, add_assoc]
        refine hfail pd' m₄ _ (hgrown.kept hun (by omega) hupper habove₀
          fun hd va hva pte hpte => ?_) hall₄ fun e => ?_
        · have hnot := hnodup hall₄ hd va hva pte hpte
          rw [hm₄, Multiset.mem_add, Multiset.mem_singleton, not_or] at hnot
          have hnot₁ : pte.addr ∉ m₁.free := fun hc => hnot.2 (hsub₃ _ (by rw [hm₂]; exact hc))
          rw [update_of_ne hnot.1, hb₃ _ hnot.2, hb₂ _ hnot₁,
            update_of_ne hnot.1]
        · rw [hm₁, hout (hn₁ e), Multiset.card_add, Multiset.card_singleton, Multiset.card_zero]
          omega
    · have hall₁ : m₁.all pd.pages = m₀.all pd₀.pages := by
        rwa [Mem.all, hm₁]
      refine hdealloc (by rw [hall₁]; exact hhas) fun pd' m₂ b₂ hun hall₂ _ hb₂ => ?_
      refine hfail pd' m₂ b₂ (hgrown.kept hun (by omega) hupper habove₀
        fun hd va hva pte hpte => ?_) (hall₂.trans hall₁) fun e => ?_
      · exact hb₂ _ (hnodup (hall₂.trans hall₁) hd va hva pte hpte)
      · rw [hout e, Multiset.card_zero]
        omega

/-- **`allocuvm` adds pages to user memory, or leaves everything as it was.** -/
theorem wp_allocuvm_bytes {Q : PageDir × ℕ → Mem × Bytes → Prop}
    (habove : ∀ va, PGROUNDUP oldsz ≤ va → va < KERNBASE → ¬pd.Present va)
    (hhas : ∀ x ∈ m.all pd.pages, k.Has x)
    (hok : oldsz ≤ newsz → newsz < KERNBASE → ∀ pd' m' b',
      Grown (m.all pd.pages).Nodup pd b (PGROUNDUP oldsz) (PGROUNDUP newsz) pd' b' →
      m'.all pd'.pages = m.all pd.pages → m.Next m' → Q (pd', newsz) (m', b'))
    (hkeep : newsz < oldsz → newsz < KERNBASE → Q (pd, oldsz) (m, b))
    (hfail : ∀ pd' m' b', Kept (m.all pd.pages).Nodup pd b pd' b' →
      m'.all pd'.pages = m.all pd.pages → (newsz < KERNBASE → m.fails = [] →
      m.free.card < 2 * ((newsz - PGROUNDUP oldsz + PGSIZE - 1) / PGSIZE)) → Q (pd', 0) (m', b')) :
    (vmb k bad).wp (allocuvm pd oldsz newsz) Q (m, b) := by
  have hsame : Kept (m.all pd.pages).Nodup pd b pd b :=
    ⟨fun _ _ => rfl, fun _ _ _ => rfl, rfl, fun _ _ _ _ _ => rfl⟩
  rw [allocuvm]
  split
  next h => exact hfail pd m b hsame rfl fun h' => absurd h (by omega)
  next h =>
    have hnew : newsz < KERNBASE := by omega
    split
    next hlt => exact hkeep hlt hnew
    next hge =>
      have hle : oldsz ≤ newsz := by omega
      have hgrown : Grown (m.all pd.pages).Nodup pd b (PGROUNDUP oldsz) (PGROUNDUP oldsz) pd b :=
        ⟨.refl .., fun va h1 h2 => absurd h1 (by omega), hsame.same⟩
      refine wp_allocuvmLoop hle hnew habove hhas PGROUNDUP_mod ?_ le_rfl hgrown rfl
        (hok hle hnew) fun pd' m' b' hs hall hfew => hfail pd' m' b' hs hall fun _ => hfew
      have h1 := PGROUNDUP_eq (hle.trans hnew.le)
      have h2 := PGROUNDUP_eq hnew.le
      rw [h1, h2]
      rw [PGSIZE] at *
      omega

theorem Kept.space (h : Kept distinct pd b pd' b') (hs : Space pd sz) : Space pd' sz where
  kernel := hs.kernel.congr h.kern
  above va hva hlt := by
    rw [← PageDir.entry_eq_none_iff, h.user va hlt, PageDir.entry_eq_none_iff]
    exact hs.above va hva hlt

/-- The same without the bytes. -/
theorem wp_allocuvm {Q : PageDir × ℕ → Mem → Prop} (hspace : Space pd oldsz)
    (hhas : ∀ x ∈ m.all pd.pages, k.Has x)
    (hok : oldsz ≤ newsz → newsz < KERNBASE → ∀ pd' m',
      Maps pd pd' (PGROUNDUP oldsz) (PGROUNDUP newsz) true → m'.all pd'.pages = m.all pd.pages →
      m.Next m' → Q (pd', newsz) m')
    (hkeep : newsz < oldsz → newsz < KERNBASE → Q (pd, oldsz) m)
    (hfail : ∀ pd' m', Space pd' oldsz → m'.all pd'.pages = m.all pd.pages →
      (newsz < KERNBASE → m.fails = [] →
      m.free.card < 2 * ((newsz - PGROUNDUP oldsz + PGSIZE - 1) / PGSIZE)) → Q (pd', 0) m') :
    (vm k bad).wp (allocuvm pd oldsz newsz) Q m := by
  refine wp_of_bytes (fun _ _ => 0) (wp_allocuvm_bytes hspace.above hhas ?_ hkeep ?_)
  · exact fun hle hnew pd' m' _ hgrown => hok hle hnew pd' m' hgrown.maps
  · exact fun pd' m' _ hkept => hfail pd' m' (hkept.space hspace)

/-- `clearpteu` takes `PTE_U` from one page. -/
theorem wp_clearpteu {Q : PageDir → Mem → Prop} (hva : va < KERNBASE) (hlook : pd.look va ≠ none)
    (hQ : ∀ pte, pd.look va = some pte → (pd.setPte va { pte with u := false }).pages = pd.pages →
      Q (pd.setPte va { pte with u := false }) m) :
    (vm k bad).wp (clearpteu pd va) Q m := by
  rw [clearpteu]
  split
  next h => exact absurd h hlook
  next pte h =>
    have hpages := PageDir.pages_setPte { pte with u := false } h hva
    exact hQ pte h (add_right_cancel (hpages.trans (congrArg _ rfl)))

/-- An entry in user memory that stays present or absent changes nothing of the above. -/
theorem Space.setPte {old pte : Pte} (h : Space pd sz) (hva : va < KERNBASE)
    (hold : pd.look va = some old) (hp : pte.p = old.p) : Space (pd.setPte va pte) sz where
  kernel := h.kernel.congr fun wa hwa hlt => by
    refine PageDir.look_setPte_of_ne hlt (hva.trans (by decide)) ?_
    rw [KERNBASE] at *
    rw [PGSIZE]
    omega
  above wa hwa hlt := by
    have hno := h.above wa hwa hlt
    by_cases hpage : wa / PGSIZE = va / PGSIZE
    · rintro ⟨pte', hpte', hp'⟩
      rw [PageDir.look_setPte_of_eq (by rw [hold]; exact Option.some_ne_none _)
        (hlt.trans (by decide)) (hva.trans (by decide)) hpage] at hpte'
      cases hpte'
      have hsame := (page_eq_iff (hlt.trans (by decide)) (hva.trans (by decide))).mp hpage
      refine hno ⟨old, ?_, hp ▸ hp'⟩
      rwa [PageDir.look, hsame.1, hsame.2]
    · rw [PageDir.Present, PageDir.look_setPte_of_ne (hlt.trans (by decide))
        (hva.trans (by decide)) hpage]
      exact hno

end Xv6.Vm
