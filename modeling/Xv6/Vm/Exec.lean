import Xv6.Vm.Space

/-!
# `exec`

`exec.c` as far as it is about memory: a new page directory is made, the segments of the
program and a stack are allocated in it, the arguments are copied onto the stack, and then
the new page directory takes the place of the old one or is freed. What `readi` gives is part
of the `Xv6.Vm.Executable`.

`copyout` writes through the entry that `walkpgdir` finds, and does not look whether it has
found one. The address zero that `walkpgdir` returns otherwise is a valid one, in the caller's
memory; so what is there, `null`, is an argument here. The record `Xv6.Vm.Use` says for which
address `uva2ka` was called and what was written where.
-/

namespace Xv6.Vm

open Lib UInt32

/-- The most arguments of `exec`. -/
def MAXARG : ℕ := 32

/-! ### Loading the program -/

/-- `struct proghdr`, and which pages of the segment `readi` reads. -/
structure Proghdr where
  /-- `ph.type == ELF_PROG_LOAD` -/
  load : Bool
  vaddr : UInt32
  filesz : UInt32
  memsz : UInt32
  reads : ℕ → Bool

/-- The program: whether there is an ELF header, and the program headers that can be read. -/
structure Executable where
  header : Bool
  phdrs : List (Option Proghdr)

/-- The loop of `loaduvm`, for `n` pages from the `i`-th on. -/
def loaduvmLoop (pd : PageDir) (ph : Proghdr) : (n i : ℕ) → VmM Bool
  | 0, _ => pure true
  | n + 1, i =>
    match pd.look (uint (ph.vaddr.toNat + i * PGSIZE)) with
    | none => panic "loaduvm: address should exist"
    | some _ => if ph.reads i then loaduvmLoop pd ph n (i + 1) else pure false

/-- `loaduvm` -/
def loaduvm (pd : PageDir) (ph : Proghdr) : VmM Bool := do
  panicIf (ph.vaddr.toNat % PGSIZE ≠ 0) "loaduvm: addr must be page aligned"
  loaduvmLoop pd ph ((ph.filesz.toNat + PGSIZE - 1) / PGSIZE) 0

/-- The loop over the program headers. There is no size if it goes to `bad`. -/
def loadSegments : PageDir → (sz : ℕ) → List (Option Proghdr) → VmM (PageDir × Option ℕ)
  | pd, sz, [] => pure (pd, some sz)
  | pd, _, none :: _ => pure (pd, none)
  | pd, sz, some ph :: phs =>
    if ph.load = false then loadSegments pd sz phs
    else if ph.memsz < ph.filesz then pure (pd, none)
    else if ph.vaddr + ph.memsz < ph.vaddr then pure (pd, none)
    else do
      let (pd, sz) ← allocuvm pd sz (ph.vaddr + ph.memsz).toNat
      if sz = 0 then pure (pd, none)
      else if ph.vaddr.toNat % PGSIZE ≠ 0 then pure (pd, none)
      else do
        let ok ← loaduvm pd ph
        if ok then loadSegments pd sz phs else pure (pd, none)

/-- The two pages after the program, of which the first is made inaccessible and the second
is the stack. -/
def loadStack (pd : PageDir) (sz : ℕ) : VmM (Option (PageDir × ℕ)) := do
  let (pd, sz) ← allocuvm pd (PGROUNDUP sz) (uint (PGROUNDUP sz + 2 * PGSIZE))
  if sz = 0 then do
    freevm pd
    pure none
  else do
    let pd ← clearpteu pd (uint (sz - 2 * PGSIZE))
    pure (some (pd, sz))

/-- `exec` up to the point where the stack has been allocated: the page directory and the
size of the program. -/
def load (k : Layout) (exe : Executable) : VmM (Option (PageDir × ℕ)) :=
  if exe.header = false then pure none
  else do
    match ← setupkvm k with
    | none => pure none
    | some pd => do
      let (pd, sz) ← loadSegments pd 0 exe.phdrs
      match sz with
      | none => do
        freevm pd
        pure none
      | some sz => loadStack pd sz

/-! ### Copying the arguments -/

/-- A call of `uva2ka`, and what was written: `data`, at an offset in a page. -/
structure Use where
  va : ℕ
  page : Option Page
  off : ℕ
  data : List UInt8

/-- `uva2ka`. If there is no entry, it looks at `null`. -/
def uva2ka (pd : PageDir) (null : Pte) (uva : ℕ) : Option Page :=
  let pte := (pd.look uva).getD null
  if pte.p = false then none
  else if pte.u = false then none
  else some pte.addr

/-- `copyout`, and the calls of `uva2ka`. The result is false if it returns -1. -/
def copyout (pd : PageDir) (null : Pte) (va : ℕ) (p : List UInt8) : Bool × List Use :=
  if _hp : p = [] then (true, [])
  else
    let va0 := PGROUNDDOWN va
    let n := min (PGSIZE - (va - va0)) p.length
    match uva2ka pd null va0 with
    | none => (false, [⟨va0, none, 0, []⟩])
    | some pa0 =>
      let r := copyout pd null (uint (va0 + PGSIZE)) (p.drop n)
      (r.1, ⟨va0, some pa0, va - va0, p.take n⟩ :: r.2)
termination_by p.length
decreasing_by
  have hlen : 0 < p.length := List.length_pos_iff.mpr _hp
  have hoff : va - PGROUNDDOWN va < PGSIZE := by
    rw [PGROUNDDOWN, PGSIZE]
    omega
  rw [List.length_drop]
  omega

/-- How far the loop over the arguments has come: there is no `sp` if it goes to `bad`. -/
structure Pushed where
  sp : Option ℕ
  ustack : List ℕ
  uses : List Use

/-- Where a string of the given length goes. -/
def pushSp (sp len : ℕ) : ℕ := uint (sp - (len + 1)) / 4 * 4

/-- The loop over the arguments. -/
def pushArgs (pd : PageDir) (null : Pte) : (argc sp : ℕ) → List (List UInt8) → Pushed
  | _, sp, [] => ⟨some sp, [], []⟩
  | argc, sp, s :: argv =>
    if argc ≥ MAXARG then ⟨none, [], []⟩
    else
      let sp := pushSp sp s.length
      let c := copyout pd null sp (s ++ [0])
      if c.1 then
        let r := pushArgs pd null (argc + 1) sp argv
        ⟨r.sp, sp :: r.ustack, c.2 ++ r.uses⟩
      else ⟨none, [], c.2⟩

/-- The bytes of an array of `uint`s. -/
def bytesOf (ws : List ℕ) : List UInt8 :=
  ws.flatMap fun w => [UInt8.ofNat w, UInt8.ofNat (w / 2 ^ 8), UInt8.ofNat (w / 2 ^ 16),
    UInt8.ofNat (w / 2 ^ 24)]

/-- The arguments and the array of pointers to them. -/
def pushStack (pd : PageDir) (null : Pte) (sz : ℕ) (argv : List (List UInt8)) : Pushed :=
  let r := pushArgs pd null 0 sz argv
  match r.sp with
  | none => r
  | some sp =>
    let argc := argv.length
    let ustack := [0xffffffff, argc, uint (sp - (argc + 1) * 4)] ++ r.ustack ++ [0]
    let sp := uint (sp - (3 + argc + 1) * 4)
    let c := copyout pd null sp (bytesOf ustack)
    ⟨if c.1 then some sp else none, ustack, r.uses ++ c.2⟩

/-- `exec`, up to the point where it commits to the new image: its page directory, its size
and its stack pointer, and what `copyout` has done. -/
def exec (k : Layout) (exe : Executable) (null : Pte) (argv : List (List UInt8)) :
    VmM (Option (PageDir × ℕ × ℕ) × List Use) := do
  match ← load k exe with
  | none => pure (none, [])
  | some (pd, sz) =>
    let r := pushStack pd null sz argv
    match r.sp with
    | none => do
      freevm pd
      pure (none, r.uses)
    | some sp => pure (some (pd, sz, sp), r.uses)

/-! ### What is loaded -/

variable {k : Layout} {bad : String → Prop} {m : Mem} {pd pd' : PageDir} {sz : ℕ}

/-- The program as far as it is loaded: the process may use all of its pages. -/
structure Image (pd : PageDir) (sz : ℕ) : Prop extends Space pd sz where
  below : ∀ va < PGROUNDUP sz, ∃ pte ∈ pd.look va, pte.p = true ∧ pte.u = true
  lt : sz < KERNBASE

/-- The program and the stack: of the last two pages the process may use only the second. -/
structure Loaded (pd : PageDir) (sz : ℕ) : Prop extends Space pd sz where
  aligned : sz % PGSIZE = 0
  le : 2 * PGSIZE ≤ sz
  lt : sz < KERNBASE
  below : ∀ va < sz, ∃ pte ∈ pd.look va, pte.p = true ∧
    (pte.u = true ↔ va / PGSIZE ≠ sz / PGSIZE - 2)

theorem Image.maps {newsz : ℕ} (h : Image pd sz) (hle : sz ≤ newsz) (hlt : newsz < KERNBASE)
    (hm : Maps pd pd' (PGROUNDUP sz) (PGROUNDUP newsz) true) : Image pd' newsz where
  toSpace := h.toSpace.maps hm hlt.le (PGROUNDUP_mono hle hlt.le)
  below va hva := by
    by_cases hin : PGROUNDUP sz ≤ va
    · exact hm.ins va hin hva
    · obtain ⟨pte, hpte, hp, hu⟩ := h.below va (by omega)
      have hva' : va < 2 ^ 32 := (hva.trans_le (PGROUNDUP_le hlt.le)).trans (by decide)
      rcases hm.out va hva' (by omega) with e | ⟨e, -⟩
      · exact ⟨pte, e ▸ hpte, hp, hu⟩
      · rw [e] at hpte
        cases hpte
  lt := hlt

/-- The first of the last two pages is taken away. -/
theorem Image.loaded {pte : Pte} (h : Image pd sz) (ha : sz % PGSIZE = 0) (hle : 2 * PGSIZE ≤ sz)
    (hpte : pd.look (sz - 2 * PGSIZE) = some pte) :
    Loaded (pd.setPte (sz - 2 * PGSIZE) { pte with u := false }) sz where
  toSpace := h.toSpace.setPte (by have := h.lt; omega) hpte rfl
  aligned := ha
  le := hle
  lt := h.lt
  below va hva := by
    have hlt := h.lt
    have hround : PGROUNDUP sz = sz := PGROUNDUP_of_aligned hlt.le ha
    have hv : va < 2 ^ 32 := hva.trans (hlt.trans (by decide))
    have hw : sz - 2 * PGSIZE < 2 ^ 32 := by
      rw [KERNBASE] at hlt
      omega
    have hpage : (sz - 2 * PGSIZE) / PGSIZE = sz / PGSIZE - 2 := by
      rw [PGSIZE] at *
      omega
    by_cases hguard : va / PGSIZE = (sz - 2 * PGSIZE) / PGSIZE
    · refine ⟨_, PageDir.look_setPte_of_eq (by rw [hpte]; exact Option.some_ne_none _) hv hw hguard,
        ?_, ?_⟩
      · obtain ⟨pte', hpte', hp, -⟩ := h.below (sz - 2 * PGSIZE) (by rw [hround, PGSIZE] at *; omega)
        rw [hpte] at hpte'
        cases hpte'
        exact hp
      · rw [← hpage]
        exact ⟨fun e => absurd e Bool.false_ne_true, fun hne => absurd hguard hne⟩
    · obtain ⟨pte', hpte', hp, hu⟩ := h.below va (by rw [hround]; exact hva)
      refine ⟨pte', ?_, hp, fun _ => hpage ▸ hguard, fun _ => hu⟩
      rwa [PageDir.look_setPte_of_ne hv hw hguard]

theorem wp_loaduvmLoop {ph : Proghdr} {n : ℕ} :
    ∀ {i : ℕ} {Q : Bool → Mem → Prop},
      (∀ j < i + n, pd.look (uint (ph.vaddr.toNat + j * PGSIZE)) ≠ none) → (∀ b, Q b m) →
      (vm k bad).wp (loaduvmLoop pd ph n i) Q m := by
  induction n with
  | zero => exact fun _ hQ => hQ true
  | succ n ih =>
    intro i Q hlook hQ
    rw [loaduvmLoop]
    split
    next h => exact absurd h (hlook i (by omega))
    next =>
      split
      · exact ih (fun j hj => hlook j (by omega)) hQ
      · exact hQ false

/-- `loaduvm` finds every page of the segment. -/
theorem wp_loaduvm {ph : Proghdr} {Q : Bool → Mem → Prop} (ha : ph.vaddr.toNat % PGSIZE = 0)
    (hI : Image pd sz) (hsz : ph.vaddr.toNat + ph.filesz.toNat ≤ sz) (hQ : ∀ b, Q b m) :
    (vm k bad).wp (loaduvm pd ph) Q m := by
  refine .bind (wp_panicIf (fun h => absurd ha h) fun _ => ?_)
  refine wp_loaduvmLoop (fun j hj e => ?_) hQ
  have hlt := hI.lt
  have hva : ph.vaddr.toNat + j * PGSIZE < sz := by
    rw [PGSIZE] at *
    omega
  obtain ⟨pte, hpte, -⟩ := hI.below _ (hva.trans_le (le_PGROUNDUP hlt.le))
  have hu : uint (ph.vaddr.toNat + j * PGSIZE) = ph.vaddr.toNat + j * PGSIZE := by
    rw [uint]
    rw [KERNBASE] at hlt
    omega
  rw [hu] at e
  rw [e] at hpte
  cases hpte

theorem wp_loadSegments {phs : List (Option Proghdr)} :
    ∀ {pd : PageDir} {sz : ℕ} {m : Mem} {Q : PageDir × Option ℕ → Mem → Prop}, Image pd sz →
      (∀ x ∈ m.all pd.pages, k.Has x) →
      (∀ pd' sz' m', Image pd' sz' → m'.all pd'.pages = m.all pd.pages →
        (phs = [] → pd' = pd ∧ sz' = sz ∧ m' = m) → Q (pd', some sz') m') →
      (∀ pd' m', m'.all pd'.pages = m.all pd.pages → phs ≠ [] → Q (pd', none) m') →
      (vm k bad).wp (loadSegments pd sz phs) Q m := by
  induction phs with
  | nil => exact fun hI _ hok _ => hok _ _ _ hI rfl fun _ => ⟨rfl, rfl, rfl⟩
  | cons ph phs ih =>
    intro pd sz m Q hI hhas hok hbad
    have hne : ∀ x : Option Proghdr, x :: phs ≠ [] := fun _ => List.cons_ne_nil _ _
    -- The rest of the loop, from a program that is loaded so far.
    have hrest : ∀ pd₁ sz₁ m₁, Image pd₁ sz₁ → m₁.all pd₁.pages = m.all pd.pages →
        (vm k bad).wp (loadSegments pd₁ sz₁ phs) Q m₁ := by
      intro pd₁ sz₁ m₁ hI₁ hall₁
      refine ih hI₁ (hall₁ ▸ hhas) (fun pd' sz' m' hI' hall' _ => ?_) fun pd' m' hall' _ => ?_
      · exact hok pd' sz' m' hI' (hall'.trans hall₁) fun e => absurd e (hne ph)
      · exact hbad pd' m' (hall'.trans hall₁) (hne ph)
    cases ph with
    | none => exact hbad pd m rfl (hne none)
    | some ph =>
      rw [loadSegments]
      split
      · exact hrest pd sz m hI rfl
      split
      · exact hbad pd m rfl (hne _)
      next hsize =>
      split
      · exact hbad pd m rfl (hne _)
      next hover =>
      have hsum : (ph.vaddr + ph.memsz).toNat = ph.vaddr.toNat + ph.memsz.toNat := by
        rw [lt_iff_toNat_lt, UInt32.toNat_add] at hover
        rw [UInt32.toNat_add]
        have h2 := ph.memsz.toNat_lt
        omega
      rw [lt_iff_toNat_lt] at hsize
      -- What comes after `allocuvm`.
      have hload : ∀ pd₁ sz₁ m₁, Image pd₁ sz₁ → (ph.vaddr + ph.memsz).toNat ≤ sz₁ →
          m₁.all pd₁.pages = m.all pd.pages →
          (vm k bad).wp (if sz₁ = 0 then pure (pd₁, none)
            else if ph.vaddr.toNat % PGSIZE ≠ 0 then pure (pd₁, none)
            else do
              let ok ← loaduvm pd₁ ph
              if ok then loadSegments pd₁ sz₁ phs else pure (pd₁, none)) Q m₁ := by
        intro pd₁ sz₁ m₁ hI₁ hle hall₁
        split
        · exact hbad pd₁ m₁ hall₁ (hne _)
        split
        · exact hbad pd₁ m₁ hall₁ (hne _)
        next ha =>
        refine .bind (wp_loaduvm (not_not.mp ha) hI₁ (by omega) fun ok => ?_)
        cases ok with
        | false => exact hbad pd₁ m₁ hall₁ (hne _)
        | true => exact hrest pd₁ sz₁ m₁ hI₁ hall₁
      refine .bind (wp_allocuvm hI.toSpace hhas ?_ ?_ ?_)
      · intro hle hlt pd₁ m₁ hmaps hall₁ _
        exact hload pd₁ _ m₁ (hI.maps hle hlt hmaps) le_rfl hall₁
      · intro hlt _
        exact hload pd sz m hI hlt.le rfl
      · intro pd₁ m₁ _ hall₁ _
        exact hbad pd₁ m₁ hall₁ (hne _)

theorem wp_loadStack {Q : Option (PageDir × ℕ) → Mem → Prop} {newsz : ℕ} (hI : Image pd sz)
    (hnew : PGROUNDUP sz + 2 * PGSIZE = newsz) (hhas : ∀ x ∈ m.all pd.pages, k.Has x)
    (hsome : ∀ pd' m', Loaded pd' newsz → m'.all pd'.pages = m.all pd.pages →
      Q (some (pd', newsz)) m')
    (hnone : ∀ m', m'.free = m.all pd.pages → (newsz < KERNBASE → m.fails = [] →
      m.free.card < 4) → Q none m') :
    (vm k bad).wp (loadStack pd sz) Q m := by
  have hround := PGROUNDUP_le hI.lt.le
  have hmod : PGROUNDUP sz % PGSIZE = 0 := PGROUNDUP_mod
  have hsame : PGROUNDUP (PGROUNDUP sz) = PGROUNDUP sz := PGROUNDUP_of_aligned hround hmod
  have huint : uint ((PGROUNDUP sz : ℕ) + 2 * PGSIZE) = newsz := by
    rw [← hnew, uint]
    rw [KERNBASE] at hround
    rw [PGSIZE]
    omega
  have hspace : Space pd (PGROUNDUP sz) := ⟨hI.kernel, by rw [hsame]; exact hI.above⟩
  rw [loadStack, huint]
  refine .bind (wp_allocuvm hspace hhas ?_ (fun h => by omega) ?_)
  · intro hle hlt pd₁ m₁ hmaps hall₁ _
    have hge : 2 * PGSIZE ≤ newsz := by omega
    have hmod' : newsz % PGSIZE = 0 := by
      rw [← hnew, Nat.add_mul_mod_self_right]
      exact hmod
    have hI₁ : Image pd₁ newsz :=
      Image.maps ⟨hspace, by rw [hsame]; exact hI.below, by omega⟩ hle hlt hmaps
    have hpos : 0 < PGSIZE := by decide
    have hguard : uint ((newsz : ℤ) - 2 * PGSIZE) = newsz - 2 * PGSIZE := by
      rw [uint]
      rw [KERNBASE] at hlt
      omega
    have hlook : pd₁.look (newsz - 2 * PGSIZE) ≠ none := by
      intro e
      obtain ⟨pte, hpte, -⟩ := hI₁.below (newsz - 2 * PGSIZE)
        (by rw [PGROUNDUP_of_aligned hlt.le hmod']; omega)
      rw [e] at hpte
      cases hpte
    dsimp only
    rw [if_neg (by omega), hguard]
    refine .bind (wp_clearpteu (by omega) hlook fun pte hpte hpages => ?_)
    refine hsome _ m₁ (hI₁.loaded hmod' hge hpte) ?_
    rwa [hpages]
  · intro pd₁ m₁ _ hall₁ hfew
    refine .bind (wp_freevm (hall₁ ▸ hhas) fun m₂ hm₂ _ => ?_)
    refine hnone m₂ (hm₂.trans hall₁) fun hlt e => ?_
    have := hfew hlt e
    rwa [hsame, ← hnew, Nat.add_sub_cancel_left] at this

/-- **A program is loaded completely, or all its pages are free again.** -/
theorem wp_load {exe : Executable} {Q : Option (PageDir × ℕ) → Mem → Prop}
    (hhas : ∀ x ∈ m.free, k.Has x)
    (hsome : ∀ pd sz m', Loaded pd sz → m'.all pd.pages = m.free →
      (exe.phdrs = [] → sz = 2 * PGSIZE) → Q (some (pd, sz)) m')
    (hnone : ∀ m', m'.free = m.free → (exe.header = true → exe.phdrs = [] → m.fails = [] →
      m.free.card < NPDENTRIES + 5) → Q none m') :
    (vm k bad).wp (load k exe) Q m := by
  rw [load]
  split
  next h => exact hnone m rfl fun e => absurd e (h ▸ Bool.false_ne_true)
  refine .bind (wp_setupkvm hhas (fun pd m₁ hker huser hall₁ hn₁ => ?_)
    fun m' hm' hfew => hnone m' hm' fun _ _ e => (Nat.lt_succ_of_le (hfew e)).trans_le (by omega))
  have hempty : Image pd 0 := by
    refine ⟨⟨hker, fun va _ hva => ?_⟩, fun va hva => absurd hva (Nat.not_lt_zero va), by decide⟩
    rintro ⟨pte, hpte, -⟩
    rw [huser va hva] at hpte
    cases hpte
  refine .bind (wp_loadSegments hempty (hall₁ ▸ hhas)
    (fun pd₂ sz₂ m₂ hI hall₂ hsame => ?_) fun pd₂ m₂ hall₂ hne => ?_)
  · have hall₂ := hall₂.trans hall₁
    obtain ⟨newsz, hnew⟩ : ∃ newsz, PGROUNDUP sz₂ + 2 * PGSIZE = newsz := ⟨_, rfl⟩
    have hnil : exe.phdrs = [] → newsz = 2 * PGSIZE := fun hnil => by
      rw [← hnew, (hsame hnil).2.1, PGROUNDUP_of_aligned (Nat.zero_le _) rfl, Nat.zero_add]
    refine wp_loadStack hI hnew (hall₂ ▸ hhas) (fun pd₃ m₃ hl hall₃ => ?_) fun m₃ hm₃ hfew => ?_
    · exact hsome pd₃ newsz m₃ hl (hall₃.trans hall₂) hnil
    · refine hnone m₃ (hm₃.trans hall₂) fun _ hphdrs e => ?_
      obtain ⟨rfl, -, rfl⟩ := hsame hphdrs
      -- All but three pages are those of the kernel's part.
      have hlt := hfew (by rw [hnil hphdrs]; decide) (hn₁ e)
      have hcard := PageDir.card_pages_le huser
      rw [← hall₁, Mem.all, Multiset.card_add]
      omega
  · refine .bind (wp_freevm ((hall₂.trans hall₁) ▸ hhas) fun m₃ hm₃ _ => ?_)
    exact hnone m₃ (hm₃.trans (hall₂.trans hall₁)) fun _ hnil => absurd hnil hne

end Xv6.Vm
