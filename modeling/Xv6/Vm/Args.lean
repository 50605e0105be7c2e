import Xv6.Vm.Exec

/-!
# Where the arguments of `exec` go

The strings are pushed one below the other, and the stack is one page. A string that does not
fit reaches into the inaccessible page below, and there `copyout` ends (`Xv6.Vm.copyout_stack`).
But the address is computed before anything is copied, and for a string that is longer than the
new program the subtraction wraps round. Then the address is one of the kernel's, and what
happens depends on whether it is mapped there (`Xv6.Vm.copyout_wrapped`): between the end of
physical memory and the devices there is no page table, and `uva2ka` reads its entry at the
address zero.

**This is the only way in which an entry can be missing** (`Xv6.Vm.pushStack_safe_iff`): the
condition `Xv6.Vm.Spares` on the lengths says that no string that is pushed goes to these
addresses. Under it all that is written goes to pages of the new process, and `exec` loses no page
(`Xv6.Vm.exec_pages`).
-/

namespace Xv6.Vm

open Lib List

variable {pd : PageDir} {null : Pte} {sz va sp : ℕ} {p : List UInt8} {argv : List (List UInt8)}

/-! ### Safe calls -/

/-- The call of `uva2ka` finds an entry, and if anything is written, then to a page of the
process. -/
def Use.Safe (pd : PageDir) (u : Use) : Prop :=
  ∃ pte ∈ pd.look u.va, ∀ page ∈ u.page, pte.p = true ∧ pte.u = true ∧ page = pte.addr

/-- All calls are safe, and if there is nothing to write to, then `exec` goes to `bad`. -/
structure Pushed.Safe (pd : PageDir) (r : Pushed) : Prop where
  use : ∀ u ∈ r.uses, u.Safe pd
  bad : ∀ u ∈ r.uses, u.page = none → r.sp = none

theorem Use.safe_uva2ka {off : ℕ} {data : List UInt8} (h : pd.look va ≠ none) :
    Use.Safe pd ⟨va, uva2ka pd null va, off, data⟩ := by
  obtain ⟨pte, hpte⟩ := Option.ne_none_iff_exists'.mp h
  refine ⟨pte, hpte, fun page hpage => ?_⟩
  rw [uva2ka, hpte] at hpage
  cases hp : pte.p <;> cases hu : pte.u <;> simp_all

theorem uva2ka_eq_none {pte : Pte} (h : pd.look va = some pte) (hu : pte.u = false) :
    uva2ka pd null va = none := by
  rw [uva2ka, h]
  cases hp : pte.p <;> simp_all

theorem uva2ka_eq_some {pte : Pte} (h : pd.look va = some pte) (hp : pte.p = true)
    (hu : pte.u = true) : uva2ka pd null va = some pte.addr := by
  rw [uva2ka, h]
  simp_all

/-! ### One call of `copyout` -/

theorem copyout_of_none (hp : p ≠ []) (h : uva2ka pd null (PGROUNDDOWN va) = none) :
    copyout pd null va p = (false, [⟨PGROUNDDOWN va, uva2ka pd null (PGROUNDDOWN va), 0, []⟩]) := by
  rw [copyout, dif_neg hp]
  simp only [h]

theorem copyout_of_some {pa0 : Page} {n : ℕ} (hp : p ≠ [])
    (h : uva2ka pd null (PGROUNDDOWN va) = some pa0)
    (hn : min (PGSIZE - (va - PGROUNDDOWN va)) p.length = n) :
    copyout pd null va p = ((copyout pd null (uint (PGROUNDDOWN va + PGSIZE)) (p.drop n)).1,
      ⟨PGROUNDDOWN va, uva2ka pd null (PGROUNDDOWN va), va - PGROUNDDOWN va, p.take n⟩ ::
        (copyout pd null (uint (PGROUNDDOWN va + PGSIZE)) (p.drop n)).2) := by
  rw [copyout, dif_neg hp]
  simp only [h, hn]

theorem copyout_nil : copyout pd null va [] = (true, []) := by
  rw [copyout, dif_pos rfl]

/-- A page that cannot be written ends the call. -/
theorem copyout_refused (n : ℕ) : ∀ (va : ℕ) (p : List UInt8), p.length ≤ n →
    ∀ u ∈ (copyout pd null va p).2, u.page = none → (copyout pd null va p).1 = false := by
  induction n with
  | zero =>
    intro va p hn u hu
    rw [length_eq_zero_iff.mp (Nat.le_zero.mp hn), copyout_nil] at hu
    cases hu
  | succ n ih =>
    intro va p hn u hu hnone
    by_cases hp : p = []
    · rw [hp, copyout_nil] at hu
      cases hu
    · cases h : uva2ka pd null (PGROUNDDOWN va) with
      | none => rw [copyout_of_none hp h]
      | some pa0 =>
        have hoff : va - PGROUNDDOWN va < PGSIZE := by
          rw [PGROUNDDOWN, PGSIZE]
          omega
        rw [copyout_of_some hp h rfl] at hu ⊢
        rcases mem_cons.mp hu with rfl | hu
        · rw [h] at hnone
          cases hnone
        · refine ih _ _ ?_ u hu hnone
          rw [length_drop]
          omega

/-- **Bytes that end in the last two pages**: the call comes to the end exactly when they begin
in the very last one. -/
theorem copyout_stack (h : Loaded pd sz) (null : Pte) (n : ℕ) :
    ∀ (va : ℕ) (p : List UInt8), p.length ≤ n → p ≠ [] →
    sz - 2 * PGSIZE < va + p.length → va + p.length ≤ sz →
    (∀ u ∈ (copyout pd null va p).2, u.Safe pd) ∧
      ((copyout pd null va p).1 = true ↔ sz - PGSIZE ≤ va) := by
  induction n with
  | zero => exact fun _ _ hn hp => absurd (length_eq_zero_iff.mp (Nat.le_zero.mp hn)) hp
  | succ n ih =>
    intro va p hn hp hlow hle
    have hlen : 0 < p.length := length_pos_iff.mpr hp
    have ha := h.aligned
    have hge := h.le
    have hlt := h.lt
    obtain ⟨pte, hpte, hpp, hpu⟩ := h.below (PGROUNDDOWN va) (by rw [PGROUNDDOWN, PGSIZE]; omega)
    have hlook : pd.look (PGROUNDDOWN va) ≠ none := fun e => by
      rw [e] at hpte
      cases hpte
    have hdown : PGROUNDDOWN va = va / PGSIZE * PGSIZE := rfl
    by_cases hguard : PGROUNDDOWN va / PGSIZE = sz / PGSIZE - 2
    · -- The page is the inaccessible one.
      have hu : pte.u = false := Bool.eq_false_iff.mpr fun hu => hpu.mp hu hguard
      rw [copyout_of_none hp (uva2ka_eq_none hpte hu)]
      refine ⟨fun u hu => ?_, fun e => absurd e Bool.false_ne_true, fun hva => ?_⟩
      · rw [mem_singleton.mp hu]
        exact Use.safe_uva2ka hlook
      · rw [PGSIZE] at *
        omega
    · rw [copyout_of_some hp (uva2ka_eq_some hpte hpp (hpu.mpr hguard)) rfl]
      obtain ⟨c, hc⟩ : ∃ c, min (PGSIZE - (va - PGROUNDDOWN va)) p.length = c := ⟨_, rfl⟩
      rw [hc]
      by_cases hrest : p.drop c = []
      · -- It is the stack.
        have hle' : p.length ≤ c := drop_eq_nil_iff.mp hrest
        rw [hrest, copyout_nil]
        refine ⟨fun u hu => ?_, fun _ => ?_, fun _ => rfl⟩
        · rw [mem_singleton.mp hu]
          exact Use.safe_uva2ka hlook
        · rw [PGSIZE] at *
          omega
      · -- It is a page of the program, and there are more pages to come before the stack.
        have hlt' : c < p.length := by
          by_contra hc'
          exact hrest (drop_eq_nil_iff.mpr (by omega))
        have hnext : uint ((PGROUNDDOWN va : ℕ) + PGSIZE) = PGROUNDDOWN va + PGSIZE := by
          rw [uint]
          rw [KERNBASE] at hlt
          rw [PGSIZE] at *
          omega
        rw [hnext]
        have hsum : PGROUNDDOWN va + PGSIZE + (p.drop c).length = va + p.length := by
          rw [length_drop]
          rw [PGSIZE] at *
          omega
        obtain ⟨hsafe, hiff⟩ := ih (PGROUNDDOWN va + PGSIZE) (p.drop c)
          (by rw [length_drop, PGSIZE] at *; omega) hrest (by omega) (by omega)
        refine ⟨fun u hu => ?_, hiff.trans ?_⟩
        · rcases mem_cons.mp hu with rfl | hu
          · exact Use.safe_uva2ka hlook
          · exact hsafe u hu
        · rw [PGSIZE] at *
          omega

/-- The addresses without a page table: between the end of physical memory and the devices. -/
def Hole (va : ℕ) : Prop := KERNBASE + PHYSTOP ≤ va ∧ va < DEVSPACE

instance : DecidablePred Hole := fun _ => inferInstanceAs (Decidable (_ ∧ _))

/-- **Bytes at an address of the kernel** are refused, or there is no entry. -/
theorem copyout_wrapped (h : Kernel pd) (null : Pte) (hp : p ≠ []) (hva : KERNBASE ≤ va)
    (hlt : va < 2 ^ 32) :
    (Hole va → ∃ u ∈ (copyout pd null va p).2, pd.look u.va = none) ∧
      (¬Hole va → (∀ u ∈ (copyout pd null va p).2, u.Safe pd) ∧
        (copyout pd null va p).1 = false) := by
  have hbase : KERNBASE ≤ PGROUNDDOWN va := by
    rw [PGROUNDDOWN, PGSIZE]
    rw [KERNBASE] at *
    omega
  have hlt' : PGROUNDDOWN va < 2 ^ 32 := by
    rw [PGROUNDDOWN, PGSIZE]
    omega
  have hhole : pd.look (PGROUNDDOWN va) = none ↔ Hole va := by
    rw [h.none_iff _ hbase hlt', Hole, PGROUNDDOWN, PGSIZE, KERNBASE, PHYSTOP, DEVSPACE]
    omega
  refine ⟨fun hh => ?_, fun hh => ?_⟩
  · cases hu : uva2ka pd null (PGROUNDDOWN va) with
    | none =>
      rw [copyout_of_none hp hu]
      exact ⟨_, mem_singleton_self _, hhole.mpr hh⟩
    | some pa0 =>
      rw [copyout_of_some hp hu rfl]
      exact ⟨_, mem_cons_self, hhole.mpr hh⟩
  · have hlook := mt hhole.mp hh
    obtain ⟨pte, hpte⟩ := Option.ne_none_iff_exists'.mp hlook
    rw [copyout_of_none hp (uva2ka_eq_none hpte (h.user _ hbase hlt' pte hpte))]
    refine ⟨fun u hu => ?_, rfl⟩
    rw [mem_singleton.mp hu]
    exact Use.safe_uva2ka hlook

/-! ### The loop over the arguments -/

/-- A string at this address is on the stack. -/
def OnStack (sz sp : ℕ) : Prop := sz - PGSIZE ≤ sp ∧ sp < sz

instance (sz sp : ℕ) : Decidable (OnStack sz sp) := inferInstanceAs (Decidable (_ ∧ _))

/-- **None of the strings goes to where there is no page table**, as long as the ones before
it were on the stack. -/
def Spares (sz : ℕ) : (sp : ℕ) → List ℕ → Prop
  | _, [] => True
  | sp, len :: lens =>
    (OnStack sz (pushSp sp len) → Spares sz (pushSp sp len) lens) ∧
      (¬OnStack sz (pushSp sp len) → ¬Hole (pushSp sp len))

instance decidableSpares (sz : ℕ) : (sp : ℕ) → (lens : List ℕ) → Decidable (Spares sz sp lens)
  | _, [] => isTrue trivial
  | sp, len :: lens =>
    have := decidableSpares sz (pushSp sp len) lens
    inferInstanceAs (Decidable ((_ → _) ∧ (_ → _)))

/-- Where a string goes: down the stack, or round to the kernel. -/
theorem pushSp_cases {len : ℕ} (hsp : sp ≤ sz) (hsz : sz < KERNBASE) (hlen : len < KERNBASE) :
    pushSp sp len + (len + 1) ≤ sp ∧ sp < pushSp sp len + (len + 1) + 4 ∨
      KERNBASE ≤ pushSp sp len ∧ pushSp sp len < 2 ^ 32 := by
  rw [pushSp, uint]
  rw [KERNBASE] at *
  omega

/-- One string: it is on the stack, or the loop ends, or there is no entry. -/
theorem copyout_pushSp (h : Loaded pd sz) (null : Pte) {len : ℕ} (hlow : sz - PGSIZE ≤ sp)
    (hsp : sp ≤ sz) (hlen : len < KERNBASE) (hp : p.length = len + 1) :
    (OnStack sz (pushSp sp len) → (∀ u ∈ (copyout pd null (pushSp sp len) p).2, u.Safe pd) ∧
        (copyout pd null (pushSp sp len) p).1 = true) ∧
      (¬OnStack sz (pushSp sp len) → Hole (pushSp sp len) →
        ∃ u ∈ (copyout pd null (pushSp sp len) p).2, pd.look u.va = none) ∧
      (¬OnStack sz (pushSp sp len) → ¬Hole (pushSp sp len) →
        (∀ u ∈ (copyout pd null (pushSp sp len) p).2, u.Safe pd) ∧
        (copyout pd null (pushSp sp len) p).1 = false) := by
  have hlt := h.lt
  have hne : p ≠ [] := fun e => by
    rw [e] at hp
    cases hp
  rcases pushSp_cases hsp hlt hlen with ⟨hle, hgt⟩ | ⟨hbase, htop⟩
  · obtain ⟨hsafe, hiff⟩ := copyout_stack h null p.length (pushSp sp len) p le_rfl hne
      (by rw [PGSIZE] at *; omega) (by omega)
    have hon : OnStack sz (pushSp sp len) ↔ sz - PGSIZE ≤ pushSp sp len :=
      and_iff_left (by omega)
    refine ⟨fun ho => ⟨hsafe, hiff.mpr (hon.mp ho)⟩, fun _ hh => ?_, fun ho _ => ⟨hsafe, ?_⟩⟩
    · have := hh.1
      omega
    · exact Bool.eq_false_iff.mpr (mt hiff.mp (mt hon.mpr ho))
  · obtain ⟨hhole, hno⟩ := copyout_wrapped h.kernel null hne hbase htop
    refine ⟨fun ho => ?_, fun _ => hhole, fun _ => hno⟩
    have := ho.2
    omega

theorem pushArgs_cons {argc : ℕ} {s : List UInt8} (h : argc < MAXARG) :
    pushArgs pd null argc sp (s :: argv) =
      if (copyout pd null (pushSp sp s.length) (s ++ [0])).1 then
        ⟨(pushArgs pd null (argc + 1) (pushSp sp s.length) argv).sp,
          pushSp sp s.length :: (pushArgs pd null (argc + 1) (pushSp sp s.length) argv).ustack,
          (copyout pd null (pushSp sp s.length) (s ++ [0])).2 ++
            (pushArgs pd null (argc + 1) (pushSp sp s.length) argv).uses⟩
      else ⟨none, [], (copyout pd null (pushSp sp s.length) (s ++ [0])).2⟩ := by
  rw [pushArgs, if_neg (by omega)]

theorem mem_uses_pushArgs {argc : ℕ} {s : List UInt8} {u : Use} (h : argc < MAXARG)
    (hu : u ∈ (copyout pd null (pushSp sp s.length) (s ++ [0])).2) :
    u ∈ (pushArgs pd null argc sp (s :: argv)).uses := by
  rw [pushArgs_cons h]
  split
  · exact mem_append_left _ hu
  · exact hu

/-- **The loop**: the strings that spare the addresses without a page table are exactly those
that are pushed safely. -/
theorem pushArgs_safe_iff (h : Loaded pd sz) (null : Pte) :
    ∀ {argc sp : ℕ}, argc + argv.length ≤ MAXARG → (∀ s ∈ argv, s.length < KERNBASE) →
      sz - PGSIZE ≤ sp → sp ≤ sz →
      ((∀ u ∈ (pushArgs pd null argc sp argv).uses, u.Safe pd) ↔
        Spares sz sp (argv.map List.length)) := by
  induction argv with
  | nil =>
    intro argc sp _ _ _ _
    exact iff_of_true (fun u hu => nomatch hu) trivial
  | cons s argv ih =>
    intro argc sp hargc hlen hlow hsp
    rw [length_cons] at hargc
    obtain ⟨hon, hhole, hno⟩ := copyout_pushSp h null hlow hsp (hlen s mem_cons_self)
      (length_append : (s ++ [0]).length = s.length + 1)
    rw [map_cons, Spares]
    by_cases ho : OnStack sz (pushSp sp s.length)
    · obtain ⟨hsafe, htrue⟩ := hon ho
      rw [pushArgs_cons (by omega), if_pos htrue, imp_iff_right ho, and_iff_left (absurd ho)]
      refine Iff.trans ⟨fun hu u hu' => hu u (mem_append_right _ hu'), fun hu u hu' => ?_⟩
        (ih (by omega) (fun s hs => hlen s (mem_cons_of_mem _ hs)) ho.1 ho.2.le)
      exact (mem_append.mp hu').elim (hsafe u) (hu u)
    · rw [imp_iff_right ho, and_iff_right (absurd · ho)]
      by_cases hh : Hole (pushSp sp s.length)
      · obtain ⟨u, hu, hnone⟩ := hhole ho hh
        refine iff_of_false (fun hsafe => ?_) (not_not.mpr hh)
        obtain ⟨pte, hpte, -⟩ := hsafe u (mem_uses_pushArgs (by omega) hu)
        rw [hnone] at hpte
        cases hpte
      · obtain ⟨hsafe, hfalse⟩ := hno ho hh
        rw [pushArgs_cons (by omega), hfalse]
        exact iff_of_true hsafe hh

/-- A page that cannot be written ends the loop. -/
theorem pushArgs_refused : ∀ {argc sp : ℕ},
    ∀ u ∈ (pushArgs pd null argc sp argv).uses, u.page = none →
      (pushArgs pd null argc sp argv).sp = none := by
  induction argv with
  | nil => exact fun u hu => nomatch hu
  | cons s argv ih =>
    intro argc sp u hu hnone
    by_cases hargc : argc < MAXARG
    · rw [pushArgs_cons hargc] at hu ⊢
      by_cases hc : (copyout pd null (pushSp sp s.length) (s ++ [0])).1 = true
      · rw [if_pos hc] at hu ⊢
        rcases mem_append.mp hu with hu | hu
        · rw [copyout_refused _ _ _ le_rfl u hu hnone] at hc
          cases hc
        · exact ih u hu hnone
      · rw [if_neg hc]
    · rw [pushArgs, if_pos (by omega)]

/-- After the loop the stack pointer is on the stack, and there is a pointer for every
string. -/
theorem pushArgs_some (h : Loaded pd sz) (null : Pte) {sp' : ℕ} :
    ∀ {argc sp : ℕ}, argc + argv.length ≤ MAXARG → (∀ s ∈ argv, s.length < KERNBASE) →
      sz - PGSIZE ≤ sp → sp ≤ sz → Spares sz sp (argv.map List.length) →
      (pushArgs pd null argc sp argv).sp = some sp' →
      sz - PGSIZE ≤ sp' ∧ sp' ≤ sz ∧
        (pushArgs pd null argc sp argv).ustack.length = argv.length := by
  induction argv with
  | nil =>
    intro argc sp _ _ hlow hsp _ hsome
    rw [← Option.some.inj hsome]
    exact ⟨hlow, hsp, rfl⟩
  | cons s argv ih =>
    intro argc sp hargc hlen hlow hsp hspares hsome
    rw [length_cons] at hargc
    obtain ⟨hon, -, hno⟩ := copyout_pushSp h null hlow hsp (hlen s mem_cons_self)
      (length_append : (s ++ [0]).length = s.length + 1)
    rw [map_cons, Spares] at hspares
    rw [pushArgs_cons (by omega)] at hsome ⊢
    by_cases ho : OnStack sz (pushSp sp s.length)
    · rw [if_pos (hon ho).2] at hsome ⊢
      obtain ⟨h1, h2, h3⟩ := ih (by omega) (fun s hs => hlen s (mem_cons_of_mem _ hs))
        ho.1 ho.2.le (hspares.1 ho) hsome
      exact ⟨h1, h2, congrArg (· + 1) h3⟩
    · rw [(hno ho (hspares.2 ho)).2] at hsome
      cases hsome

/-! ### The whole stack -/

theorem length_bytesOf {ws : List ℕ} : (bytesOf ws).length = 4 * ws.length := by
  induction ws with
  | nil => rfl
  | cons w ws ih =>
    rw [bytesOf, flatMap_cons, length_append, ← bytesOf, ih, length_cons]
    change 4 + 4 * ws.length = 4 * (ws.length + 1)
    omega

/-- A call that is not safe makes the whole not safe. -/
theorem pushStack_uses_of_mem {u : Use} (hu : u ∈ (pushArgs pd null 0 sz argv).uses) :
    u ∈ (pushStack pd null sz argv).uses := by
  rw [pushStack]
  split
  · exact hu
  · exact mem_append_left _ hu

/-- **`exec` never uses an entry that is missing, if and only if no string goes to the addresses
without a page table.** -/
theorem pushStack_safe_iff (h : Loaded pd sz) (null : Pte) (hargc : argv.length < MAXARG)
    (hlen : ∀ s ∈ argv, s.length < KERNBASE) :
    (pushStack pd null sz argv).Safe pd ↔ Spares sz sz (argv.map List.length) := by
  have hargs : 0 + argv.length ≤ MAXARG := by omega
  have hloop := pushArgs_safe_iff h null hargs hlen (Nat.sub_le sz PGSIZE) le_rfl
  refine ⟨fun hs => hloop.mp fun u hu => hs.use u (pushStack_uses_of_mem hu), fun hspares => ?_⟩
  have hsafe := hloop.mpr hspares
  cases hsp : (pushArgs pd null 0 sz argv).sp with
  | none =>
    have heq : pushStack pd null sz argv = pushArgs pd null 0 sz argv := by
      simp only [pushStack, hsp]
    rw [heq]
    exact ⟨hsafe, pushArgs_refused⟩
  | some sp =>
    obtain ⟨hlow, hle, hcount⟩ := pushArgs_some h null hargs hlen (Nat.sub_le sz PGSIZE) le_rfl
      hspares hsp
    -- The array of pointers goes below the strings, where there is still room for it in the
    -- two last pages.
    obtain ⟨ws, hws⟩ : ∃ ws : List ℕ, ws = [0xffffffff, argv.length,
        uint (sp - (argv.length + 1) * 4)] ++ (pushArgs pd null 0 sz argv).ustack ++ [0] := ⟨_, rfl⟩
    have hbytes : (bytesOf ws).length = (3 + argv.length + 1) * 4 := by
      rw [length_bytesOf, hws, length_append, length_append, hcount]
      simp only [length_cons, length_nil]
      omega
    have hge := h.le
    have hlt := h.lt
    have hsp' : uint ((sp : ℤ) - (3 + argv.length + 1) * 4) = sp - (3 + argv.length + 1) * 4 := by
      rw [uint]
      rw [MAXARG] at hargc
      rw [KERNBASE] at hlt
      rw [PGSIZE] at *
      omega
    have hstack := copyout_stack h null _ (sp - (3 + argv.length + 1) * 4) (bytesOf ws) le_rfl
      (fun e => by rw [e] at hbytes; simp at hbytes)
      (by rw [hbytes]; rw [MAXARG] at hargc; rw [PGSIZE] at *; omega)
      (by rw [hbytes]; rw [MAXARG] at hargc; rw [PGSIZE] at *; omega)
    have heq : pushStack pd null sz argv = ⟨if (copyout pd null (sp - (3 + argv.length + 1) * 4)
        (bytesOf ws)).1 then some (sp - (3 + argv.length + 1) * 4) else none, ws,
        (pushArgs pd null 0 sz argv).uses ++
          (copyout pd null (sp - (3 + argv.length + 1) * 4) (bytesOf ws)).2⟩ := by
      simp only [pushStack, hsp, hsp', hws]
    rw [heq]
    refine ⟨fun u hu => (mem_append.mp hu).elim (hsafe u) (hstack.1 u), fun u hu hnone => ?_⟩
    rcases mem_append.mp hu with hu | hu
    · rw [pushArgs_refused u hu hnone] at hsp
      cases hsp
    · rw [copyout_refused _ _ _ le_rfl u hu hnone]
      rfl

/-! ### Programs that load -/

section

variable {k : Layout} {exe : Executable} {m m' : Mem}

/-- A program loads or it does not, and no page is lost. -/
theorem exec_load (exe : Executable) (hhas : ∀ x ∈ m.free, k.Has x) :
    (∃ m', (load k exe).exec (handle k) m = .ok (none, m') ∧ m'.free = m.free) ∨
      ∃ pd sz m', (load k exe).exec (handle k) m = .ok (some (pd, sz), m') ∧ Loaded pd sz ∧
        m'.all pd.pages = m.free := by
  have hwp : (vm k fun _ => True).wp (load k exe) (fun r m' => r = none ∧ m'.free = m.free ∨
      ∃ pd sz, r = some (pd, sz) ∧ Loaded pd sz ∧ m'.all pd.pages = m.free) m :=
    wp_load hhas (fun pd sz m' hl hall _ => .inr ⟨pd, sz, rfl, hl, hall⟩)
      fun m' hm' _ => .inl ⟨rfl, hm'⟩
  rcases Logic.ok_or_panic (fun _ _ => trivial) handle_ne_disabled hwp with
    ⟨⟨r, m'⟩, hx, ⟨rfl, hm'⟩ | ⟨pd, sz, rfl, hl, hall⟩⟩ | ⟨msg, -, hbad⟩
  · exact .inl ⟨m', hx, hm'⟩
  · exact .inr ⟨pd, sz, m', hx, hl, hall⟩
  · exact absurd trivial hbad

theorem loaded_of_load (hhas : ∀ x ∈ m.free, k.Has x)
    (hload : (load k exe).exec (handle k) m = .ok (some (pd, sz), m')) : Loaded pd sz := by
  rcases exec_load exe hhas with ⟨m₁, hx, -⟩ | ⟨pd₁, sz₁, m₁, hx, hl, -⟩
  · cases hload.symm.trans hx
  · cases hload.symm.trans hx
    exact hl

/-- With enough memory a program without segments loads. -/
theorem load_of_free (hhas : ∀ x ∈ m.free, k.Has x) (hheader : exe.header = true)
    (hphdrs : exe.phdrs = []) (hfails : m.fails = []) (hfree : NPDENTRIES + 5 ≤ m.free.card) :
    ∃ pd m', (load k exe).exec (handle k) m = .ok (some (pd, 2 * PGSIZE), m') := by
  have hwp : (vm k fun _ => True).wp (load k exe)
      (fun r _ => ∃ pd, r = some (pd, 2 * PGSIZE)) m := by
    refine wp_load hhas (fun pd sz m' _ _ hsz => ⟨pd, by rw [hsz hphdrs]⟩) fun m' _ hfew => ?_
    exact absurd (hfew hheader hphdrs hfails) (by omega)
  have hout := (Logic.sound hwp (Prog.meets_of_forall (fun _ _ => trivial) _ _)).1
  rw [show (vm k fun _ => True).step = handle k from rfl] at hout
  cases hexec : (load k exe).exec (handle k) m with
  | ok x =>
    rw [hexec] at hout
    obtain ⟨pd, hpd⟩ := hout
    exact ⟨pd, x.2, congrArg _ (Prod.ext hpd rfl)⟩
  | panic msg =>
    rw [hexec] at hout
    exact absurd trivial hout
  | disabled => exact absurd hexec (exec_ne_disabled _ _)

/-- **For every program that loads and every list of arguments, `exec` never uses an entry that
is missing, if and only if no string goes to the addresses without a page table.** -/
theorem exec_args_safe_iff (hhas : ∀ x ∈ m.free, k.Has x)
    (hload : (load k exe).exec (handle k) m = .ok (some (pd, sz), m')) (null : Pte)
    (argv : List (List UInt8)) (hargc : argv.length < MAXARG)
    (hlen : ∀ s ∈ argv, s.length < KERNBASE) :
    (pushStack pd null sz argv).Safe pd ↔ Spares sz sz (argv.map List.length) :=
  pushStack_safe_iff (loaded_of_load hhas hload) null hargc hlen

end

/-- Two thousand free pages. -/
def freePages : Mem := ⟨List.range' 300 2000, []⟩

theorem freePages_has : ∀ x ∈ freePages.free, smallKernel.Has x := by
  intro (x : ℕ) hx
  have hx' : x ∈ List.range' 300 2000 := hx
  rw [mem_range'_1] at hx'
  have hlow : KERNLINK + 2 * PGSIZE ≤ KERNBASE + x * PGSIZE := by
    rw [KERNLINK, EXTMEM, PGSIZE]
    omega
  have htop : x * PGSIZE < PHYSTOP := by
    rw [PGSIZE, PHYSTOP]
    omega
  exact ⟨hlow, htop⟩

theorem freePages_load : ∃ pd m',
    (load smallKernel ⟨true, []⟩).exec (handle smallKernel) freePages =
      .ok (some (pd, 2 * PGSIZE), m') := by
  refine load_of_free freePages_has rfl rfl rfl ?_
  have hcard : freePages.free.card = 2000 := length_range'
  rw [hcard]
  decide

/-- Three short arguments are safe. -/
theorem exec_args_safe_short : ∃ pd m',
    (load smallKernel ⟨true, []⟩).exec (handle smallKernel) freePages =
      .ok (some (pd, 2 * PGSIZE), m') ∧
    (pushStack pd .zero (2 * PGSIZE) [[99, 97, 116], [102], []]).Safe pd := by
  obtain ⟨pd, m', hload⟩ := freePages_load
  refine ⟨pd, m', hload, (exec_args_safe_iff freePages_has hload .zero _ (by decide) ?_).mpr ?_⟩
  · intro s hs
    have hle : ∀ s ∈ [[99, 97, 116], [102], ([] : List UInt8)], s.length < 4 := by decide
    exact (hle s hs).trans (by decide)
  · decide

/-- A string of a given length. -/
@[irreducible] def stringOf (len : ℕ) : List UInt8 := List.replicate len 97

theorem length_stringOf (len : ℕ) : (stringOf len).length = len := by
  rw [stringOf, length_replicate]

/-- An argument of forty million bytes is not, whatever there is at the address zero. -/
theorem exec_args_unsafe_long : ∃ pd m',
    (load smallKernel ⟨true, []⟩).exec (handle smallKernel) freePages =
      .ok (some (pd, 2 * PGSIZE), m') ∧
    (stringOf 40000000).length < KERNBASE ∧
    ∀ null, ∃ u ∈ (pushStack pd null (2 * PGSIZE) [stringOf 40000000]).uses,
      pd.look u.va = none := by
  obtain ⟨pd, m', hload⟩ := freePages_load
  refine ⟨pd, m', hload, by rw [length_stringOf]; decide, fun null => ?_⟩
  have hl := loaded_of_load freePages_has hload
  have hsp : pushSp (2 * PGSIZE) (stringOf 40000000).length = 4254975484 := by
    rw [length_stringOf]
    decide
  have hcopy := (copyout_wrapped hl.kernel null (append_ne_nil_of_right_ne_nil
    (stringOf 40000000) (cons_ne_nil 0 [])) (show KERNBASE ≤ 4254975484 by decide)
    (by decide)).1 (by decide)
  rw [← hsp] at hcopy
  obtain ⟨u, hu, hnone⟩ := hcopy
  exact ⟨u, pushStack_uses_of_mem (mem_uses_pushArgs (by decide) hu), hnone⟩

/-! ### No page is lost -/

section

variable {m : Mem}

/-- **What is written goes to user memory**: to a page of the page directory that is not free and is
no part of the page tables. -/
def Use.Own (pd : PageDir) (m : Mem) (u : Use) : Prop :=
  ∀ page ∈ u.page, page ∈ pd.pages ∧ page ∉ m.free ∧ page ≠ pd.page ∧ page ∉ pd.tables

theorem PageDir.look_mod (pd : PageDir) (va : ℕ) : pd.look (va % 2 ^ 32) = pd.look va := by
  have hd : PDX (va % 2 ^ 32) = PDX va := Fin.ext (by simp only [PDX, Fin.ofNat, NPDENTRIES]; omega)
  have ht : PTX (va % 2 ^ 32) = PTX va := Fin.ext (by simp only [PTX, Fin.ofNat, NPTENTRIES]; omega)
  rw [PageDir.look, hd, ht, PageDir.look]

theorem Use.Safe.own {u : Use} (h : u.Safe pd) (hker : Kernel pd) (hd : (m.all pd.pages).Nodup) :
    u.Own pd m := by
  obtain ⟨pte, hpte, hpage⟩ := h
  intro page hp
  obtain ⟨hpp, hpu, rfl⟩ := hpage page hp
  have hlook : pd.look (u.va % 2 ^ 32) = some pte := (pd.look_mod u.va).trans hpte
  have hva : u.va % 2 ^ 32 < KERNBASE := by
    by_contra hle
    rw [hker.user _ (not_lt.mp hle) (Nat.mod_lt _ (by decide)) pte hlook] at hpu
    cases hpu
  obtain ⟨-, hdir, -⟩ := Multiset.nodup_add.mp hd
  exact ⟨PageDir.addr_mem_pages hlook hpp hva,
    PageDir.notMem_free hd (PageDir.mem_entry.mpr ⟨hlook, hpp⟩) hva,
    PageDir.addr_notMem_tables hdir hlook hpp hva⟩

/-- **`exec` loses no page and does not stop the system**, whatever the program is, and whichever
calls of `kalloc` fail, if the arguments go to where there are page tables. If it fails, the free
pages are those that were free before; otherwise the new address space is made of the pages that are
not free any more. All that `copyout` writes goes to pages of the new process. -/
theorem exec_pages (k : Layout) (m : Mem) (exe : Executable) (null : Pte) (argv : List (List UInt8))
    (hhas : ∀ x ∈ m.free, k.Has x) (hd : m.free.Nodup) (hargc : argv.length < MAXARG)
    (hlen : ∀ s ∈ argv, s.length < KERNBASE)
    (hspares : ∀ pd sz m', (load k exe).exec (handle k) m = .ok (some (pd, sz), m') →
      Spares sz sz (argv.map List.length)) :
    ∃ r uses m', (exec k exe null argv).exec (handle k) m = .ok ((r, uses), m') ∧
      (r = none ∧ m'.free = m.free ∨
        ∃ pd sz sp, r = some (pd, sz, sp) ∧ Loaded pd sz ∧ m'.all pd.pages = m.free) ∧
      (uses = [] ∨ ∃ pd sz m₁, (load k exe).exec (handle k) m = .ok (some (pd, sz), m₁) ∧
        ∀ u ∈ uses, u.Safe pd ∧ u.Own pd m₁) := by
  unfold exec
  rcases exec_load exe hhas with ⟨m₁, hx, hm₁⟩ | ⟨pd, sz, m₁, hx, hl, hall⟩
  · exact ⟨none, [], m₁, Prog.exec_bind_ok hx _, .inl ⟨rfl, hm₁⟩, .inl rfl⟩
  have hsafe := (pushStack_safe_iff hl null hargc hlen).mpr (hspares pd sz m₁ hx)
  have huses : ∀ u ∈ (pushStack pd null sz argv).uses, u.Safe pd ∧ u.Own pd m₁ := fun u hu =>
    ⟨hsafe.use u hu, (hsafe.use u hu).own hl.kernel (hall ▸ hd)⟩
  rw [Prog.exec_bind_ok hx]
  dsimp only
  cases hsp : (pushStack pd null sz argv).sp with
  | none =>
    have hwp : (vm k fun _ => True).wp (freevm pd) (fun _ m' => m'.free = m.free) m₁ :=
      wp_freevm (hall ▸ hhas) fun m' hm' _ => hm'.trans hall
    rcases Logic.ok_or_panic (fun _ _ => trivial) handle_ne_disabled hwp with
      ⟨⟨⟨⟩, m₂⟩, hfree, hm₂⟩ | ⟨msg, -, hbad⟩
    · exact ⟨none, _, m₂, Prog.exec_bind_ok hfree _, .inl ⟨rfl, hm₂⟩, .inr ⟨pd, sz, m₁, hx, huses⟩⟩
    · exact absurd trivial hbad
  | some sp =>
    exact ⟨some (pd, sz, sp), _, m₁, rfl, .inr ⟨pd, sz, sp, rfl, hl, hall⟩,
      .inr ⟨pd, sz, m₁, hx, huses⟩⟩

end

/-- One short argument fits on the stack. -/
theorem pushStack_short (h : Loaded pd (2 * PGSIZE)) :
    ∃ sp, (pushStack pd .zero (2 * PGSIZE) [[104, 105]]).sp = some sp := by
  have hargs : (pushArgs pd .zero 0 (2 * PGSIZE) [[104, 105]]).sp = some 8188 := by
    have htrue := ((copyout_pushSp h .zero (p := [104, 105, 0]) (by decide) le_rfl
      (by decide : 2 < KERNBASE) rfl).1 (by decide)).2
    rw [pushArgs_cons (by decide)]
    exact congrArg Pushed.sp (if_pos htrue)
  have hlen : (bytesOf ([0xffffffff, 1, 8180] ++
      (pushArgs pd .zero 0 (2 * PGSIZE) [[104, 105]]).ustack ++ [0])).length = 20 := by
    rw [length_bytesOf, length_append, length_append, (pushArgs_some h .zero (by decide) (by decide)
      (by decide) le_rfl (by decide) hargs).2.2]
    rfl
  have htrue := (copyout_stack h .zero 20 8168 _ hlen.le (fun e => by rw [e] at hlen; cases hlen)
    (by rw [hlen]; decide) (by rw [hlen]; decide)).2.mpr (by decide)
  refine ⟨8168, ?_⟩
  rw [pushStack, hargs]
  exact if_pos htrue

/-- A program without segments and one argument, with two thousand free pages: it is executed. -/
theorem exec_pages_short : ∃ pd sp uses m', (exec smallKernel ⟨true, []⟩ .zero [[104, 105]]).exec
      (handle smallKernel) freePages = .ok ((some (pd, 2 * PGSIZE, sp), uses), m') ∧
    Loaded pd (2 * PGSIZE) ∧ m'.all pd.pages = freePages.free ∧
    ∀ u ∈ uses, u.Safe pd ∧ u.Own pd m' := by
  obtain ⟨pd, m₁, hload⟩ := freePages_load
  obtain ⟨sp, hsp⟩ := pushStack_short (loaded_of_load freePages_has hload)
  have hexec : (exec smallKernel ⟨true, []⟩ .zero [[104, 105]]).exec (handle smallKernel) freePages =
      .ok ((some (pd, 2 * PGSIZE, sp), (pushStack pd .zero (2 * PGSIZE) [[104, 105]]).uses), m₁) := by
    rw [exec, Prog.exec_bind_ok hload]
    simp only [hsp]
    rfl
  have hd : freePages.free.Nodup := Multiset.coe_nodup.mpr nodup_range'
  obtain ⟨r, uses, m', hx, hr, huses⟩ := exec_pages smallKernel freePages ⟨true, []⟩ .zero
    [[104, 105]] freePages_has hd (by decide) (by decide) fun pd' sz' m' h => by
      cases hload.symm.trans h
      decide
  cases hexec.symm.trans hx
  obtain ⟨hc, -⟩ | ⟨pd', sz', sp', heq, hl, hall⟩ := hr
  · cases hc
  cases heq
  refine ⟨pd, sp, _, _, hexec, hl, hall, fun u hu => ?_⟩
  rcases huses with hnil | ⟨pd', sz', m', h, hown⟩
  · rw [hnil] at hu
    cases hu
  · cases hload.symm.trans h
    exact hown u hu

end Xv6.Vm
