import Xv6.Vm.Rule

/-!
# What is in the pages

`kfree` fills a page with ones, and whoever calls `kalloc` in `vm.c` to build or to enlarge an
address space clears the page that it gets at once: `walkpgdir` and `allocuvm` do. So the
operations of `Xv6.Vm.handle` also say what becomes of the bytes (`Xv6.Vm.handleBytes`). The
bytes of page tables are not among them, as these are in the page directory.

A program that does not free pages only changes the pages that were free, and a
program that does not allocate any only those that are free afterwards (`Xv6.Vm.exec_keeps`,
`Xv6.Vm.exec_takes`).
-/

namespace Xv6.Vm

open Lib Function

/-- The bytes of the physical pages. -/
abbrev Bytes := Page → ℕ → UInt8

variable {k : Layout} {bad : String → Prop} {m : Mem} {α : Type} {b : Bytes} {p : VmM α}

/-- What becomes of the bytes. -/
def fill : (o : Op) → o.Res → Bytes → Bytes
  | .kalloc, some v, b => update b v fun _ => 0
  | .kfree v, _, b => update b v fun _ => 1
  | _, _, b => b

/-- What the operations do, to the bytes as well. -/
def handleBytes (k : Layout) (o : Op) (s : Mem × Bytes) : Effect (o.Res × Mem × Bytes) :=
  (handle k o s.1).map fun x => (x.1, x.2, fill o x.1 s.2)

/-- The logic of the memory with its bytes. -/
def vmb (k : Layout) (bad : String → Prop) : Logic Op.Res (Mem × Bytes) :=
  ⟨handleBytes k, fun _ _ => True, fun _ _ => True, bad, True⟩

theorem handleBytes_ne_disabled (o : Op) (s : Mem × Bytes) : handleBytes k o s ≠ .disabled := by
  intro h
  rw [handleBytes] at h
  cases ho : handle k o s.1 with
  | disabled => exact handle_ne_disabled o s.1 ho
  | ok x =>
    rw [ho] at h
    cases h
  | panic msg =>
    rw [ho] at h
    cases h

/-! ### Programs -/

/-- The bytes do not change what a program does. -/
theorem exec_handle (p : VmM α) : ∀ (m : Mem) (b : Bytes), p.exec (handle k) m =
    (p.exec (handleBytes k) (m, b)).map fun x => (x.1, x.2.1) := by
  induction p with
  | ret a => exact fun _ _ => rfl
  | op o c ih =>
    intro m b
    rw [Prog.exec, Prog.exec, handleBytes]
    cases ho : handle k o m with
    | ok x => exact ih x.1 x.2 _
    | panic msg => rfl
    | disabled => rfl

/-- A rule about the bytes is one about the rest. -/
theorem wp_of_bytes {Q : α → Mem → Prop} (b : Bytes)
    (h : (vmb k bad).wp p (fun a s => Q a s.1) (m, b)) : (vm k bad).wp p Q m := by
  have hout := Logic.outcome (fun _ _ => trivial) h
  refine (Logic.wp_iff_outcome (fun _ _ => trivial) fun _ _ => trivial).mpr ?_
  change (vm k bad).Outcome _ (p.exec (handle k) m)
  rw [exec_handle p m b]
  change (vmb k bad).Outcome _ (p.exec (handleBytes k) (m, b)) at hout
  cases hx : p.exec (handleBytes k) (m, b) with
  | ok x =>
    rwa [hx] at hout
  | panic msg =>
    rwa [hx] at hout
  | disabled => trivial

/-- The operation does not free a page. -/
def Op.Keeps : Op → Prop
  | .kfree _ => False
  | _ => True

/-- The operation does not allocate a page. -/
def Op.Takes : Op → Prop
  | .kalloc => False
  | _ => True

theorem kalloc_cases {s : Mem × Bytes} {r : Option Page} {t : Mem × Bytes}
    (h : handleBytes k .kalloc s = .ok (r, t)) :
    r = none ∧ t.1.free = s.1.free ∧ t.2 = s.2 ∨
      ∃ v, r = some v ∧ s.1.free = {v} + t.1.free ∧ t.2 = update s.2 v fun _ => 0 := by
  obtain ⟨⟨free, fails⟩, b⟩ := s
  match fails, free with
  | true :: fails, free =>
    obtain ⟨rfl, rfl⟩ := Prod.mk.inj (Effect.ok.inj h)
    exact .inl ⟨rfl, rfl, rfl⟩
  | false :: fails, [] =>
    obtain ⟨rfl, rfl⟩ := Prod.mk.inj (Effect.ok.inj h)
    exact .inl ⟨rfl, rfl, rfl⟩
  | [], [] =>
    obtain ⟨rfl, rfl⟩ := Prod.mk.inj (Effect.ok.inj h)
    exact .inl ⟨rfl, rfl, rfl⟩
  | false :: fails, v :: free =>
    obtain ⟨rfl, rfl⟩ := Prod.mk.inj (Effect.ok.inj h)
    exact .inr ⟨v, rfl, rfl, rfl⟩
  | [], v :: free =>
    obtain ⟨rfl, rfl⟩ := Prod.mk.inj (Effect.ok.inj h)
    exact .inr ⟨v, rfl, rfl, rfl⟩

theorem kfree_cases {v : Page} {s : Mem × Bytes} {r : Unit} {t : Mem × Bytes}
    (h : handleBytes k (.kfree v) s = .ok (r, t)) :
    t.1.free = {v} + s.1.free ∧ t.2 = update s.2 v fun _ => 1 := by
  rw [handleBytes, handle] at h
  split at h
  · obtain ⟨-, rfl⟩ := Prod.mk.inj (Effect.ok.inj h)
    exact ⟨rfl, rfl⟩
  · cases h

/-- A program that does not free pages only changes pages that were free. -/
theorem exec_keeps (hp : p.Only Op.Keeps) : ∀ {s : Mem × Bytes} {x},
    p.exec (handleBytes k) s = .ok x → ∀ v ∉ s.1.free, x.2.2 v = s.2 v := by
  induction p with
  | ret a =>
    intro s x hx v _
    obtain rfl := Effect.ok.inj hx
    rfl
  | op o c ih =>
    intro s x hx v hv
    rw [Prog.exec] at hx
    cases ho : handleBytes k o s with
    | ok y =>
      rw [ho] at hx
      have hstep : v ∉ y.2.1.free ∧ y.2.2 v = s.2 v := by
        cases o with
        | panic msg => cases ho
        | kfree w => exact hp.1.elim
        | kalloc =>
          rcases kalloc_cases ho with ⟨-, hf, hb⟩ | ⟨w, -, hf, hb⟩
          · rw [hf, hb]
            exact ⟨hv, rfl⟩
          · rw [hf, Multiset.mem_add, Multiset.mem_singleton, not_or] at hv
            rw [hb, update_of_ne hv.1]
            exact ⟨hv.2, rfl⟩
      exact (ih y.1 (hp.2 y.1) hx v hstep.1).trans hstep.2
    | panic msg =>
      rw [ho] at hx
      cases hx
    | disabled =>
      rw [ho] at hx
      cases hx

/-- A program that does not allocate pages only changes pages that are free afterwards. -/
theorem exec_takes (hp : p.Only Op.Takes) : ∀ {s : Mem × Bytes} {x},
    p.exec (handleBytes k) s = .ok x →
      (∀ v ∈ s.1.free, v ∈ x.2.1.free) ∧ ∀ v ∉ x.2.1.free, x.2.2 v = s.2 v := by
  induction p with
  | ret a =>
    intro s x hx
    obtain rfl := Effect.ok.inj hx
    exact ⟨fun v hv => hv, fun v _ => rfl⟩
  | op o c ih =>
    intro s x hx
    rw [Prog.exec] at hx
    cases ho : handleBytes k o s with
    | ok y =>
      rw [ho] at hx
      obtain ⟨hfree, hbytes⟩ := ih y.1 (hp.2 y.1) hx
      cases o with
      | panic msg => cases ho
      | kalloc => exact hp.1.elim
      | kfree w =>
        obtain ⟨hf, hb⟩ := kfree_cases ho
        refine ⟨fun v hv => hfree v ?_, fun v hv => ?_⟩
        · rw [hf]
          exact Multiset.mem_add.mpr (.inr hv)
        · have hvw : v ≠ w := by
            rintro rfl
            refine hv (hfree v ?_)
            rw [hf]
            exact Multiset.mem_add.mpr (.inl (Multiset.mem_singleton_self v))
          rw [hbytes v hv, hb, update_of_ne hvw]
    | panic msg =>
      rw [ho] at hx
      cases hx
    | disabled =>
      rw [ho] at hx
      cases hx

/-- **A rule about the rest is one about the bytes.** -/
theorem wp_bytes {Q : α → Mem → Prop} {Q' : α → Mem × Bytes → Prop} (h : (vm k bad).wp p Q m)
    (hQ : ∀ a m' b', p.exec (handleBytes k) (m, b) = .ok (a, m', b') → Q a m' → Q' a (m', b')) :
    (vmb k bad).wp p Q' (m, b) := by
  have hout := Logic.outcome (fun _ _ => trivial) h
  refine (Logic.wp_iff_outcome (fun _ _ => trivial) fun _ _ => trivial).mpr ?_
  change (vm k bad).Outcome _ (p.exec (handle k) m) at hout
  rw [exec_handle p m b] at hout
  change (vmb k bad).Outcome _ (p.exec (handleBytes k) (m, b))
  cases hx : p.exec (handleBytes k) (m, b) with
  | ok x =>
    rw [hx] at hout
    exact hQ x.1 x.2.1 x.2.2 hx hout
  | panic msg =>
    rwa [hx] at hout
  | disabled => trivial

/-! ### The functions -/

theorem only_panicIf {P : Op → Prop} {c : Prop} [Decidable c] {msg : String}
    (h : P (.panic msg)) : (panicIf c msg).Only P := by
  unfold panicIf
  split
  · exact ⟨h, fun r => r.elim⟩
  · trivial

theorem only_kalloc : kalloc.Only Op.Keeps := ⟨trivial, fun _ => trivial⟩

theorem only_kfree (v : Page) : (kfree v).Only Op.Takes := ⟨trivial, fun _ => trivial⟩

theorem only_walkpgdir (pd : PageDir) (va : ℕ) : (walkpgdir pd va).Only Op.Keeps := by
  unfold walkpgdir
  split
  · trivial
  · refine Prog.only_bind only_kalloc fun v => ?_
    cases v <;> trivial

theorem only_mappagesLoop (perm : Perm) : ∀ (n : ℕ) (pd : PageDir) (a : ℕ) (pa : Page),
    (mappagesLoop perm n pd a pa).Only Op.Keeps := by
  intro n
  induction n with
  | zero => exact fun _ _ _ => trivial
  | succ n ih =>
    intro pd a pa
    refine Prog.only_bind (only_walkpgdir pd a) fun r => ?_
    cases r with
    | none => trivial
    | some pd' => exact Prog.only_bind (only_panicIf trivial) fun _ => ih _ _ _

theorem only_mappages (pd : PageDir) (va size : ℕ) (pa : Page) (perm : Perm) :
    (mappages pd va size pa perm).Only Op.Keeps :=
  only_mappagesLoop ..

theorem only_deallocuvmLoop (oldsz : ℕ) : ∀ (n : ℕ) (pd : PageDir) (a : ℕ),
    (deallocuvmLoop oldsz n pd a).Only Op.Takes := by
  intro n
  induction n with
  | zero => exact fun _ _ => trivial
  | succ n ih =>
    intro pd a
    rw [deallocuvmLoop]
    split
    · split
      · exact ih _ _
      · split
        · exact Prog.only_bind (only_panicIf trivial) fun _ =>
            Prog.only_bind (only_kfree _) fun _ => ih _ _
        · exact ih _ _
    · trivial

theorem only_deallocuvm (pd : PageDir) (oldsz newsz : ℕ) :
    (deallocuvm pd oldsz newsz).Only Op.Takes := by
  unfold deallocuvm
  split
  · trivial
  · exact Prog.only_bind (only_deallocuvmLoop ..) fun _ => trivial

theorem wp_kalloc_bytes {Q : Option Page → Mem × Bytes → Prop}
    (hsome : ∀ v m', m.free = {v} + m'.free → m.Next m' → Q (some v) (m', update b v fun _ => 0))
    (hnone : ∀ m', m'.free = m.free → m.Next m' → m.Out → Q none (m', b)) :
    (vmb k bad).wp kalloc Q (m, b) := by
  refine wp_bytes (Q := fun r m' => m.Next m' ∧ (r = none → m.Out))
    (wp_kalloc (fun v m' _ hn => ⟨hn, fun hc => by cases hc⟩) fun m' _ hn hout =>
      ⟨hn, fun _ => hout⟩) fun r m' b' hx hQ => ?_
  have hx' : handleBytes k .kalloc (m, b) = .ok (r, m', b') := by
    rw [kalloc, Prog.perform, Prog.exec] at hx
    cases ho : handleBytes k .kalloc (m, b) with
    | ok y =>
      rw [ho] at hx
      exact congrArg _ (Effect.ok.inj hx)
    | panic msg =>
      rw [ho] at hx
      cases hx
    | disabled =>
      rw [ho] at hx
      cases hx
  rcases kalloc_cases hx' with ⟨rfl, hf, rfl⟩ | ⟨v, rfl, hf, rfl⟩
  · exact hnone m' hf hQ.1 (hQ.2 rfl)
  · exact hsome v m' hf hQ.1

theorem wp_deallocuvm_bytes {pd : PageDir} {oldsz newsz : ℕ}
    {Q : PageDir × ℕ → Mem × Bytes → Prop} (hold : oldsz ≤ KERNBASE)
    (hhas : ∀ x ∈ m.all pd.pages, k.Has x) (hge : oldsz ≤ newsz → Q (pd, oldsz) (m, b))
    (hlt : newsz < oldsz → ∀ pd' m' b', Unmaps pd pd' (PGROUNDUP newsz) (PGROUNDUP oldsz) →
      m'.all pd'.pages = m.all pd.pages → (∀ v ∈ m.free, v ∈ m'.free) → (∀ v ∉ m'.free,
      b' v = b v) → Q (pd', newsz) (m', b')) :
    (vmb k bad).wp (deallocuvm pd oldsz newsz) Q (m, b) := by
  by_cases h : oldsz ≤ newsz
  · rw [deallocuvm, if_pos h]
    exact hge h
  refine wp_bytes (Q := fun r m' => Unmaps pd r.1 (PGROUNDUP newsz) (PGROUNDUP oldsz) ∧
      m'.all r.1.pages = m.all pd.pages ∧ r.2 = newsz)
    (wp_deallocuvm hold hhas (fun hc => absurd hc h) fun _ pd' m' hun hall _ => ⟨hun, hall, rfl⟩)
    fun r m' b' hx hQ => ?_
  obtain ⟨pd', sz⟩ := r
  obtain ⟨hun, hall, rfl⟩ := hQ
  obtain ⟨hfree, hbytes⟩ := exec_takes (only_deallocuvm pd oldsz sz) hx
  exact hlt (not_le.mp h) pd' m' b' hun hall hfree hbytes

theorem wp_mappages_bytes {pd : PageDir} {a : ℕ} {pa : Page} {perm : Perm}
    {Q : PageDir × Bool → Mem × Bytes → Prop} (hbase : a < KERNBASE) (halign : a % PGSIZE = 0)
    (hfresh : ¬pd.Present a)
    (hok : ∀ pd' m' b', Maps pd pd' a (a + PGSIZE) perm.u →
      (∀ va, a ≤ va → va < a + PGSIZE → pd'.look va = some ⟨pa, true, perm.w, perm.u⟩) →
      m'.all pd'.pages = m.all ({pa} + pd.pages) → m.Next m' → m.free.card ≤ m'.free.card + 1 →
      (∀ v ∉ m.free, b' v = b v) → Q (pd', true) (m', b'))
    (hfail : ∀ m' b', m'.free = m.free → m.Next m' → m.Out → (∀ v ∉ m.free, b' v = b v) →
      Q (pd, false) (m', b')) :
    (vmb k bad).wp (mappages pd a PGSIZE pa perm) Q (m, b) := by
  refine wp_bytes (Q := fun r m' => m.Next m' ∧ (r.2 = true → Maps pd r.1 a (a + PGSIZE) perm.u ∧
      (∀ va, a ≤ va → va < a + PGSIZE → r.1.look va = some ⟨pa, true, perm.w, perm.u⟩) ∧
      m'.all r.1.pages = m.all ({pa} + pd.pages) ∧ m.free.card ≤ m'.free.card + 1) ∧
      (r.2 = false → r.1 = pd ∧ m'.free = m.free ∧ m.Out)) ?_ fun r m' b' hx hQ => ?_
  · refine wp_mappages_user hbase halign hfresh (fun pd' m' hmaps hlook hall hn hcard => ?_)
      fun m' hf hn hout => ?_
    · exact ⟨hn, fun _ => ⟨hmaps, hlook, hall, hcard⟩, fun hc => by cases hc⟩
    · exact ⟨hn, (fun hc => by cases hc), fun _ => ⟨rfl, hf, hout⟩⟩
  · have hbytes := exec_keeps (only_mappages pd a PGSIZE pa perm) hx
    obtain ⟨pd', ok⟩ := r
    obtain ⟨hn, htrue, hfalse⟩ := hQ
    cases ok with
    | true =>
      obtain ⟨hmaps, hlook, hall, hcard⟩ := htrue rfl
      exact hok pd' m' b' hmaps hlook hall hn hcard hbytes
    | false =>
      obtain ⟨rfl, hf, hout⟩ := hfalse rfl
      exact hfail m' b' hf hn hout hbytes

theorem wp_kfree_bytes {v : Page} {Q : Unit → Mem × Bytes → Prop} (hv : k.Has v)
    (hQ : ∀ m', m'.free = {v} + m.free → m'.fails = m.fails → Q () (m', update b v fun _ => 1)) :
    (vmb k bad).wp (kfree v) Q (m, b) := by
  refine fun _ => ⟨trivial, ?_⟩
  change (vmb k bad).Outcome _ (handleBytes k (.kfree v) (m, b))
  rw [handleBytes, handle, if_pos hv]
  exact hQ _ rfl rfl

end Xv6.Vm
