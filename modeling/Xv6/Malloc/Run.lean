import Mathlib.Data.List.Perm.Lattice
import Xv6.Malloc.Alloc

/-!
# The invariant of the heap

Whatever a program does with the memory that it has been given, **the blocks are tiles after each
call** (`Xv6.Malloc.step_holds`), and what the program has been given are the ones in use. What this
means for the headers in the memory is said by `Xv6.Malloc.Sound`: the free list, the blocks that it
contains and those in use do not overlap, they are all the memory that there is, no two free
blocks are adjacent, and a block has room for what it was asked for.
-/

namespace Xv6.Malloc

open Lib List

variable {base lo n b ap : ℕ} {h : Heap} {T A C : List Tile} {s s' : State} {a : Act}
  {mem : ℕ → Header}

/-! ### Calls -/

/-- The blocks of a heap, also before the first call of `malloc`. -/
def Rep (base lo : ℕ) (h : Heap) (T : List Tile) : Prop :=
  Ready base lo h T ∨ h.freep = 0 ∧ h.brk = lo ∧ T = []

theorem Rep.init (hrep : Rep base lo h T) (hbase : 0 < base) (hlo : base + 8 ≤ lo) :
    Ready base lo (h.init base) T := by
  rcases hrep with hr | ⟨hf, hb, rfl⟩
  · rwa [hr.init_eq]
  · exact .init hbase hlo hf hb

/-- **`malloc` ends**, and it gives away a block or nothing. -/
theorem Rep.malloc (hrep : Rep base lo h T) (hbase : 0 < base) (hlo : base + 8 ≤ lo)
    (hn : n < 2 ^ 31 - 64) (sbrk : List Bool) :
    ∃ h' o T', (∃ k₀, ∀ k, k₀ ≤ k → h.malloc base k n sbrk = some (h', o)) ∧
      Ready base lo h' T' ∧ (lives lo T').Perm ((o.map fun ap => (ap, n)).toList ++ lives lo T) :=
  (hrep.init hbase hlo).mallocLoop (by omega) (by omega)

theorem malloc_mono {k k' : ℕ} {sbrk : List Bool} {r : Heap × Option ℕ}
    (hm : h.malloc base k n sbrk = some r) (hk : k ≤ k') : h.malloc base k' n sbrk = some r :=
  mallocLoop_mono hm hk

/-- The memory of the program lies in the range. -/
theorem mem_lives_le (hok : ∀ x ∈ T, x.Ok) (hap : (ap, n) ∈ lives b T) :
    b + 8 ≤ ap ∧ ap + n ≤ b + 8 * total T := by
  obtain ⟨A, s, C, rfl, rfl⟩ := mem_lives hap
  have hx := (forall_mem_append.mp hok).2
  have hs := (forall_mem_cons.mp hx).1.2 n rfl
  rw [total_append, total_mk]
  change n + 8 ≤ 8 * s at hs
  omega

/-- A pointer is given away once. -/
theorem filter_lives {s : ℕ} (hok : ∀ x ∈ A ++ ⟨s, some n⟩ :: C, x.Ok) :
    (lives lo (A ++ ⟨s, some n⟩ :: C)).filter (fun x => x.1 ≠ lo + 8 * total A + 8) =
      lives lo A ++ lives (lo + 8 * total A + 8 * s) C := by
  obtain ⟨hokA, hokC⟩ := forall_mem_append.mp hok
  obtain ⟨hx, hokC⟩ := forall_mem_cons.mp hokC
  have hpos : 0 < s := hx.1
  rw [lives_append, lives, filter_append, filter_cons_of_neg (by simp)]
  congr 1
  · refine filter_eq_self.mpr fun x hm => ?_
    obtain ⟨ap, k⟩ := x
    obtain ⟨B, s', D, rfl, rfl⟩ := mem_lives hm
    have hs' := (forall_mem_cons.mp (forall_mem_append.mp hokA).2).1.1
    rw [total_append, total_mk]
    change 0 < s' at hs'
    simp only [ne_eq, decide_eq_true_eq]
    omega
  · refine filter_eq_self.mpr fun x hm => ?_
    have := mem_lives_le hokC hm
    simp only [ne_eq, decide_eq_true_eq]
    omega

/-- **`free` ends.** -/
theorem Ready.free_mem (hr : Ready base lo h T) (hap : (ap, n) ∈ lives lo T) :
    ∃ h' T', (∃ k₀, ∀ k, k₀ ≤ k → h.free k ap = some h') ∧ Ready base lo h' T' ∧
      lives lo T' = (lives lo T).filter fun x => x.1 ≠ ap := by
  obtain ⟨A, s, C, rfl, rfl⟩ := mem_lives hap
  obtain ⟨h', T', hfree, hr', hlives, -⟩ := hr.free
  exact ⟨h', T', ⟨_, fun k hk => hfree k hk⟩, hr', hlives.trans (filter_lives hr.ok).symm⟩

/-- A program that keeps to its own memory does not change the heap. -/
theorem Ready.store (hr : Ready base lo h T) (hap : (ap, n) ∈ lives lo T) (hlt : ap < b + 8)
    (hlt' : b < ap + n) (x : Header) : Ready base lo (h.set b x) T := by
  obtain ⟨A, s, C, rfl, rfl⟩ := mem_lives hap
  obtain ⟨hokA, hokC⟩ := forall_mem_append.mp hr.ok
  obtain ⟨hx, hokC⟩ := forall_mem_cons.mp hokC
  obtain ⟨hsA, hs, hsC⟩ := sizes_append.mp hr.sizes
  have hbase := hr.base_le
  have hn : n + 8 ≤ 8 * s := hx.2 n rfl
  have hsame : ∀ c, c ≠ b → (h.set b x).mem c = h.mem c := fun c hc => Function.update_of_ne hc ..
  refine ⟨hr.base_pos, hbase, hr.brk, sizes_append.mpr ⟨?_, ?_, ?_⟩, hr.ok, hr.apart, ?_,
    hr.freep, hr.circular.congr fun c hc => congrArg Header.ptr (hsame c ?_)⟩
  · exact hsA.congr hokA fun c _ hc => congrArg Header.size (hsame c (by omega))
  · exact (congrArg Header.size (hsame _ (by omega))).trans hs
  · exact hsC.congr hokC fun c hc _ =>
      congrArg Header.size (hsame c (by change _ + 8 * s ≤ c at hc; omega))
  · exact (congrArg Header.size (hsame base (by omega))).trans hr.base_size
  · rw [frees_append, frees, mem_cons, mem_append] at hc
    rcases hc with rfl | hc | hc
    · omega
    · have := mem_frees hokA hc
      omega
    · have := mem_frees hokC hc
      omega

/-! ### Runs -/

/-- The blocks of a program after a call. -/
def Holds (base lo : ℕ) (s : State) : Prop :=
  ∃ T, Ready base lo s.heap T ∧ s.live.Perm (lives lo T)

theorem step_malloc {k : ℕ} {sbrk : List Bool} (hbase : 0 < base) (hlo : base + 8 ≤ lo)
    (hrep : Rep base lo s.heap T) (hlive : s.live.Perm (lives lo T))
    (hstep : step base s (.malloc k n sbrk) = some s') : Holds base lo s' := by
  rw [step] at hstep
  split_ifs at hstep with hn
  obtain ⟨⟨h', o⟩, hm, rfl⟩ := Option.map_eq_some_iff.mp hstep
  obtain ⟨h'', o', T', ⟨k₀, hk₀⟩, hr, hlives⟩ := hrep.malloc hbase hlo hn sbrk
  have heq := (malloc_mono hm (le_max_left k k₀)).symm.trans (hk₀ _ (le_max_right k k₀))
  obtain ⟨rfl, rfl⟩ := Prod.mk.inj (Option.some.inj heq)
  exact ⟨T', hr, ((hlive.append_left _).trans hlives.symm)⟩

/-- **The blocks are tiles after each call.** -/
theorem step_holds (hbase : 0 < base) (hlo : base + 8 ≤ lo) (hs : Holds base lo s)
    (hstep : step base s a = some s') : Holds base lo s' := by
  obtain ⟨T, hr, hlive⟩ := hs
  cases a with
  | malloc k n sbrk => exact step_malloc hbase hlo (.inl hr) hlive hstep
  | free k ap =>
    rw [step] at hstep
    split_ifs at hstep with hmem
    obtain ⟨⟨_, n⟩, hx, rfl⟩ := mem_map.mp hmem
    obtain ⟨h', hf, rfl⟩ := Option.map_eq_some_iff.mp hstep
    obtain ⟨h'', T', ⟨k₀, hk₀⟩, hr', hlives⟩ := hr.free_mem (hlive.mem_iff.mp hx)
    have heq := (free_mono hf (le_max_left k k₀)).symm.trans (hk₀ _ (le_max_right k k₀))
    obtain rfl := Option.some.inj heq
    exact ⟨T', hr', hlives ▸ hlive.filter _⟩
  | store b x =>
    rw [step] at hstep
    split_ifs at hstep with hany
    obtain rfl := Option.some.inj hstep
    obtain ⟨⟨ap, n⟩, hmem, hc⟩ := any_eq_true.mp hany
    obtain ⟨h1, h2⟩ := of_decide_eq_true hc
    exact ⟨T, hr.store (hlive.mem_iff.mp hmem) h1 h2 x, hlive⟩

theorem start_rep (mem : ℕ → Header) (lo : ℕ) : Rep base lo (start mem lo).heap [] :=
  .inr ⟨rfl, rfl, rfl⟩

/-- The first call of a program is one of `malloc`. -/
theorem step_start (hbase : 0 < base) (hlo : base + 8 ≤ lo)
    (hstep : step base (start mem lo) a = some s) : Holds base lo s := by
  cases a with
  | malloc k n sbrk => exact step_malloc hbase hlo (start_rep mem lo) (.refl _) hstep
  | free k ap => cases hstep
  | store b x => cases hstep

theorem run_holds {acts : List Act} (hbase : 0 < base) (hlo : base + 8 ≤ lo)
    (hrun : run (step base) (start mem lo) acts = some s) :
    acts = [] ∧ s = start mem lo ∨ Holds base lo s := by
  cases acts with
  | nil => exact .inl ⟨rfl, (Option.some.inj hrun).symm⟩
  | cons a acts =>
    obtain ⟨u, hu, hrun⟩ := run_cons.mp hrun
    exact .inr (run_invariant (step_holds hbase hlo) (step_start hbase hlo hu) hrun)

/-! ### What it means -/

/-- The blocks of a program that are in use, and the free ones `fs`. -/
def State.blocks (s : State) (fs : List ℕ) : List ℕ := fs ++ s.live.map fun x => x.1 - 8

/-- The size of a block in bytes. -/
def Heap.bytes (h : Heap) (b : ℕ) : ℕ := 8 * (h.mem b).size

/-- **What holds of a program after each call.** Its free blocks are `fs`, and the memory from
`sbrk` begins at `lo`. -/
structure Sound (base lo : ℕ) (s : State) (fs : List ℕ) : Prop where
  /-- From `base` on the addresses increase, -/
  increasing : (base :: fs).Pairwise (· < ·)
  /-- and the way from `freep` along the pointers leads round these nodes, back to `freep`. -/
  circular : ∃ m, s.heap.freep :: m ~r base :: fs ∧ Path s.heap.next s.heap.freep m s.heap.freep
  /-- The blocks do not overlap, -/
  disjoint : (s.blocks fs).Pairwise fun b c =>
    b + s.heap.bytes b ≤ c ∨ c + s.heap.bytes c ≤ b
  /-- they lie in the memory from `sbrk`, -/
  inside : ∀ b ∈ s.blocks fs, lo ≤ b ∧ 0 < s.heap.bytes b ∧ b + s.heap.bytes b ≤ s.heap.brk
  /-- and they are all of it. -/
  units : lo + ((s.blocks fs).map s.heap.bytes).sum = s.heap.brk
  /-- Free blocks are not adjacent. -/
  apart : ∀ b ∈ fs, ∀ c ∈ fs, b + s.heap.bytes b ≠ c
  /-- Behind its header a block has the number of bytes that it was asked for with. -/
  usable : ∀ x ∈ s.live, x.2 + 8 ≤ s.heap.bytes (x.1 - 8)

/-- The addresses of the blocks. -/
def starts (a : ℕ) : List Tile → List ℕ
  | [] => []
  | x :: T => a :: starts (a + 8 * x.size) T

theorem perm_starts {a : ℕ} :
    (frees a T ++ (lives a T).map fun x : ℕ × ℕ => x.1 - 8).Perm (starts a T) := by
  induction T generalizing a with
  | nil => exact .refl _
  | cons x T ih =>
    obtain ⟨s, _ | n⟩ := x
    · exact ih.cons a
    · rw [frees, lives, starts, map_cons, Nat.add_sub_cancel]
      exact perm_middle.trans (ih.cons a)

theorem mem_starts {a : ℕ} (hsizes : Sizes h.mem a T) (hok : ∀ x ∈ T, x.Ok) (hb : b ∈ starts a T) :
    a ≤ b ∧ 0 < h.bytes b ∧ b + h.bytes b ≤ a + 8 * total T := by
  unfold Heap.bytes
  induction T generalizing a with
  | nil => cases hb
  | cons x T ih =>
    obtain ⟨hx, hT⟩ := forall_mem_cons.mp hok
    have hpos := hx.1
    rw [total_cons]
    rcases mem_cons.mp hb with rfl | hb
    · rw [hsizes.1]
      omega
    · have := ih hsizes.2 hT hb
      omega

theorem starts_disjoint {a : ℕ} (hsizes : Sizes h.mem a T) (hok : ∀ x ∈ T, x.Ok) :
    (starts a T).Pairwise fun b c => b + h.bytes b ≤ c ∨ c + h.bytes c ≤ b := by
  induction T generalizing a with
  | nil => exact .nil
  | cons x T ih =>
    obtain ⟨-, hT⟩ := forall_mem_cons.mp hok
    refine .cons (fun c hc => .inl ?_) (ih hsizes.2 hT)
    rw [Heap.bytes, hsizes.1]
    exact (mem_starts hsizes.2 hT hc).1

theorem starts_sum {a : ℕ} (hsizes : Sizes h.mem a T) :
    ((starts a T).map h.bytes).sum = 8 * total T := by
  induction T generalizing a with
  | nil => rfl
  | cons x T ih =>
    rw [starts, map_cons, sum_cons, ih hsizes.2, Heap.bytes, hsizes.1, total_cons,
      Nat.mul_add]

theorem frees_apart {a c : ℕ} (hsizes : Sizes h.mem a T) (hok : ∀ x ∈ T, x.Ok)
    (hapart : T.IsChain Apart) (hb : b ∈ frees a T) (hc : c ∈ frees a T) : b + h.bytes b ≠ c := by
  obtain ⟨A, s, C, rfl, rfl⟩ := exists_of_mem_frees hb
  obtain ⟨hokA, hokC⟩ := forall_mem_append.mp hok
  obtain ⟨hx, hokC⟩ := forall_mem_cons.mp hokC
  obtain ⟨-, hs, -⟩ := sizes_append.mp hsizes
  obtain ⟨-, hapC, -⟩ := isChain_append.mp hapart
  have hpos : 0 < s := hx.1
  rw [Heap.bytes, hs]
  change a + 8 * total A + 8 * s ≠ c
  rw [frees_append, frees, mem_append, mem_cons] at hc
  rcases hc with hc | rfl | hc
  · have := mem_frees hokA hc
    omega
  · omega
  -- Behind the block there is none, or one in use.
  · obtain _ | ⟨⟨s', _ | k⟩, C⟩ := C
    · cases hc
    · rcases (isChain_cons_cons.mp hapC).1 with hne | hne
      · exact absurd rfl hne
      · exact absurd rfl hne
    · obtain ⟨hy, hokC⟩ := forall_mem_cons.mp hokC
      have hpos' : 0 < s' := hy.1
      have := mem_frees hokC hc
      omega

theorem lives_usable {a : ℕ} (hsizes : Sizes h.mem a T) (hok : ∀ x ∈ T, x.Ok)
    (hap : (ap, n) ∈ lives a T) : n + 8 ≤ h.bytes (ap - 8) := by
  obtain ⟨A, s, C, rfl, rfl⟩ := mem_lives hap
  have hx := (forall_mem_cons.mp (forall_mem_append.mp hok).2).1.2 n rfl
  obtain ⟨-, hs, -⟩ := sizes_append.mp hsizes
  rwa [Nat.add_sub_cancel, Heap.bytes, hs]

theorem blocks_perm (hlive : s.live.Perm (lives lo T)) :
    (s.blocks (frees lo T)).Perm (starts lo T) :=
  ((hlive.map _).append_left _).trans perm_starts

/-- The blocks of a program do not overlap. -/
theorem Ready.disjoint (hr : Ready base lo s.heap T) (hlive : s.live.Perm (lives lo T)) :
    (s.blocks (frees lo T)).Pairwise fun b c => b + s.heap.bytes b ≤ c ∨ c + s.heap.bytes c ≤ b :=
  ((blocks_perm hlive).pairwise_iff fun hor => hor.symm).mpr (starts_disjoint hr.sizes hr.ok)

theorem Holds.sound (hs : Holds base lo s) : ∃ fs, Sound base lo s fs := by
  obtain ⟨T, hr, hlive⟩ := hs
  have hperm := blocks_perm hlive
  obtain ⟨m, hrot, hpath, -⟩ := hr.exists_path
  refine ⟨frees lo T, hr.sorted, ⟨m, hrot, hpath⟩, hr.disjoint hlive, fun b hb => ?_, ?_,
    fun b hb c hc => frees_apart hr.sizes hr.ok hr.apart hb hc, fun ⟨ap, n⟩ hx => ?_⟩
  · rw [hr.brk]
    exact mem_starts hr.sizes hr.ok (hperm.mem_iff.mp hb)
  · rw [hr.brk, (hperm.map _).sum_nat, starts_sum hr.sizes]
  · exact lives_usable hr.sizes hr.ok (hlive.mem_iff.mp hx)

/-- **The heap of every program is sound after each call, and each call ends.** -/
theorem heap_sound {acts : List Act} (hbase : 0 < base) (hlo : base + 8 ≤ lo)
    (hrun : run (step base) (start mem lo) acts = some s) :
    (∀ n sbrk, n < 2 ^ 31 - 64 →
        ∃ r k₀, ∀ k, k₀ ≤ k → s.heap.malloc base k n sbrk = some r) ∧
      (∀ x ∈ s.live, ∃ h k₀, ∀ k, k₀ ≤ k → s.heap.free k x.1 = some h) ∧
        (acts ≠ [] → ∃ fs, Sound base lo s fs) := by
  rcases run_holds hbase hlo hrun with ⟨rfl, rfl⟩ | hs
  · refine ⟨fun n sbrk hn => ?_, (fun x hx => by cases hx), fun hne => absurd rfl hne⟩
    obtain ⟨h', o, T', hk, -⟩ := (start_rep mem lo).malloc hbase hlo hn sbrk
    exact ⟨_, hk⟩
  · refine ⟨fun n sbrk hn => ?_, fun ⟨ap, n⟩ hx => ?_, fun _ => hs.sound⟩
    · obtain ⟨T, hr, -⟩ := hs
      obtain ⟨h', o, T', hk, -⟩ := Rep.malloc (.inl hr) hbase hlo hn sbrk
      exact ⟨_, hk⟩
    · obtain ⟨T, hr, hlive⟩ := hs
      obtain ⟨h', T', hk, -⟩ := hr.free_mem (hlive.mem_iff.mp hx)
      exact ⟨h', hk⟩

/-- The program is given two blocks, writes to the second one and frees the first one. -/
theorem heap_sound_free : ∃ s, run (step 8) (start (fun _ => ⟨0, 0⟩) 16)
    [.malloc 5 100 [true], .malloc 5 50 [], .store 32620 ⟨1, 2⟩, .free 5 32680] = some s ∧
      s.live = [(32616, 50)] ∧ ∃ fs, Sound 8 16 s fs := by
  have hrun : (run (step 8) (start (fun _ => ⟨0, 0⟩) 16) [.malloc 5 100 [true], .malloc 5 50 [],
      .store 32620 ⟨1, 2⟩, .free 5 32680]).map State.live = some [(32616, 50)] := by
    decide +kernel
  obtain ⟨s, hs, hlive⟩ := Option.map_eq_some_iff.mp hrun
  exact ⟨s, hs, hlive, (heap_sound (by decide) (by decide) hs).2.2 (cons_ne_nil _ _)⟩

end Xv6.Malloc
