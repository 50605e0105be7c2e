import Xv6.Malloc.Free

/-!
# `malloc`

The loop of `malloc` goes once round the free list, from the block after `freep` to `freep` itself.
It takes a block from the first one that is large enough (`Xv6.Malloc.Ready.take`), and if there is
none, then `morecore` puts one in (`Xv6.Malloc.Ready.morecore`) and the second way round ends at
the latest there. So **the loop ends, and it gives away a free block or nothing**
(`Xv6.Malloc.Ready.mallocLoop`).
-/

namespace Xv6.Malloc

open Lib Function List

variable {base lo nunits n : ℕ} {h : Heap} {T A C : List Tile} {sbrk : List Bool}

/-! ### Rounds -/

/-- More rounds do not change where the search ends. -/
theorem find_mono {bp k k' p q : ℕ} (hf : h.find bp k p = some q) (hk : k ≤ k') :
    h.find bp k' p = some q := by
  induction k generalizing k' p with
  | zero => cases hf
  | succ k ih =>
    obtain ⟨j, rfl⟩ := Nat.exists_eq_add_of_le' hk
    rw [Nat.add_succ, find_succ] at *
    by_cases hc : h.Stops bp p
    · rw [if_pos hc] at hf ⊢
      exact hf
    · rw [if_neg hc] at hf ⊢
      exact ih hf (by omega)

theorem free_mono {ap k k' : ℕ} {h' : Heap} (hf : h.free k ap = some h') (hk : k ≤ k') :
    h.free k' ap = some h' := by
  obtain ⟨p, hp, rfl⟩ := Option.map_eq_some_iff.mp hf
  exact Option.map_eq_some_iff.mpr ⟨p, find_mono hp hk, rfl⟩

theorem morecore_mono {k k' : ℕ} {x : Heap × List Bool × Option ℕ}
    (hm : h.morecore k nunits sbrk = some x) (hk : k ≤ k') :
    h.morecore k' nunits sbrk = some x := by
  match sbrk with
  | [] => exact hm
  | false :: _ => exact hm
  | true :: _ =>
    obtain ⟨h', hf, rfl⟩ := Option.map_eq_some_iff.mp hm
    exact Option.map_eq_some_iff.mpr ⟨h', free_mono hf hk, rfl⟩

theorem mallocLoop_mono {k k' prevp p : ℕ} {r : Heap × Option ℕ}
    (hm : Heap.mallocLoop nunits k h sbrk prevp p = some r) (hk : k ≤ k') :
    Heap.mallocLoop nunits k' h sbrk prevp p = some r := by
  induction k generalizing k' h sbrk prevp p with
  | zero => cases hm
  | succ k ih =>
    obtain ⟨j, rfl⟩ := Nat.exists_eq_add_of_le' hk
    rw [Nat.add_succ, Heap.mallocLoop, Heap.round] at *
    by_cases hsize : (h.mem p).size ≥ nunits
    · rw [if_pos hsize] at hm ⊢
      exact hm
    rw [if_neg hsize] at hm ⊢
    by_cases hp : p = h.freep
    · rw [if_pos hp] at hm ⊢
      obtain ⟨⟨h', sbrk', o⟩, hx, hm⟩ := Option.bind_eq_some_iff.mp hm
      refine Option.bind_eq_some_iff.mpr ⟨_, morecore_mono hx (by omega), ?_⟩
      cases o with
      | none => exact hm
      | some q => exact ih hm (by omega)
    · rw [if_neg hp] at hm ⊢
      exact ih hm (by omega)

/-! ### The way round -/

/-- The loop looks for a large block on the way to `freep`. -/
theorem mallocLoop_scans : Scans h.next h.freep (fun p => nunits ≤ (h.mem p).size)
    (fun q p => some ((h.take nunits q p).1, some (h.take nunits q p).2))
    (fun k => (h.morecore k nunits sbrk).bind fun x => x.2.2.elim (some (x.1, none)) fun p =>
      Heap.mallocLoop nunits k x.1 x.2.1 p (x.1.next p))
    (fun k => Heap.mallocLoop nunits k h sbrk) := by
  intro k q p
  refine (Heap.mallocLoop.eq_2 ..).trans ?_
  refine if_congr Iff.rfl rfl (if_congr Iff.rfl ?_ rfl)
  congr 1
  funext x
  obtain ⟨h', sbrk', _ | p⟩ := x
  · rfl
  · rfl

namespace Ready

/-- The way round. -/
theorem exists_path (hr : Ready base lo h T) :
    ∃ m, h.freep :: m ~r base :: frees lo T ∧ Path h.next h.freep m h.freep ∧ h.freep ∉ m := by
  obtain ⟨m, hrot, hpath⟩ := hr.circular.exists_path hr.freep
  exact ⟨m, hrot.symm, hpath, (nodup_cons.mp (hrot.nodup_iff.mp hr.nodup)).1⟩

section Scan

variable {β : Type} {f : ℕ → ℕ → β} {g : ℕ → β} {F : ℕ → ℕ → ℕ → β}

/-- If there is a large block, then the loop takes one. -/
theorem found (hr : Ready base lo h T)
    (hF : Scans h.next h.freep (fun p => nunits ≤ (h.mem p).size) f g F)
    (hlarge : ∃ y ∈ frees lo T, nunits ≤ (h.mem y).size) :
    ∃ q ∈ base :: frees lo T, nunits ≤ (h.mem (h.next q)).size ∧ ∃ k₀, ∀ k, k₀ ≤ k →
      F k h.freep (h.next h.freep) = f q (h.next q) := by
  obtain ⟨m, hrot, hpath, hm⟩ := hr.exists_path
  obtain ⟨y, hy, hsize⟩ := hlarge
  have hmem : y ∈ m ++ [h.freep] := by
    have hy' := hrot.perm.mem_iff.mpr (mem_cons_of_mem base hy)
    rcases mem_cons.mp hy' with rfl | hy'
    · exact mem_append_right _ (mem_singleton_self _)
    · exact mem_append_left _ hy'
  obtain ⟨q, hq, hqs, hloop⟩ := hF.found_eq hpath hm ⟨y, hmem, hsize⟩
  exact ⟨q, hrot.perm.mem_iff.mp hq, hqs, m.length + 1, fun k hk => hloop k hk⟩

/-- If there is none, then it comes to `morecore`. -/
theorem more (hr : Ready base lo h T)
    (hF : Scans h.next h.freep (fun p => nunits ≤ (h.mem p).size) f g F)
    (hn : 0 < nunits) (hsmall : ¬∃ y ∈ frees lo T, nunits ≤ (h.mem y).size) :
    ∃ k₀, ∀ k, F (k₀ + k) h.freep (h.next h.freep) = g k := by
  obtain ⟨m, hrot, hpath, hm⟩ := hr.exists_path
  refine ⟨m.length + 1, hF.more_eq hpath hm fun y hy hsize => ?_⟩
  have hy : y ∈ base :: frees lo T :=
    hrot.perm.mem_iff.mp ((perm_append_singleton _ _).mem_iff.mp hy)
  rcases mem_cons.mp hy with rfl | hy
  · rw [hr.base_size] at hsize
    omega
  · exact hsmall ⟨y, hy, hsize⟩

end Scan

/-- The header of a free block has its size. -/
theorem size_eq {s : ℕ} {u : Option ℕ} (hr : Ready base lo h (A ++ ⟨s, u⟩ :: C)) :
    (h.mem (lo + 8 * total A)).size = s := (sizes_append.mp hr.sizes).2.1

/-- A free block is in the list. -/
theorem exists_free (hr : Ready base lo h T) {x : Tile} (hx : x ∈ T) (hu : x.use = none) :
    ∃ y ∈ frees lo T, (h.mem y).size = x.size := by
  obtain ⟨A, C, rfl⟩ := append_of_mem hx
  obtain ⟨s, u⟩ := x
  obtain rfl : u = none := hu
  refine ⟨lo + 8 * total A, ?_, hr.size_eq⟩
  rw [frees_append, frees]
  exact mem_append_right _ mem_cons_self

/-! ### Taking a block -/

/-- A free block of the right size is taken out of the list. -/
theorem take_all {s q : ℕ} (hr : Ready base lo h (A ++ ⟨s, none⟩ :: C)) (hn : n + 8 ≤ 8 * s)
    (hq : q ∈ base :: frees lo (A ++ ⟨s, none⟩ :: C)) (hnext : h.next q = lo + 8 * total A) :
    Ready base lo { h.set q { h.mem q with ptr := h.next (lo + 8 * total A) } with freep := q }
      (A ++ ⟨s, some n⟩ :: C) := by
  obtain ⟨hokA, hokC⟩ := forall_mem_append.mp hr.ok
  obtain ⟨hok, hokC⟩ := forall_mem_cons.mp hokC
  obtain ⟨hapA, hapC, hap⟩ := isChain_append.mp hr.apart
  obtain ⟨G, p, hG⟩ : ∃ G p, base :: frees lo A = G ++ [p] :=
    ⟨_, _, (dropLast_append_getLast (cons_ne_nil _ _)).symm⟩
  set bp := lo + 8 * total A with hbp
  have hrot : ∀ L : List ℕ, G ++ p :: L ~r p :: (L ++ G) :=
    fun L => ⟨G.length, rotate_append_length_eq ..⟩
  have hnodes : base :: frees lo (A ++ ⟨s, none⟩ :: C) =
      G ++ p :: bp :: frees (bp + 8 * s) C := by
    rw [frees_append, ← cons_append, hG, append_assoc]
    rfl
  have hnodes' : base :: frees lo (A ++ ⟨s, some n⟩ :: C) = G ++ p :: frees (bp + 8 * s) C := by
    rw [frees_append, ← cons_append, hG, append_assoc]
    rfl
  have hcirc := hr.circular
  have hnodup := hr.nodup
  rw [hnodes] at hcirc hnodup hq
  -- The node that comes before the block in the list is the one that points to it.
  have hpbp : h.next p = bp :=
    (path_cons.mp (circular_cons.mp (hcirc.rotated (hrot _)))).1
  obtain rfl : q = p := hcirc.injOn hnodup hq
    (mem_append_right _ mem_cons_self) (hnext.trans hpbp.symm)
  have hsame : ∀ c, ((update h.mem q { h.mem q with ptr := h.next bp }) c).size =
      (h.mem c).size := by
    intro c
    by_cases hc : c = q
    · rw [hc, update_self]
    · rw [update_of_ne hc]
  obtain ⟨hsA, hs, hsC⟩ := sizes_append.mp hr.sizes
  have hsizes : Sizes h.mem lo (A ++ ⟨s, some n⟩ :: C) := sizes_append.mpr ⟨hsA, hs, hsC⟩
  have hok' : ∀ x ∈ A ++ ⟨s, some n⟩ :: C, x.Ok := by
    refine forall_mem_append.mpr ⟨hokA, forall_mem_cons.mpr ⟨⟨hok.1, ?_⟩, hokC⟩⟩
    intro k hk
    obtain rfl := Option.some.inj hk
    exact hn
  refine ⟨hr.base_pos, hr.base_le, ?_, ?_, hok', ?_, ?_, ?_, ?_⟩
  · change h.brk = _
    rw [hr.brk, total_append, total_append, total_mk, total_mk]
  · exact hsizes.congr hok' fun c _ _ => hsame c
  · refine isChain_append.mpr ⟨hapA, ?_, fun x _ y hy => ?_⟩
    · exact isChain_cons.mpr
        ⟨fun y _ => .inl (Option.some_ne_none n), (isChain_cons.mp hapC).2⟩
    · obtain rfl := Option.some.inj hy
      exact .inr (Option.some_ne_none n)
  · exact (hsame base).trans hr.base_size
  · rw [hnodes']
    exact mem_append_right _ mem_cons_self
  · rw [hnodes']
    have herase := (hcirc.rotated (hrot _)).erase ((hrot _).nodup_iff.mp hnodup)
    refine (herase.congr fun c _ => ?_).rotated (hrot _).symm
    change ((update h.mem q { h.mem q with ptr := h.next bp }) c).ptr = _
    by_cases hc : c = q
    · rw [hc, update_self, update_self]
    · rw [update_of_ne hc, update_of_ne hc]
      rfl

/-- The end of a larger free block is cut off. -/
theorem take_end {s q y : ℕ} (hr : Ready base lo h (A ++ ⟨s + nunits, none⟩ :: C)) (hs : 0 < s)
    (hn : n + 8 ≤ 8 * nunits) (hq : q ∈ base :: frees lo (A ++ ⟨s + nunits, none⟩ :: C)) :
    Ready base lo { (h.set (lo + 8 * total A) ⟨h.next (lo + 8 * total A), s⟩).set
        (lo + 8 * total A + 8 * s) ⟨y, nunits⟩ with freep := q }
      (A ++ ⟨s, none⟩ :: ⟨nunits, some n⟩ :: C) := by
  obtain ⟨hokA, hokC⟩ := forall_mem_append.mp hr.ok
  obtain ⟨-, hokC⟩ := forall_mem_cons.mp hokC
  obtain ⟨hapA, hapC, hap⟩ := isChain_append.mp hr.apart
  obtain ⟨hsA, -, hsC⟩ := sizes_append.mp hr.sizes
  have hbase := hr.base_le
  set bp := lo + 8 * total A with hbp
  have hend : bp + 8 * (s + nunits) = bp + 8 * s + 8 * nunits := by omega
  have hfrees : frees lo (A ++ ⟨s, none⟩ :: ⟨nunits, some n⟩ :: C) =
      frees lo (A ++ ⟨s + nunits, none⟩ :: C) := by
    rw [frees_append, frees_append, ← hbp, frees, frees, frees, hend]
  -- The headers at `bp` and at the end are the only ones that change.
  have hsame : ∀ c, c ≠ bp → c ≠ bp + 8 * s → (update (update h.mem bp
      ⟨h.next bp, s⟩) (bp + 8 * s) ⟨y, nunits⟩) c = h.mem c := by
    intro c hc hc'
    rw [update_of_ne hc', update_of_ne hc]
  refine ⟨hr.base_pos, hr.base_le, ?_, sizes_append.mpr ⟨?_, ?_, ?_, ?_⟩, ?_, ?_, ?_, ?_, ?_⟩
  · change h.brk = _
    rw [hr.brk, total_append, total_append, total_mk, total_mk, total_mk]
    omega
  · exact hsA.congr hokA fun c _ hc => congrArg Header.size (hsame c (by omega) (by omega))
  · change (update (update h.mem bp _) (bp + 8 * s) _ bp).size = s
    rw [update_of_ne (by omega), update_self]
  · change (update (update h.mem bp _) (bp + 8 * s) _ (bp + 8 * s)).size = nunits
    rw [update_self]
  · rw [hend] at hsC
    exact hsC.congr hokC fun c hc _ => congrArg Header.size (hsame c (by omega) (by omega))
  · refine forall_mem_append.mpr ⟨hokA, forall_mem_cons.mpr ⟨Tile.ok_none hs,
      forall_mem_cons.mpr ⟨⟨by simp only; omega, fun k hk => ?_⟩, hokC⟩⟩⟩
    obtain rfl := Option.some.inj hk
    exact hn
  · refine isChain_append.mpr ⟨hapA, ?_, fun x hx y hy => ?_⟩
    · exact isChain_cons_cons.mpr ⟨.inr (Option.some_ne_none n), isChain_cons.mpr
        ⟨fun y _ => .inl (Option.some_ne_none n), (isChain_cons.mp hapC).2⟩⟩
    · obtain rfl := Option.some.inj hy
      exact hap x hx ⟨s + nunits, none⟩ rfl
  · exact (congrArg Header.size (hsame base (by omega) (by omega))).trans hr.base_size
  · rwa [hfrees]
  · rw [hfrees]
    refine hr.circular.congr fun c hc => ?_
    by_cases hcb : c = bp
    · change (update (update h.mem bp _) (bp + 8 * s) _ c).ptr = _
      rw [hcb, update_of_ne (by omega), update_self]
    · refine congrArg Header.ptr (hsame c hcb ?_)
      rw [frees_append, frees, ← hbp, mem_cons, mem_append, mem_cons] at hc
      rcases hc with rfl | hc | hc | hc
      · omega
      · have := mem_frees hokA hc
        omega
      · exact absurd hc hcb
      · have := mem_frees hokC hc
        omega

variable (hr : Ready base lo h T)
include hr

/-- **A large enough block is taken.** -/
theorem take (hn : n + 8 ≤ 8 * nunits) {q : ℕ}
    (hq : q ∈ base :: frees lo T) (hsize : nunits ≤ (h.mem (h.next q)).size) :
    ∃ T', Ready base lo (h.take nunits q (h.next q)).1 T' ∧
      (lives lo T').Perm (((h.take nunits q (h.next q)).2, n) :: lives lo T) := by
  have hmem : h.next q ∈ frees lo T := by
    have hmem := hr.circular.next_mem hq
    rcases mem_cons.mp hmem with hb | hmem
    · rw [hb, hr.base_size] at hsize
      omega
    · exact hmem
  obtain ⟨A, s, C, rfl, hp⟩ := exists_of_mem_frees hmem
  have hs := hr.size_eq
  rw [hp, hs] at hsize
  rw [hp, Heap.take, hs]
  by_cases hc : s = nunits
  · subst hc
    rw [if_pos rfl]
    refine ⟨_, hr.take_all hn hq hp, ?_⟩
    rw [lives_append, lives_append]
    exact perm_middle
  · obtain ⟨s, rfl⟩ := Nat.exists_eq_add_of_le' hsize
    rw [if_neg hc, Nat.add_sub_cancel]
    have hhead : ((h.set (lo + 8 * total A)
        { h.mem (lo + 8 * total A) with size := s }).mem (lo + 8 * total A)).size = s := by
      rw [Heap.set_mem_self]
    simp only [hhead]
    refine ⟨_, hr.take_end (by omega) hn hq, ?_⟩
    rw [lives_append, lives_append, lives, lives, lives, Nat.mul_add, ← Nat.add_assoc]
    exact perm_middle

/-! ### More memory -/

/-- The memory that `sbrk` returns is a block in use before it is freed. -/
theorem extend {nu r : ℕ} (hnu : 0 < nu) :
    Ready base lo { h.set h.brk ⟨r, nu⟩ with brk := h.brk + 8 * nu } (T ++ [⟨nu, some 0⟩]) := by
  have hbrk := hr.brk
  have hbase := hr.base_le
  have hsame : ∀ c, c + 8 ≤ h.brk → (update h.mem h.brk ⟨r, nu⟩) c = h.mem c :=
    fun c hc => update_of_ne (by omega) ..
  have hfrees : frees lo (T ++ [⟨nu, some 0⟩]) = frees lo T := by
    rw [frees_append, frees, frees, append_nil]
  refine ⟨hr.base_pos, hbase, ?_, sizes_append.mpr ⟨?_, ?_, trivial⟩, ?_, ?_, ?_, ?_, ?_⟩
  · change h.brk + 8 * nu = _
    rw [total_append, total_mk, total_nil, hbrk]
    omega
  · exact hr.sizes.congr hr.ok fun c _ hc => congrArg Header.size (hsame c (by omega))
  · rw [← hbrk]
    exact congrArg Header.size (h.set_mem_self ..)
  · refine forall_mem_append.mpr ⟨hr.ok, forall_mem_singleton.mpr ⟨hnu, fun k hk => ?_⟩⟩
    obtain rfl := Option.some.inj hk
    change 0 + 8 ≤ 8 * nu
    omega
  · refine isChain_append.mpr ⟨hr.apart, .singleton _, fun x _ y hy => ?_⟩
    obtain rfl := Option.some.inj hy
    exact .inr (Option.some_ne_none 0)
  · exact (congrArg Header.size (hsame base (by omega))).trans hr.base_size
  · rw [hfrees]
    exact hr.freep
  · rw [hfrees]
    refine hr.circular.congr fun c hc => congrArg Header.ptr (hsame c ?_)
    rcases mem_cons.mp hc with rfl | hc
    · omega
    · have := mem_frees hr.ok hc
      omega

/-- **`morecore`** puts in a block that is large enough. -/
theorem morecore (hn : 0 < nunits) (hn' : nunits < 2 ^ 29) :
    ∃ h' T', (∃ k₀, ∀ k, k₀ ≤ k →
        h.morecore k nunits (true :: sbrk) = some (h', sbrk, some h'.freep)) ∧
      Ready base lo h' T' ∧ lives lo T' = lives lo T ∧
        ∃ y ∈ frees lo T', nunits ≤ (h'.mem y).size := by
  set nu := if nunits < 4096 then 4096 else nunits with hnu
  have hle : nunits ≤ nu ∧ nu < 2 ^ 29 := by split_ifs at hnu <;> omega
  have hmod : nu * 8 % 2 ^ 32 = 8 * nu := by omega
  obtain ⟨h', T', hfree, hready, hlives, x, hx, hu, hs⟩ :=
    (hr.extend (r := (h.mem h.brk).ptr) (by omega : 0 < nu)).free
  refine ⟨h', T', ⟨(frees lo (T ++ [⟨nu, some 0⟩])).length + 1, fun k hk => ?_⟩, hready, ?_, ?_⟩
  · have hmore := hfree k hk
    rw [← hr.brk] at hmore
    rw [Heap.morecore]
    simp only [← hnu, hmod]
    exact congrArg (Option.map _) hmore
  · rw [hlives, lives, append_nil]
  · obtain ⟨y, hy, hsize⟩ := hready.exists_free hx hu
    exact ⟨y, hy, by omega⟩

/-- **The loop of `malloc` ends**, at the second way round at the latest. -/
theorem mallocLoop (hn : n + 8 ≤ 8 * nunits) (hn' : nunits < 2 ^ 29) :
    ∃ h' o T', (∃ k₀, ∀ k, k₀ ≤ k →
        Heap.mallocLoop nunits k h sbrk h.freep (h.next h.freep) = some (h', o)) ∧
      Ready base lo h' T' ∧
        (lives lo T').Perm ((o.map fun ap => (ap, n)).toList ++ lives lo T) := by
  by_cases hlarge : ∃ y ∈ frees lo T, nunits ≤ (h.mem y).size
  · obtain ⟨q, hq, hsize, hloop⟩ := hr.found mallocLoop_scans hlarge
    obtain ⟨T', hr', hlives⟩ := hr.take hn hq hsize
    exact ⟨_, _, T', hloop, hr', hlives⟩
  obtain ⟨k₁, hmore⟩ := hr.more (@mallocLoop_scans _ _ sbrk) (by omega) hlarge
  -- If `sbrk` fails, then nothing changes.
  have hfail : (∃ sbrk', ∀ k, h.morecore k nunits sbrk = some (h, sbrk', none)) →
      ∃ k₀, ∀ k, k₀ ≤ k →
        Heap.mallocLoop nunits k h sbrk h.freep (h.next h.freep) = some (h, none) := by
    rintro ⟨sbrk', hcore⟩
    refine ⟨k₁, fun k hk => ?_⟩
    obtain ⟨k, rfl⟩ := Nat.exists_eq_add_of_le hk
    rw [hmore, hcore]
    rfl
  match sbrk with
  | [] => exact ⟨h, none, T, hfail ⟨[], fun _ => rfl⟩, hr, .refl _⟩
  | false :: sbrk => exact ⟨h, none, T, hfail ⟨sbrk, fun _ => rfl⟩, hr, .refl _⟩
  | true :: sbrk =>
    obtain ⟨h₁, T₁, ⟨k₂, hcore⟩, hr₁, hlives₁, hlarge₁⟩ := hr.morecore (by omega) hn'
    obtain ⟨q, hq, hsize, k₃, hloop⟩ := hr₁.found mallocLoop_scans hlarge₁
    obtain ⟨T', hr', hlives⟩ := hr₁.take hn hq hsize
    refine ⟨(h₁.take nunits q (h₁.next q)).1, some (h₁.take nunits q (h₁.next q)).2, T',
      ⟨k₁ + (k₂ + k₃), fun k hk => ?_⟩, hr', hlives₁ ▸ hlives⟩
    obtain ⟨k, rfl⟩ := Nat.exists_eq_add_of_le hk
    rw [Nat.add_assoc, hmore, hcore _ (by omega)]
    exact hloop _ (by omega)

omit hr

/-- The first call of `malloc` makes a list of `base`. -/
theorem init (hbase : 0 < base) (hlo : base + 8 ≤ lo) (hfreep : h.freep = 0) (hbrk : h.brk = lo) :
    Ready base lo (h.init base) [] := by
  rw [Heap.init, if_pos hfreep]
  refine ⟨hbase, hlo, hbrk, trivial, forall_mem_nil _, .nil, ?_, mem_cons_self, ?_⟩
  · exact congrArg Header.size (h.set_mem_self ..)
  · exact circular_cons.mpr (path_nil.mpr (congrArg Header.ptr (h.set_mem_self ..)))

theorem init_eq (hr : Ready base lo h T) : h.init base = h := by
  refine if_neg fun hc => ?_
  have hpos := hr.base_pos
  rcases mem_cons.mp hr.freep with hb | hb
  · omega
  · have := (pairwise_cons.mp hr.sorted).1 _ hb
    omega

end Ready

end Xv6.Malloc
