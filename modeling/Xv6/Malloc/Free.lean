import Mathlib.Data.List.Chain
import Xv6.Malloc.Tiles

/-!
# `free`

The loop of `free` goes through the free list, wherever it begins, and it ends at the last free
block before the one that is freed, or at `base` if there is none
(`Xv6.Malloc.Ready.find_eq`). Then the block is put in after it, and joined to its
neighbours if they are free: **the blocks are tiles as before** (`Xv6.Malloc.Ready.free`).
-/

namespace Xv6.Malloc

open Lib Function List

/-- The next free block. -/
def Heap.next (h : Heap) (a : ℕ) : ℕ := (h.mem a).ptr

/-- **How the tiles are kept in the memory**, once `malloc` has been called. The static variable
`base` lies below the memory of `sbrk`, which begins at `lo`. -/
structure Ready (base lo : ℕ) (h : Heap) (T : List Tile) : Prop where
  base_pos : 0 < base
  base_le : base + 8 ≤ lo
  brk : h.brk = lo + 8 * total T
  sizes : Sizes h.mem lo T
  ok : ∀ x ∈ T, x.Ok
  apart : T.IsChain Apart
  base_size : (h.mem base).size = 0
  freep : h.freep ∈ base :: frees lo T
  circular : Circular h.next (base :: frees lo T)

/-! ### The search -/

/-- Where the loop of `free` ends. -/
def Heap.Stops (h : Heap) (bp p : ℕ) : Prop :=
  p < bp ∧ bp < h.next p ∨ h.next p ≤ p ∧ (p < bp ∨ bp < h.next p)

instance (h : Heap) (bp p : ℕ) : Decidable (h.Stops bp p) := inferInstanceAs (Decidable (_ ∨ _))

theorem find_succ (h : Heap) (bp fuel p : ℕ) :
    h.find bp (fuel + 1) p = if h.Stops bp p then some p else h.find bp fuel (h.next p) := by
  rw [Heap.find]
  by_cases h1 : bp > p ∧ bp < (h.mem p).ptr
  · rw [if_pos h1]
    exact (if_pos (.inl h1)).symm
  · rw [if_neg h1]
    exact if_congr (or_iff_right h1).symm rfl rfl

/-- The search follows a path. -/
theorem find_of_path {h : Heap} {bp p : ℕ} (hp : h.Stops bp p) {m : List ℕ} :
    ∀ {x z : ℕ}, Path h.next x m z → p ∈ x :: m → (∀ y ∈ x :: m, h.Stops bp y → y = p) →
      ∀ {fuel : ℕ}, m.length < fuel → h.find bp fuel x = some p := by
  induction m with
  | nil =>
    intro x z _ hmem _ fuel hf
    obtain ⟨k, rfl⟩ := Nat.exists_eq_add_of_lt hf
    obtain rfl := mem_singleton.mp hmem
    rw [find_succ, if_pos hp]
  | cons y m ih =>
    intro x z hpath hmem hstop fuel hf
    obtain ⟨hx, hpath⟩ := path_cons.mp hpath
    obtain ⟨hsx, hsm⟩ := forall_mem_cons.mp hstop
    obtain ⟨k, rfl⟩ := Nat.exists_eq_add_of_lt hf
    rw [find_succ]
    by_cases hc : h.Stops bp x
    · rw [if_pos hc, hsx hc]
    · rw [if_neg hc, hx]
      refine ih hpath ?_ hsm (by rw [length_cons]; omega)
      rcases mem_cons.mp hmem with rfl | hmem
      · exact absurd hp hc
      · exact hmem

/-- The successor in a list that is sorted: the end of the path after the last node, and the next
larger node after the others. -/
theorem next_cases {next : ℕ → ℕ} {l : List ℕ} : ∀ {x z : ℕ}, Path next x l z →
    (x :: l).Pairwise (· < ·) → ∀ y ∈ x :: l,
      next y = z ∧ (∀ w ∈ x :: l, w ≤ y) ∨
        y < next y ∧ ∀ w ∈ x :: l, w ≤ y ∨ next y ≤ w := by
  induction l with
  | nil =>
    intro x z hp _ y hy
    obtain rfl := mem_singleton.mp hy
    exact .inl ⟨path_nil.mp hp, fun w hw => (mem_singleton.mp hw).le⟩
  | cons a l ih =>
    intro x z hp hs y hy
    obtain ⟨hx, hp⟩ := path_cons.mp hp
    obtain ⟨hlt, hs'⟩ := pairwise_cons.mp hs
    rcases mem_cons.mp hy with rfl | hy
    · refine .inr ⟨hx ▸ hlt a mem_cons_self, fun w hw => ?_⟩
      rcases mem_cons.mp hw with rfl | hw
      · exact .inl le_rfl
      · refine .inr (hx ▸ ?_)
        rcases mem_cons.mp hw with rfl | hw
        · exact le_rfl
        · exact ((pairwise_cons.mp hs').1 w hw).le
    · have hxy := hlt y hy
      rcases ih hp hs' y hy with ⟨hn, hle⟩ | ⟨hn, hle⟩
      · exact .inl ⟨hn, forall_mem_cons.mpr ⟨hxy.le, hle⟩⟩
      · exact .inr ⟨hn, forall_mem_cons.mpr ⟨.inl hxy.le, hle⟩⟩

namespace Ready

variable {base lo : ℕ} {h : Heap} {T A C : List Tile} {bp p : ℕ}

variable (hr : Ready base lo h T)
include hr

theorem sorted : (base :: frees lo T).Pairwise (· < ·) := by
  refine .cons (fun b hb => ?_) (frees_pairwise hr.ok)
  have hle := hr.base_le
  have hmem := mem_frees hr.ok hb
  omega

theorem nodup : (base :: frees lo T).Nodup := hr.sorted.imp ne_of_lt

/-- The loop of `free` ends at the last node before the block. -/
theorem stops_iff (hbase : base < bp) (hbp : bp ∉ base :: frees lo T)
    {y : ℕ} (hy : y ∈ base :: frees lo T) :
    h.Stops bp y ↔ y < bp ∧ ∀ w ∈ base :: frees lo T, w < bp → w ≤ y := by
  have hle : base ≤ y := by
    rcases mem_cons.mp hy with rfl | hy
    · exact le_rfl
    · exact ((pairwise_cons.mp hr.sorted).1 y hy).le
  unfold Heap.Stops
  rcases next_cases (circular_cons.mp hr.circular) hr.sorted y hy with ⟨hn, hlast⟩ | ⟨hn, hnext⟩
  · rw [hn]
    refine ⟨fun hs => ⟨by omega, fun w hw _ => hlast w hw⟩, fun hs => .inr ⟨hle, .inl hs.1⟩⟩
  · refine ⟨fun hs => ⟨by omega, fun w hw hwb => ?_⟩, fun ⟨hlt, hmax⟩ => .inl ⟨hlt, ?_⟩⟩
    · rcases hnext w hw with hw | hw <;> omega
    · by_contra hc
      have hmem := hr.circular.next_mem hy
      have hnb : h.next y ≠ bp := fun hc => hbp (hc ▸ hmem)
      have := hmax _ hmem (by omega)
      omega

/-- **The search ends** at the last node before the block. -/
theorem find_eq (hbase : base < bp) (hbp : bp ∉ base :: frees lo T)
    (hp : p ∈ base :: frees lo T) (hlt : p < bp) (hmax : ∀ w ∈ base :: frees lo T, w < bp → w ≤ p)
    {fuel : ℕ} (hf : (frees lo T).length < fuel) : h.find bp fuel h.freep = some p := by
  obtain ⟨m, hrot, hpath⟩ := hr.circular.exists_path hr.freep
  have hmem : ∀ y, y ∈ h.freep :: m ↔ y ∈ base :: frees lo T := fun y => hrot.perm.mem_iff.symm
  have hlen : m.length = (frees lo T).length := by
    have := hrot.perm.length_eq
    simp only [length_cons] at this
    omega
  refine find_of_path ((hr.stops_iff hbase hbp hp).mpr ⟨hlt, hmax⟩) hpath ((hmem p).mpr hp)
    (fun y hy hs => ?_) (hlen ▸ hf)
  obtain ⟨hy', hmax'⟩ := (hr.stops_iff hbase hbp ((hmem y).mp hy)).mp hs
  exact le_antisymm (hmax y ((hmem y).mp hy) hy') (hmax' p hp hlt)

end Ready

/-! ### Joining -/

section Join

variable {base lo : ℕ} {h : Heap} {A C C₁ : List Tile} {G : List ℕ} {p bp r s s₁ n : ℕ}

/-- The block of size `s` at `bp`, together with the free block after it if there is one: it has
the size `s₁`, the blocks after it are `C₁`, and `r` is the next free block. -/
structure Joined (h : Heap) (p bp s : ℕ) (C : List Tile) (G : List ℕ) (r s₁ : ℕ) (C₁ : List Tile) :
    Prop where
  total_eq : s₁ + total C₁ = s + total C
  le : s ≤ s₁
  lives_eq : lives (bp + 8 * s₁) C₁ = lives (bp + 8 * s) C
  sizes : Sizes h.mem (bp + 8 * s₁) C₁
  ok : ∀ x ∈ C₁, x.Ok
  apart : (⟨s₁, none⟩ :: C₁ : List Tile).IsChain Apart
  circular : Circular (update h.next p r) (p :: (frees (bp + 8 * s₁) C₁ ++ G))

/-- The block is joined to the one after it. -/
theorem joinUpper_eq (hbp : (h.mem bp).size = s)
    (hsizes : Sizes h.mem (bp + 8 * s) C) (hok : ∀ x ∈ C, x.Ok) (hapart : C.IsChain Apart)
    (hcirc : Circular h.next (p :: (frees (bp + 8 * s) C ++ G)))
    (hnodup : (p :: (frees (bp + 8 * s) C ++ G)).Nodup) (hp : p < bp) (hG : ∀ w ∈ G, w < bp) :
    ∃ r s₁ C₁, h.joinUpper p bp = h.set bp ⟨r, s₁⟩ ∧ Joined h p bp s C G r s₁ C₁ := by
  -- If the next block is not free, then the next free block is not right after this one.
  have hlive : C.head?.bind Tile.use ≠ none ∨ C = [] →
      h.joinUpper p bp = h.set bp ⟨h.next p, s⟩ := by
    intro hC
    have hmem := hcirc.next_mem mem_cons_self
    have hne : ¬bp + 8 * (h.mem bp).size = (h.mem p).ptr := by
      rw [hbp]
      intro he
      change bp + 8 * s = h.next p at he
      rw [← he, mem_cons, mem_append] at hmem
      rcases hmem with hmem | hmem | hmem
      · omega
      · obtain _ | ⟨⟨s', _ | k⟩, C⟩ := C
        · cases hmem
        · rcases hC with hC | hC
          · exact hC rfl
          · cases hC
        · obtain ⟨hx, hok⟩ := forall_mem_cons.mp hok
          have hpos : 0 < s' := hx.1
          have := mem_frees hok hmem
          omega
      · have := hG _ hmem
        omega
    unfold Heap.joinUpper
    simp only [if_neg hne]
    rw [← hbp]
    rfl
  have hsame : ∀ s₁ C₁, s₁ = s → C₁ = C → (⟨s, none⟩ :: C : List Tile).IsChain Apart →
      Joined h p bp s C G (h.next p) s₁ C₁ := by
    rintro _ _ rfl rfl hap
    refine ⟨rfl, le_rfl, rfl, hsizes, hok, hap, ?_⟩
    rwa [update_eq_self]
  obtain _ | ⟨⟨s', _ | k⟩, C⟩ := C
  · exact ⟨_, s, [], hlive (.inr rfl), hsame s [] rfl rfl (.singleton _)⟩
  · -- The next block is free.
    have hq : h.next p = bp + 8 * s := (path_cons.mp (circular_cons.mp hcirc)).1
    have hsize : (h.mem (bp + 8 * s)).size = s' := hsizes.1
    have hend : bp + 8 * s + 8 * s' = bp + 8 * (s + s') := by omega
    refine ⟨h.next (bp + 8 * s), s + s', C, ?_, ?_⟩
    · unfold Heap.joinUpper
      have hq' : (h.mem p).ptr = bp + 8 * s := hq
      simp only [hq', hbp, if_pos, hsize]
      rfl
    · obtain ⟨-, hok⟩ := forall_mem_cons.mp hok
      have herase := hcirc.erase hnodup
      rw [hend] at herase
      refine ⟨by rw [total_mk]; omega, by omega, ?_, ?_, hok, ?_, herase⟩
      · rw [lives, hend]
      · rw [← hend]
        exact hsizes.2
      · rw [isChain_cons] at hapart ⊢
        exact hapart
  · refine ⟨_, s, ⟨s', some k⟩ :: C, hlive (.inl (Option.some_ne_none k)), hsame _ _ rfl rfl ?_⟩
    exact isChain_cons_cons.mpr ⟨.inr (Option.some_ne_none k), hapart⟩

/-- A free block that does not come last does not reach the end. -/
theorem end_lt {mem : ℕ → Header} {a b : ℕ} (hsizes : Sizes mem a A) (hok : ∀ x ∈ A, x.Ok)
    (hlast : ∀ x ∈ A.getLast?, x.use ≠ none) (hb : b ∈ frees a A) :
    b + 8 * (mem b).size < a + 8 * total A := by
  induction A generalizing a with
  | nil => cases hb
  | cons x A ih =>
    obtain ⟨hx, hA⟩ := forall_mem_cons.mp hok
    obtain ⟨s, u⟩ := x
    rw [total_mk]
    have hnil : u = none → A ≠ [] := by
      rintro rfl rfl
      exact hlast _ rfl rfl
    have hlast' : ∀ x ∈ A.getLast?, x.use ≠ none := by
      intro x hxl
      refine hlast x ?_
      obtain _ | ⟨y, A⟩ := A
      · cases hxl
      · rwa [getLast?_cons_cons]
    have hrest : b ∈ frees (a + 8 * s) A → b + 8 * (mem b).size < a + 8 * (s + total A) := by
      intro hb
      have hlt : b + 8 * (mem b).size < a + 8 * s + 8 * total A := ih hsizes.2 hA hlast' hb
      omega
    obtain _ | k := u
    · rw [frees, mem_cons] at hb
      rcases hb with rfl | hb
      · have hsize : (mem b).size = s := hsizes.1
        obtain ⟨y, A', hA'⟩ := exists_cons_of_ne_nil (hnil rfl)
        have hpos : 0 < y.size := (hA y (hA' ▸ mem_cons_self)).1
        rw [hsize, hA', total_cons]
        omega
      · exact hrest hb
    · exact hrest hb

/-- The blocks before the address `bp`; `p` is the last free one, or `base`. -/
structure Before (base lo : ℕ) (h : Heap) (A : List Tile) (G : List ℕ) (p bp : ℕ) : Prop where
  base_pos : 0 < base
  base_le : base + 8 ≤ lo
  bp_eq : bp = lo + 8 * total A
  sizes : Sizes h.mem lo A
  ok : ∀ x ∈ A, x.Ok
  apart : A.IsChain Apart
  base_size : (h.mem base).size = 0
  nodes : base :: frees lo A = G ++ [p]

variable (hb : Before base lo h A G p bp)
include hb

theorem Before.node_le : ∀ b ∈ G ++ [p], b + 8 ≤ bp := by
  rw [← hb.nodes, hb.bp_eq]
  have := hb.base_le
  exact forall_mem_cons.mpr ⟨by omega, fun b hm => (mem_frees hb.ok hm).2⟩

theorem Before.le : p + 8 ≤ bp :=
  hb.node_le p (mem_append_right _ (mem_singleton_self p))

theorem Before.sorted : (G ++ [p]).Pairwise (· < ·) := by
  rw [← hb.nodes]
  refine .cons (fun b hm => ?_) (frees_pairwise hb.ok)
  have := mem_frees hb.ok hm
  have := hb.base_le
  omega

omit hb

variable (hj : Joined h p bp s C G r s₁ C₁)
include hj

include hb

/-- A node of the list is not the block itself. -/
theorem Joined.node_ne
    (hs : 0 < s) : ∀ b ∈ p :: (frees (bp + 8 * s₁) C₁ ++ G), b ≠ bp := by
  have hle := hj.le
  refine forall_mem_cons.mpr ⟨by have := hb.le; omega, fun b hm => ?_⟩
  rcases mem_append.mp hm with hm | hm
  · have := mem_frees hj.ok hm
    omega
  · have := hb.node_le b (mem_append_left _ hm)
    omega

theorem Joined.nodup :
    (p :: (frees (bp + 8 * s₁) C₁ ++ G)).Nodup := by
  have hnodup : (G ++ [p] ++ frees (bp + 8 * s₁) C₁).Nodup := by
    refine (pairwise_append.mpr
      ⟨hb.sorted, frees_pairwise hj.ok, fun b hm c hc => ?_⟩).imp ne_of_lt
    have := hb.node_le b hm
    have := mem_frees hj.ok hc
    omega
  rwa [append_assoc, singleton_append, nodup_append_comm] at hnodup

/-- **The block is linked to the free block before it**, if they are not adjacent. -/
theorem Joined.link
    (hs : 0 < s) (hbrk : h.brk = bp + 8 * (s + total C))
    (hlast : ∀ x ∈ A.getLast?, x.use ≠ none) :
    Ready base lo { (h.set bp ⟨r, s₁⟩).joinLower p bp with freep := p }
      (A ++ ⟨s₁, none⟩ :: C₁) := by
  have hle := hj.le
  have htotal := hj.total_eq
  have hbp := hb.bp_eq
  have hpb := hb.le
  have hbase_le := hb.base_le
  have hpmem : (h.set bp ⟨r, s₁⟩).mem p = h.mem p := update_of_ne (by omega) ..
  have hne : ¬p + 8 * ((h.set bp ⟨r, s₁⟩).mem p).size = bp := by
    rw [hpmem]
    have hmem : p ∈ base :: frees lo A := by
      rw [hb.nodes]
      exact mem_append_right _ (mem_singleton_self p)
    rcases mem_cons.mp hmem with rfl | hmem
    · rw [hb.base_size]
      omega
    · have := end_lt hb.sizes hb.ok hlast hmem
      omega
  have hnodes : base :: frees lo (A ++ ⟨s₁, none⟩ :: C₁) =
      G ++ p :: bp :: frees (bp + 8 * s₁) C₁ := by
    rw [frees_append, frees, ← hbp, ← cons_append, hb.nodes, append_assoc]
    rfl
  rw [Heap.joinLower, if_neg hne, hpmem]
  have hsame : ∀ c, c ≠ bp → ((update (update h.mem bp ⟨r, s₁⟩) p
      { h.mem p with ptr := bp }) c).size = (h.mem c).size := by
    intro c hc
    by_cases hcp : c = p
    · rw [hcp, update_self]
    · rw [update_of_ne hcp, update_of_ne hc]
  refine ⟨hb.base_pos, hbase_le, ?_, sizes_append.mpr ⟨?_, ?_, ?_⟩, ?_, ?_, ?_, ?_, ?_⟩
  · change h.brk = _
    rw [total_append, total_mk, hbrk]
    omega
  · exact hb.sizes.congr hb.ok fun c _ hc => hsame c (by omega)
  · rw [← hbp]
    change (update (update h.mem bp ⟨r, s₁⟩) p _ bp).size = s₁
    rw [update_of_ne (by omega), update_self]
  · rw [← hbp]
    exact hj.sizes.congr hj.ok fun c hc _ => hsame c (by omega)
  · refine forall_mem_append.mpr ⟨hb.ok, forall_mem_cons.mpr ⟨?_, hj.ok⟩⟩
    exact Tile.ok_none (by omega)
  · exact isChain_append.mpr ⟨hb.apart, hj.apart, fun x hx y _ => .inl (hlast x hx)⟩
  · exact (hsame base (by omega)).trans hb.base_size
  · rw [hnodes]
    exact mem_append_right _ mem_cons_self
  · rw [hnodes]
    have hins := hj.circular.insert (fun hmem => hj.node_ne hb hs bp hmem rfl) (hj.nodup hb)
    refine (hins.congr fun c _ => ?_).rotated
      (List.IsRotated.symm ⟨G.length, rotate_append_length_eq ..⟩)
    change ((update (update h.mem bp ⟨r, s₁⟩) p
      { h.mem p with ptr := bp }) c).ptr = _
    by_cases hcp : c = p
    · rw [hcp, update_self, update_self]
    · rw [update_of_ne hcp, update_of_ne hcp]
      by_cases hcb : c = bp
      · rw [hcb, update_self, update_self, update_self]
      · rw [update_of_ne hcb, update_of_ne hcb, update_of_ne hcp]
        rfl

omit hb

omit hj

/-- **The block is joined to the free block before it.** -/
theorem Joined.merge {A' : List Tile} {s' : ℕ} (hj : Joined h p bp s C G r s₁ C₁)
    (hb : Before base lo h (A' ++ [⟨s', none⟩]) G p bp) (hs : 0 < s)
    (hbrk : h.brk = bp + 8 * (s + total C)) :
    Ready base lo { (h.set bp ⟨r, s₁⟩).joinLower p bp with freep := p }
      (A' ++ ⟨s' + s₁, none⟩ :: C₁) := by
  have hle := hj.le
  have htotal := hj.total_eq
  have hpb := hb.le
  have hbase_le := hb.base_le
  -- The free block before the address is the last one of the list.
  have hsplit : base :: frees lo A' ++ [lo + 8 * total A'] = G ++ [p] := by
    rw [← hb.nodes, frees_append]
    rfl
  obtain ⟨rfl, hp⟩ := append_inj' hsplit rfl
  have hp' : lo + 8 * total A' = p := singleton_inj.mp hp
  have hend : bp = p + 8 * s' := by
    rw [hb.bp_eq, total_append, total_mk, total_nil]
    omega
  obtain ⟨hsizes, hsize⟩ := sizes_append.mp hb.sizes
  rw [hp'] at hsize
  have hs' : (h.mem p).size = s' := hsize.1
  obtain ⟨hok, -⟩ := forall_mem_append.mp hb.ok
  obtain ⟨hapart, -, hlast⟩ := isChain_append.mp hb.apart
  have hpmem : (h.set bp ⟨r, s₁⟩).mem p = h.mem p := update_of_ne (by omega) ..
  have hbpmem : (h.set bp ⟨r, s₁⟩).mem bp = ⟨r, s₁⟩ := update_self ..
  have heq : p + 8 * ((h.set bp ⟨r, s₁⟩).mem p).size = bp := by rw [hpmem, hs', hend]
  have hloc : p + 8 * (s' + s₁) = bp + 8 * s₁ := by omega
  have hfrees : frees lo (A' ++ ⟨s' + s₁, none⟩ :: C₁) =
      frees lo A' ++ p :: frees (bp + 8 * s₁) C₁ := by
    rw [frees_append, frees, hp', hloc]
  rw [Heap.joinLower, if_pos heq, hpmem, hbpmem, hs']
  have hsame : ∀ c, c ≠ bp → c ≠ p →
      (update (update h.mem bp ⟨r, s₁⟩) p ⟨r, s' + s₁⟩) c = h.mem c := by
    intro c hc hcp
    rw [update_of_ne hcp, update_of_ne hc]
  refine ⟨hb.base_pos, hbase_le, ?_, sizes_append.mpr ⟨?_, ?_, ?_⟩, ?_, ?_, ?_, ?_, ?_⟩
  · change h.brk = _
    rw [total_append, total_mk, hbrk]
    omega
  · exact hsizes.congr hok fun c _ hc => congrArg Header.size (hsame c (by omega) (by omega))
  · rw [hp']
    change (update (update h.mem bp ⟨r, s₁⟩) p _ p).size = _
    rw [update_self]
  · rw [hp', hloc]
    exact hj.sizes.congr hj.ok fun c hc _ =>
      congrArg Header.size (hsame c (by omega) (by omega))
  · refine forall_mem_append.mpr ⟨hok, forall_mem_cons.mpr ⟨?_, hj.ok⟩⟩
    exact Tile.ok_none (by omega)
  · refine isChain_append.mpr ⟨hapart, ?_, fun x hx y hy => ?_⟩
    · have := hj.apart
      rw [isChain_cons] at this ⊢
      exact this
    · obtain rfl := Option.some.inj hy
      exact hlast x hx ⟨s', none⟩ rfl
  · change (update (update h.mem bp ⟨r, s₁⟩) _ _ base).size = 0
    rw [hsame base (by omega) (by omega), hb.base_size]
  · rw [hfrees]
    exact mem_cons_of_mem _ (mem_append_right _ mem_cons_self)
  · rw [hfrees, ← cons_append]
    refine (hj.circular.congr fun c hc => ?_).rotated
      (List.IsRotated.symm ⟨_, rotate_append_length_eq ..⟩)
    change ((update (update h.mem bp ⟨r, s₁⟩) p ⟨r, s' + s₁⟩) c).ptr = _
    by_cases hcp : c = p
    · rw [hcp, update_self, update_self]
    · rw [hsame c (hj.node_ne hb hs c hc) hcp, update_of_ne hcp]
      rfl

/-- The block is free then, alone or together with the one before it. -/
theorem Joined.ready (hj : Joined h p bp s C G r s₁ C₁) (hb : Before base lo h A G p bp)
    (hs : 0 < s) (hbrk : h.brk = bp + 8 * (s + total C)) :
    ∃ T, Ready base lo { (h.set bp ⟨r, s₁⟩).joinLower p bp with freep := p } T ∧
      lives lo T = lives lo A ++ lives (bp + 8 * s) C ∧ ∃ x ∈ T, x.use = none ∧ s ≤ x.size := by
  have hle := hj.le
  have hbp := hb.bp_eq
  by_cases hlast : ∀ x ∈ A.getLast?, x.use ≠ none
  · refine ⟨_, hj.link hb hs hbrk hlast, ?_, ⟨s₁, none⟩, by simp, rfl, hle⟩
    rw [lives_append, lives, ← hbp, hj.lives_eq]
  · simp only [not_forall, not_not] at hlast
    obtain ⟨⟨s', u⟩, hx, hu⟩ := hlast
    obtain rfl : u = none := hu
    obtain ⟨A', rfl⟩ := getLast?_eq_some_iff.mp hx
    refine ⟨_, hj.merge hb hs hbrk, ?_, ⟨s' + s₁, none⟩, by simp, rfl, by simp only; omega⟩
    have hloc : lo + 8 * total A' + 8 * (s' + s₁) = bp + 8 * s₁ := by
      rw [hbp, total_append, total_mk, total_nil]
      omega
    rw [lives_append, lives, hloc, hj.lives_eq, lives_append, lives, lives, append_nil]

end Join

/-- **`free` ends, and the block is free then.** -/
theorem Ready.free {base lo s n : ℕ} {h : Heap} {A C : List Tile}
    (hr : Ready base lo h (A ++ ⟨s, some n⟩ :: C)) :
    ∃ h' T, (∀ fuel, (frees lo (A ++ ⟨s, some n⟩ :: C)).length < fuel →
        h.free fuel (lo + 8 * total A + 8) = some h') ∧ Ready base lo h' T ∧
      lives lo T = lives lo A ++ lives (lo + 8 * total A + 8 * s) C ∧
        ∃ x ∈ T, x.use = none ∧ s ≤ x.size := by
  obtain ⟨hokA, hokC⟩ := forall_mem_append.mp hr.ok
  obtain ⟨hok, hokC⟩ := forall_mem_cons.mp hokC
  obtain ⟨hsA, hsize, hsC⟩ := sizes_append.mp hr.sizes
  obtain ⟨hapA, hapC, -⟩ := isChain_append.mp hr.apart
  have hs : 0 < s := hok.1
  have hsize : (h.mem (lo + 8 * total A)).size = s := hsize
  obtain ⟨G, p, hG⟩ : ∃ G p, base :: frees lo A = G ++ [p] :=
    ⟨_, _, (dropLast_append_getLast (cons_ne_nil _ _)).symm⟩
  set bp := lo + 8 * total A with hbp
  have hb : Before base lo h A G p bp :=
    ⟨hr.base_pos, hr.base_le, hbp, hsA, hokA, hapA, hr.base_size, hG⟩
  have hnodes : base :: frees lo (A ++ ⟨s, some n⟩ :: C) = G ++ p :: frees (bp + 8 * s) C := by
    rw [frees_append, ← cons_append, hG, append_assoc]
    rfl
  have hrot : G ++ p :: frees (bp + 8 * s) C ~r p :: (frees (bp + 8 * s) C ++ G) :=
    ⟨G.length, rotate_append_length_eq ..⟩
  have hpb := hb.le
  have hGb : ∀ w ∈ G, w < bp := fun w hw => by
    have := hb.node_le w (mem_append_left _ hw)
    omega
  have hafter : ∀ w ∈ frees (bp + 8 * s) C, bp < w := fun w hw => by
    have := mem_frees hokC hw
    omega
  have hfind : ∀ fuel, (frees lo (A ++ ⟨s, some n⟩ :: C)).length < fuel →
      h.find bp fuel h.freep = some p := by
    intro fuel hf
    have hbase := hr.base_le
    refine hr.find_eq (by omega) ?_ ?_ (by omega) ?_ hf
    · rw [hnodes, mem_append, mem_cons]
      rintro (hm | rfl | hm)
      · exact (hGb _ hm).ne rfl
      · omega
      · exact (hafter _ hm).ne rfl
    · rw [hnodes]
      exact mem_append_right _ mem_cons_self
    · rw [hnodes]
      intro w hw hlt
      rcases mem_append.mp hw with hw | hw
      · exact ((pairwise_append.mp hb.sorted).2.2 w hw p (mem_singleton_self p)).le
      · rcases mem_cons.mp hw with rfl | hw
        · exact le_rfl
        · exact absurd (hafter w hw) hlt.asymm
  have hcirc := hr.circular
  have hnodup := hr.nodup
  rw [hnodes] at hcirc hnodup
  obtain ⟨r, s₁, C₁, hupper, hj⟩ := joinUpper_eq hsize hsC hokC hapC.tail
    (hcirc.rotated hrot) (hrot.nodup_iff.mp hnodup) (by omega) hGb
  obtain ⟨T, hready, hlives, hx⟩ := hj.ready hb hs (by rw [hr.brk, total_append, total_mk]; omega)
  refine ⟨_, T, fun fuel hf => ?_, hready, hlives, hx⟩
  rw [Heap.free, Nat.add_sub_cancel, hfind fuel hf, ← hupper]
  rfl

end Xv6.Malloc
