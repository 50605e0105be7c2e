import Xv6.Malloc.Machine

/-!
# How much can be asked for

`malloc` should return a null pointer, or a pointer to as many mapped bytes as it was asked for that
are in no other block (`Xv6.Malloc.Proper`). It does so if the number of bytes for `sbrk` is positive,
also as a number with a sign, which it is for requests below `2 ^ 31 - 15` bytes. For larger ones the
kernel takes memory away, or does nothing, and does not say that it has failed. Then `morecore` runs
into a fault, or a block is put into the list that is nearly all outside of the memory. For the
largest seven requests the number of headers wraps around to one, and `malloc` returns a pointer to
no byte at all.

**So `malloc` is right for just the small requests**, and for the largest ones if it cannot find
a single header (`Xv6.Malloc.malloc_iff`).
-/

namespace Xv6.Malloc

open Lib List
open Vm (uint KERNBASE PGSIZE PGROUNDUP)

variable {base lo n nu nunits b top p bp k q : ℕ} {h h' : Heap} {T T' : List Tile}
  {live : List (ℕ × ℕ)} {s : Machine} {ok : List Bool} {a : Bool} {w : ℕ → ℕ}

/-! ### The break

`free`, `take` and the loop do not read the break, which is in the kernel. -/

/-- The same heap with another break. -/
def Heap.withBrk (h : Heap) (b : ℕ) : Heap := { h with brk := b }

theorem find_withBrk : (h.withBrk b).find bp k p = h.find bp k p := by
  induction k generalizing p with
  | zero => rfl
  | succ k ih =>
    rw [find_succ, find_succ]
    exact if_congr Iff.rfl rfl ih

theorem joinUpper_withBrk :
    (h.withBrk b).joinUpper p bp w = (h.joinUpper p bp w).withBrk b := by
  by_cases hc : w (bp + 8 * (h.mem bp).size) = (h.mem p).ptr
  · have heq : h.joinUpper p bp w = _ := if_pos hc
    rw [heq]
    exact if_pos hc
  · have heq : h.joinUpper p bp w = _ := if_neg hc
    rw [heq]
    exact if_neg hc

theorem joinLower_withBrk :
    (h.withBrk b).joinLower p bp w = (h.joinLower p bp w).withBrk b := by
  by_cases hc : w (p + 8 * (h.mem p).size) = bp
  · have heq : h.joinLower p bp w = _ := if_pos hc
    rw [heq]
    exact if_pos hc
  · have heq : h.joinLower p bp w = _ := if_neg hc
    rw [heq]
    exact if_neg hc

theorem free_withBrk {ap : ℕ} :
    (h.withBrk b).free k ap w = (h.free k ap w).map (Heap.withBrk · b) := by
  rw [Heap.free, Heap.free, Option.map_map, find_withBrk]
  refine congrArg (fun f => Option.map f _) (funext fun p => ?_)
  rw [joinUpper_withBrk, joinLower_withBrk]
  rfl

theorem take_withBrk : (h.withBrk b).take nunits q p =
    ((h.take nunits q p).1.withBrk b, (h.take nunits q p).2) := by
  by_cases hc : (h.mem p).size = nunits
  · have heq : h.take nunits q p = _ := if_pos hc
    rw [heq]
    exact if_pos hc
  · have heq : h.take nunits q p = _ := if_neg hc
    rw [heq]
    exact if_neg hc

theorem take_brk : (h.take nunits q p).1.brk = h.brk := by
  rw [Heap.take]
  split_ifs
  · rfl
  · rfl

theorem joinUpper_brk : (h.joinUpper p bp).brk = h.brk := by
  by_cases hc : bp + 8 * (h.mem bp).size = (h.mem p).ptr
  · have heq : h.joinUpper p bp = _ := if_pos hc
    rw [heq]
    rfl
  · have heq : h.joinUpper p bp = _ := if_neg hc
    rw [heq]
    rfl

theorem joinLower_brk : (h.joinLower p bp).brk = h.brk := by
  rw [Heap.joinLower]
  split_ifs
  · rfl
  · rfl

theorem free_brk {ap : ℕ} (hf : h.free k ap = some h') : h'.brk = h.brk := by
  obtain ⟨p, -, rfl⟩ := Option.map_eq_some_iff.mp hf
  exact joinLower_brk.trans joinUpper_brk

/-! ### Where nothing wraps around -/

/-- A free block lies in the memory of the heap. -/
theorem Ready.node_le (hr : Ready base lo h T) {y : ℕ} (hy : y ∈ base :: frees lo T) :
    y + h.bytes y ≤ h.brk := by
  have hbase := hr.base_le
  have hbrk := hr.brk
  rcases mem_cons.mp hy with rfl | hy
  · rw [Heap.bytes, hr.base_size]
    omega
  · have hmem := perm_starts.mem_iff.mp (mem_append_left _ hy)
    have := mem_starts hr.sizes hr.ok hmem
    omega

/-- A block is taken out of the memory below `2 ^ 32`. -/
theorem Ready.machine_take (hr : Ready base lo h T) (hbrk : h.brk < 2 ^ 32 + 8 * nunits)
    (hq : q ∈ base :: frees lo T) (hsize : nunits ≤ (h.mem (h.next q)).size) :
    (h.withBrk b).take nunits q (h.next q) word =
      ((h.take nunits q (h.next q)).1.withBrk b, (h.take nunits q (h.next q)).2) := by
  have hle := hr.node_le (hr.circular.next_mem hq)
  rw [Heap.bytes] at hle
  rw [← take_withBrk, Heap.take, Heap.take]
  refine if_congr Iff.rfl rfl ?_
  have hhead : (((h.withBrk b).set (h.next q) { (h.withBrk b).mem (h.next q) with
      size := ((h.withBrk b).mem (h.next q)).size - nunits }).mem (h.next q)).size =
        (h.mem (h.next q)).size - nunits := by
    rw [Heap.set_mem_self]
    rfl
  simp only [hhead]
  rw [word, Nat.mod_eq_of_lt (by omega)]

/-- The block that comes last is freed. -/
theorem Ready.machine_free (hr : Ready base lo h (T ++ [⟨nu, some n⟩]))
    (hbp : lo + 8 * total T < 2 ^ 31) (hnu : nu ≤ 2 ^ 29)
    (hne : (lo + 8 * total T + 8 * nu) % 2 ^ 32 ≠ base)
    (hk : (frees lo (T ++ [⟨nu, some n⟩])).length < k) :
    h.free k (lo + 8 * total T + 8) word = h.free k (lo + 8 * total T + 8) := by
  set bp := lo + 8 * total T with hbp'
  have hfrees : frees lo (T ++ [⟨nu, some n⟩]) = frees lo T := by
    rw [frees_append, frees, frees, append_nil]
  have hbase := hr.base_le
  have hsizes := (sizes_append.mp hr.sizes).1
  have hok := (forall_mem_append.mp hr.ok).1
  have hbps : (h.mem bp).size = nu := hr.size_eq
  -- The search ends at the last node, after which comes `base`.
  obtain ⟨G, p, hG⟩ : ∃ G p, base :: frees lo T = G ++ [p] :=
    ⟨_, _, (dropLast_append_getLast (cons_ne_nil _ _)).symm⟩
  have hsorted := hr.sorted
  have hcirc := hr.circular
  rw [hfrees] at hsorted hcirc
  have hle : ∀ w ∈ base :: frees lo T, w ≤ p := by
    rw [hG]
    intro w hw
    rcases mem_append.mp hw with hw | hw
    · rw [hG] at hsorted
      exact ((pairwise_append.mp hsorted).2.2 w hw p (mem_singleton_self p)).le
    · exact (mem_singleton.mp hw).le
  have hp : p ∈ base :: frees lo T := by
    rw [hG]
    exact mem_append_right _ (mem_singleton_self p)
  have hpb : ∀ w ∈ base :: frees lo T, w + 8 ≤ bp ∧ w + 8 * (h.mem w).size ≤ bp := by
    intro w hw
    rcases mem_cons.mp hw with rfl | hw
    · rw [hr.base_size]
      omega
    · have hmem := perm_starts.mem_iff.mp (mem_append_left _ hw)
      exact ⟨(mem_frees hok hw).2, (mem_starts hsizes hok hmem).2.2⟩
  obtain ⟨hp8, hps⟩ := hpb p hp
  have hfind : h.find bp k h.freep = some p := by
    refine hr.find_eq (by omega) (fun hm => ?_) (hfrees ▸ hp) (by omega)
      (fun w hw _ => hle w (hfrees ▸ hw)) hk
    rw [hfrees] at hm
    have := hpb bp hm
    omega
  have hnext : h.next p = base := by
    rcases next_cases (circular_cons.mp hcirc) hsorted p hp with ⟨hn, -⟩ | ⟨hn, -⟩
    · exact hn
    · have := hle _ (hcirc.next_mem hp)
      omega
  have hupper : h.joinUpper p bp word = h.joinUpper p bp := by
    unfold Heap.joinUpper word
    have hq : (h.mem p).ptr = base := hnext
    simp only [hq, hbps]
    rw [if_neg hne, if_neg (by omega)]
  have hupper' : h.joinUpper p bp = h.set bp { h.mem bp with ptr := base } := by
    unfold Heap.joinUpper
    have hq : (h.mem p).ptr = base := hnext
    simp only [hq, hbps]
    rw [if_neg (by omega)]
  have hlower : (h.joinUpper p bp).joinLower p bp word = (h.joinUpper p bp).joinLower p bp := by
    have hpm : (h.joinUpper p bp).mem p = h.mem p := by
      rw [hupper']
      exact Function.update_of_ne (by omega) ..
    have hbm : ((h.joinUpper p bp).mem bp).size = nu := by
      rwa [hupper', Heap.set_mem_self]
    unfold Heap.joinLower word
    rw [hpm, hbm, Nat.mod_eq_of_lt (by omega), Nat.mod_eq_of_lt (by omega)]
  rw [Heap.free, Heap.free, Nat.add_sub_cancel, hfind, Option.map_some, Option.map_some, hupper,
    hlower]

/-! ### The loop -/

/-- The loop looks for a large block on the way to `freep`. -/
theorem machine_scans : Scans s.heap.next s.heap.freep (fun p => nunits ≤ (s.heap.mem p).size)
    (fun q p => .ok (⟨(s.heap.take nunits q p word).1, s.top⟩,
      some (s.heap.take nunits q p word).2))
    (fun k => (s.morecore lo k nunits (ok.headD false)).bind fun x =>
      x.2.elim (.ok (x.1, none)) fun p =>
        Machine.mallocLoop lo nunits k x.1 ok.tail p (x.1.heap.next p))
    (fun k => Machine.mallocLoop lo nunits k s ok) := by
  intro k q p
  refine (Machine.mallocLoop.eq_2 ..).trans ?_
  refine if_congr Iff.rfl rfl (if_congr Iff.rfl ?_ rfl)
  congr 1
  funext x
  obtain ⟨s', _ | p⟩ := x
  · rfl
  · rfl

/-- There is a large block. -/
theorem Ready.machine_found (hr : Ready base lo h T) (hn : n + 8 ≤ 8 * nunits)
    (hbrk : h.brk < 2 ^ 32 + 8 * nunits) (hlarge : ∃ y ∈ frees lo T, nunits ≤ (h.mem y).size)
    (b top : ℕ) (ok : List Bool) :
    ∃ h' p T', (∃ k₀, ∀ k, k₀ ≤ k →
        Machine.mallocLoop lo nunits k ⟨h.withBrk b, top⟩ ok h.freep (h.next h.freep) =
          .ok (⟨h'.withBrk b, top⟩, some p)) ∧
      Ready base lo h' T' ∧ h'.brk = h.brk ∧ (lives lo T').Perm ((p, n) :: lives lo T) := by
  obtain ⟨q, hq, hsize, hloop⟩ :=
    hr.found (@machine_scans lo nunits ⟨h.withBrk b, top⟩ ok) hlarge
  obtain ⟨T', hr', hlives⟩ := hr.take hn hq hsize
  rw [hr.machine_take hbrk hq hsize] at hloop
  exact ⟨_, _, T', hloop, hr', take_brk, hlives⟩

/-- A new block is put in behind the others. -/
theorem Ready.machine_extend (hr : Ready base lo h T) (hbrk : h.brk < 2 ^ 31) (hnu : 0 < nu)
    (hnu' : nu ≤ 2 ^ 29) (hne : (h.brk + 8 * nu) % 2 ^ 32 ≠ base) :
    ∃ h' T', (∃ k₀, ∀ k, k₀ ≤ k → ∀ b,
        ((h.withBrk b).set h.brk { (h.withBrk b).mem h.brk with size := nu }).free k (h.brk + 8) word =
          some (h'.withBrk b)) ∧
      Ready base lo h' T' ∧ h'.brk = h.brk + 8 * nu ∧ lives lo T' = lives lo T ∧
        ∃ y ∈ frees lo T', nu ≤ (h'.mem y).size := by
  have hr' := hr.extend (r := (h.mem h.brk).ptr) hnu
  obtain ⟨h', T', hfree, hready, hlives, x, hx, hu, hs⟩ := hr'.free
  obtain ⟨y, hy, hsize⟩ := hready.exists_free hx hu
  refine ⟨h', T', ⟨(frees lo (T ++ [⟨nu, some 0⟩])).length + 1, fun k hk b => ?_⟩, hready,
    free_brk (hfree _ (Nat.lt_succ_self _)), ?_, y, hy, by omega⟩
  · have hmachine := hr'.machine_free (by rw [← hr.brk]; exact hbrk) hnu'
      (by rw [← hr.brk]; exact hne) hk
    rw [hfree k hk, ← hr.brk] at hmachine
    have hheap : (h.withBrk b).set h.brk { (h.withBrk b).mem h.brk with size := nu } =
        Heap.withBrk { h.set h.brk ⟨(h.mem h.brk).ptr, nu⟩ with brk := h.brk + 8 * nu } b := rfl
    rw [hheap, free_withBrk, hmachine, Option.map_some]
  · rw [hlives, lives, append_nil]

/-- What `morecore` does after a call of `sbrk` that has not failed. -/
theorem morecore_eq {s₁ : Machine} {hp : ℕ} (hnu : (if nunits < 4096 then 4096 else nunits) = nu)
    (hs : s.sbrk lo a (nu * 8 % 2 ^ 32) = .ok (s₁, some hp)) (htop : hp + 8 ≤ s₁.top)
    (hfree : (s₁.heap.set hp { s₁.heap.mem hp with size := nu }).free k (hp + 8) word = some h') :
    s.morecore lo k nunits a = .ok (⟨h', s₁.top⟩, some h'.freep) := by
  rw [Machine.morecore]
  simp only [hnu, hs, Except.bind, if_neg htop.not_gt, hfree]

/-! ### Small requests -/

theorem withBrk_self (hb : h.brk = b) : h.withBrk b = h := by
  subst hb
  rfl

/-- A request for memory that the kernel can understand. -/
theorem sbrk_small {x : ℕ} (hpos : 0 < x) (hx : x < 2 ^ 31) (hbrk : h.brk < KERNBASE)
    (htop : lo ≤ top) (hlo : lo ≤ h.brk) : Machine.sbrk lo a ⟨h, top⟩ x =
      if a = true ∧ h.brk + x < KERNBASE then
        .ok (⟨h.withBrk (h.brk + x), PGROUNDUP (h.brk + x)⟩, some h.brk)
      else .ok (⟨h, top⟩, none) := by
  have hK : KERNBASE = 2 ^ 31 := rfl
  have hint : toInt x = x := if_pos hx
  have huint : uint (h.brk + (x : ℤ)) = h.brk + x := by
    rw [uint]
    omega
  have hgrow : growproc a ⟨h.brk, top⟩ x = if a = true ∧ h.brk + x < KERNBASE then
      ((⟨h.brk + x, PGROUNDUP (h.brk + x)⟩, true) : Space × Bool) else (⟨h.brk, top⟩, false) := by
    rw [growproc_pos (by omega), huint]
    by_cases hlt : h.brk + x < KERNBASE
    · rw [if_neg hlt.not_ge, if_neg (by omega), decide_eq_true (by omega : h.brk + x ≠ 0)]
      exact if_congr (and_iff_left hlt).symm rfl rfl
    · rw [if_pos (not_lt.mp hlt), if_neg fun hc => hlt hc.2]
  rw [Machine.sbrk, hint, hgrow]
  by_cases hc : a = true ∧ h.brk + x < KERNBASE
  · have hle := Vm.le_PGROUNDUP hc.2.le
    simp only [if_pos hc]
    rw [if_neg (by omega), if_pos trivial]
    rfl
  · simp only [if_neg hc]
    rw [if_neg htop.not_gt, if_neg Bool.false_ne_true]

/-- **Small requests**: nothing wraps around, and the result is a block, or nothing if there is
no large block and no memory. -/
theorem Ready.machine_small (hr : Ready base lo h T) (hn : n + 8 ≤ 8 * nunits)
    (hsmall : 8 * nunits < 2 ^ 31) (hbrk : h.brk < KERNBASE) (htop : top = PGROUNDUP h.brk)
    (ok : List Bool) :
    ∃ s' o, (∃ k₀, ∀ k, k₀ ≤ k →
        Machine.mallocLoop lo nunits k ⟨h, top⟩ ok h.freep (h.next h.freep) = .ok (s', o)) ∧
      (o = none ↔ (¬∃ y ∈ frees lo T, nunits ≤ (h.mem y).size) ∧
        (ok.headD false = false ∨ KERNBASE ≤ h.brk + 8 * max nunits 4096)) ∧
      s'.heap.brk ≤ s'.top ∧ s'.top ≤ KERNBASE ∧
      ∀ p ∈ o, ∃ T', Ready base lo s'.heap T' ∧ (lives lo T').Perm ((p, n) :: lives lo T) := by
  have hK : KERNBASE = 2 ^ 31 := rfl
  have hle := Vm.le_PGROUNDUP hbrk.le
  have hle' := Vm.PGROUNDUP_le hbrk.le
  have hlo : lo ≤ h.brk := hr.brk ▸ Nat.le_add_right ..
  by_cases hlarge : ∃ y ∈ frees lo T, nunits ≤ (h.mem y).size
  · obtain ⟨h', p, T', hloop, hr', hb, hlives⟩ :=
      hr.machine_found hn (by omega) hlarge h.brk top ok
    rw [withBrk_self rfl, withBrk_self hb] at hloop
    refine ⟨_, _, hloop, iff_of_false (Option.some_ne_none p) fun hc => hc.1 hlarge, ?_, ?_, ?_⟩
    · exact hb.trans_le (htop ▸ hle)
    · exact htop ▸ hle'
    · rintro _ ⟨⟩
      exact ⟨T', hr', hlives⟩
  obtain ⟨k₁, hmore⟩ := hr.more (@machine_scans lo nunits ⟨h, top⟩ ok) (by omega) hlarge
  have hnu : (if nunits < 4096 then 4096 else nunits) = max nunits 4096 := by
    split_ifs with hc
    · exact (max_eq_right hc.le).symm
    · exact (max_eq_left (not_lt.mp hc)).symm
  have hbase := hr.base_le
  have hmod : max nunits 4096 * 8 % 2 ^ 32 = 8 * max nunits 4096 := by omega
  have hsbrk := sbrk_small (a := ok.headD false) (by omega : 0 < 8 * max nunits 4096) (by omega)
    hbrk (by omega : lo ≤ top) hlo
  by_cases hc : ok.headD false = true ∧ h.brk + 8 * max nunits 4096 < KERNBASE
  · rw [if_pos hc, ← hmod] at hsbrk
    have hle₁ := Vm.le_PGROUNDUP hc.2.le
    obtain ⟨h₁, T₁, ⟨k₂, hfree⟩, hr₁, hb₁, hlives₁, hlarge₁⟩ :=
      hr.machine_extend (by omega) (by omega : 0 < max nunits 4096) (by omega) (by omega)
    obtain ⟨h', p, T', ⟨k₃, hloop⟩, hr', hb, hlives⟩ := hr₁.machine_found hn (by omega)
      (hlarge₁.imp fun y hy => ⟨hy.1, (le_max_left ..).trans hy.2⟩)
      (h.brk + 8 * max nunits 4096) (PGROUNDUP (h.brk + 8 * max nunits 4096)) ok.tail
    rw [withBrk_self (hb.trans hb₁), withBrk_self hb₁] at hloop
    refine ⟨⟨h', PGROUNDUP (h.brk + 8 * max nunits 4096)⟩, some p,
      ⟨k₁ + (k₂ + k₃), fun k hk => ?_⟩, iff_of_false (Option.some_ne_none p) ?_,
      (hb.trans hb₁).trans_le hle₁, Vm.PGROUNDUP_le hc.2.le, ?_⟩
    · obtain ⟨k, rfl⟩ := Nat.exists_eq_add_of_le hk
      rw [Nat.add_assoc, hmore, morecore_eq hnu hsbrk (by simp only [hmod]; omega)
        (hfree _ (by omega) _), hmod, withBrk_self hb₁]
      exact hloop _ (by omega)
    · rintro ⟨-, hf | hf⟩
      · exact Bool.false_ne_true (hf.symm.trans hc.1)
      · omega
    · rintro _ ⟨⟩
      exact ⟨T', hr', hlives₁ ▸ hlives⟩
  · rw [if_neg hc, ← hmod] at hsbrk
    refine ⟨⟨h, top⟩, none, ⟨k₁, fun k hk => ?_⟩, iff_of_true rfl ⟨hlarge, ?_⟩, htop ▸ hle,
      htop ▸ hle', fun p hp => by cases hp⟩
    · obtain ⟨k, rfl⟩ := Nat.exists_eq_add_of_le hk
      rw [hmore, Machine.morecore]
      simp only [hnu, hsbrk]
      rfl
    · rcases Decidable.not_and_iff_or_not.mp hc with hf | hf
      · exact .inl (Bool.not_eq_true _ ▸ hf)
      · exact .inr (not_lt.mp hf)

/-! ### Large requests -/

/-- A number that has a sign for the kernel: it takes away the stack of the process, or it does
not fail, and then the new block does not reach around to `base` if it begins in mapped memory. -/
theorem growproc_large {brk : ℕ} (hlo : base + 8 + 2 * PGSIZE ≤ lo) (hbrk : lo ≤ brk)
    (hlt : brk < KERNBASE) (htop : top = PGROUNDUP brk) (hnu : 2 ^ 31 ≤ 8 * nu)
    (hnu' : nu ≤ 2 ^ 29) : ∃ m r, growproc a ⟨brk, top⟩ (toInt (nu * 8 % 2 ^ 32)) = (m, r) ∧
      (lo ≤ m.top → r = true ∧ m.top ≤ top ∧
        (brk + 8 ≤ m.top → (brk + 8 * nu) % 2 ^ 32 ≠ base)) := by
  have hK : KERNBASE = 2 ^ 31 := rfl
  have hP : PGSIZE = 4096 := rfl
  rcases hnu'.eq_or_lt with rfl | hnu'
  · refine ⟨⟨brk, top⟩, true, rfl, fun _ => ⟨rfl, le_rfl, fun _ => by omega⟩⟩
  have hint : toInt (nu * 8 % 2 ^ 32) = nu * 8 - 2 ^ 32 := by
    rw [toInt, if_neg (by omega)]
    omega
  rw [hint, growproc_neg (by omega)]
  have huint : uint (brk + (nu * 8 - 2 ^ 32 : ℤ)) = (brk + 8 * nu) % 2 ^ 32 := by
    rw [uint]
    omega
  rw [huint]
  split_ifs with hge hzero
  · refine ⟨_, _, rfl, fun _ => ⟨decide_eq_true (by omega), le_rfl, fun _ => by omega⟩⟩
  · refine ⟨_, _, rfl, fun hc => ?_⟩
    change lo ≤ 0 at hc
    omega
  · refine ⟨_, _, rfl, fun _ => ⟨rfl, ?_, fun hc => ?_⟩⟩
    · rw [htop]
      exact Vm.PGROUNDUP_mono (by omega) hlt.le
    · have hround := Vm.PGROUNDUP_eq (by omega : (brk + 8 * nu) % 2 ^ 32 ≤ KERNBASE)
      change brk + 8 ≤ PGROUNDUP _ at hc
      rw [hround, hP] at hc
      omega

/-- **Large requests**: there is a fault, or a pointer to memory that is not there. -/
theorem Ready.machine_large (hr : Ready base lo h T) (hlo : base + 8 + 2 * PGSIZE ≤ lo)
    (hnu : 2 ^ 31 ≤ 8 * nunits) (hnu' : nunits ≤ 2 ^ 29) (hbrk : h.brk < KERNBASE)
    (htop : top = PGROUNDUP h.brk) (ok : List Bool) :
    ∃ r, (∃ k₀, ∀ k, k₀ ≤ k →
        Machine.mallocLoop lo nunits k ⟨h, top⟩ ok h.freep (h.next h.freep) = r) ∧
      (r = .error .fault ∨ ∃ s p, r = .ok (s, some p) ∧ lo ≤ p ∧ s.top ≤ KERNBASE) := by
  have hK : KERNBASE = 2 ^ 31 := rfl
  have hle := Vm.PGROUNDUP_le hbrk.le
  have hlob : lo ≤ h.brk := hr.brk ▸ Nat.le_add_right ..
  have hsmall : ¬∃ y ∈ frees lo T, nunits ≤ (h.mem y).size := by
    rintro ⟨y, hy, hsize⟩
    have := hr.node_le (mem_cons_of_mem base hy)
    rw [Heap.bytes] at this
    omega
  obtain ⟨k₁, hmore⟩ := hr.more (@machine_scans lo nunits ⟨h, top⟩ ok) (by omega) hsmall
  obtain ⟨m, r, hgrow, hm⟩ :=
    growproc_large (a := ok.headD false) hlo hlob hbrk htop hnu hnu'
  have hunits : (if nunits < 4096 then 4096 else nunits) = nunits := if_neg (by omega)
  have hfault : (∀ k, Machine.morecore lo ⟨h, top⟩ k nunits (ok.headD false) = .error .fault) →
      ∃ k₀, ∀ k, k₀ ≤ k →
        Machine.mallocLoop lo nunits k ⟨h, top⟩ ok h.freep (h.next h.freep) = .error .fault := by
    intro hcore
    refine ⟨k₁, fun k hk => ?_⟩
    obtain ⟨k, rfl⟩ := Nat.exists_eq_add_of_le hk
    rw [hmore, hcore]
    rfl
  by_cases hstack : m.top < lo
  · refine ⟨_, hfault fun k => ?_, .inl rfl⟩
    have hsbrk : Machine.sbrk lo (ok.headD false) ⟨h, top⟩ (nunits * 8 % 2 ^ 32) =
        .error .fault := by
      rw [Machine.sbrk]
      simp only [hgrow, if_pos hstack]
    rw [Machine.morecore]
    simp only [hunits, hsbrk]
    rfl
  obtain ⟨rfl, hmtop, hne⟩ := hm (not_lt.mp hstack)
  have hsbrk : Machine.sbrk lo (ok.headD false) ⟨h, top⟩ (nunits * 8 % 2 ^ 32) =
      .ok (⟨h.withBrk m.sz, m.top⟩, some h.brk) := by
    rw [Machine.sbrk]
    simp only [hgrow, if_neg hstack, if_true]
    rfl
  by_cases hhead : m.top < h.brk + 8
  · refine ⟨_, hfault fun k => ?_, .inl rfl⟩
    rw [Machine.morecore]
    simp only [hunits, hsbrk, Except.bind, if_pos hhead]
  · obtain ⟨h₁, T₁, ⟨k₂, hfree⟩, hr₁, hb₁, -, hlarge₁⟩ :=
      hr.machine_extend (by omega) (by omega) hnu' (hne (not_lt.mp hhead))
    obtain ⟨h', p, T', ⟨k₃, hloop⟩, hr', -, hlives⟩ :=
      hr₁.machine_found (n := 0) (by omega) (by omega) hlarge₁ m.sz m.top ok.tail
    refine ⟨.ok (⟨h'.withBrk m.sz, m.top⟩, some p), ⟨k₁ + (k₂ + k₃), fun k hk => ?_⟩,
      .inr ⟨_, p, rfl, ?_, ?_⟩⟩
    · obtain ⟨k, rfl⟩ := Nat.exists_eq_add_of_le hk
      rw [Nat.add_assoc, hmore,
        morecore_eq hunits hsbrk (not_lt.mp hhead) (hfree _ (by omega) _)]
      exact hloop _ (by omega)
    · have := mem_lives_le hr'.ok (hlives.mem_iff.mpr mem_cons_self)
      omega
    · change m.top ≤ KERNBASE
      omega

/-! ### All requests -/

/-- A byte is in a block. -/
def InBlock (h : Heap) (b a : ℕ) : Prop := b ≤ a ∧ a < b + h.bytes b

/-- **What `malloc` should do** for a program that has the pointers `live`: it returns a null
pointer, or a pointer to as many bytes as it was asked for. They are mapped, and in no block of the
program or of the free list. -/
def Proper (live : List (ℕ × ℕ)) (n : ℕ) : Except Trap (Machine × Option ℕ) → Prop
  | .error _ => False
  | .ok (_, none) => True
  | .ok (s, some p) => ∀ a, p ≤ a → a < p + n →
    a < s.top ∧ (∀ x ∈ live, ¬InBlock s.heap (x.1 - 8) a) ∧
      ∀ i, ¬InBlock s.heap (s.heap.next^[i] s.heap.freep) a

/-- A heap that is well formed. The program and its variable `base` lie below the stack, which has
one page and one more to guard it, and the heap begins behind the stack. -/
structure Wf (base lo : ℕ) (s : Machine) (live : List (ℕ × ℕ)) : Prop where
  base_pos : 0 < base
  base_le : base + 8 + 2 * PGSIZE ≤ lo
  brk_lt : s.heap.brk < KERNBASE
  top : s.top = PGROUNDUP s.heap.brk
  blocks : ∃ T, Rep base lo s.heap T ∧ live.Perm (lives lo T)

/-- The pointers of the free list lead to nodes of it. -/
theorem Ready.iterate_mem (hr : Ready base lo h T) (i : ℕ) :
    h.next^[i] h.freep ∈ base :: frees lo T := by
  induction i with
  | zero => exact hr.freep
  | succ i ih =>
    rw [Function.iterate_succ_apply']
    exact hr.circular.next_mem ih

/-- A block of a sound heap. -/
theorem Ready.proper (hr : Ready base lo s.heap T) (hlives : (lives lo T).Perm ((p, n) :: live))
    (htop : s.heap.brk ≤ s.top) :
    Proper live n (.ok (s, some p)) := by
  intro a hpa han
  have hmem : (p, n) ∈ lives lo T := hlives.mem_iff.mpr mem_cons_self
  have huse := lives_usable hr.sizes hr.ok hmem
  have hle := mem_lives_le hr.ok hmem
  have hbrk := hr.brk
  have hdis : (frees lo T ++ (p - 8) :: live.map fun x => x.1 - 8).Pairwise fun b c =>
      b + s.heap.bytes b ≤ c ∨ c + s.heap.bytes c ≤ b :=
    Ready.disjoint (s := ⟨s.heap, (p, n) :: live⟩) hr hlives.symm
  obtain ⟨-, hdl, hdf⟩ := pairwise_append.mp hdis
  refine ⟨by omega, fun x hx hin => ?_, fun i hin => ?_⟩
  · have := (pairwise_cons.mp hdl).1 _ (mem_map_of_mem hx)
    obtain ⟨h1, h2⟩ := hin
    omega
  · obtain ⟨h1, h2⟩ := hin
    rcases mem_cons.mp (hr.iterate_mem i) with hb | hb
    · rw [hb, Heap.bytes, hr.base_size] at h2
      rw [hb] at h1
      omega
    · have := hdf _ hb _ mem_cons_self
      omega

/-- A pointer to more bytes than there are. -/
theorem not_proper (hp : 16 ≤ p) (htop : s.top ≤ KERNBASE) (hn : 2 ^ 31 - 15 ≤ n) :
    ¬Proper live n (.ok (s, some p)) := by
  have hK : KERNBASE = 2 ^ 31 := rfl
  intro hc
  have := (hc (p + n - 1) (by omega) (by omega)).1
  omega

/-- There is no free block just if `base` is alone in the list. -/
theorem Ready.no_free_iff (hr : Ready base lo h T) :
    (¬∃ y ∈ frees lo T, 1 ≤ (h.mem y).size) ↔ h.next base = base := by
  have hcirc := hr.circular
  have hsorted := hr.sorted
  cases hf : frees lo T with
  | nil =>
    rw [hf] at hcirc
    refine iff_of_true ?_ (path_nil.mp (circular_cons.mp hcirc))
    rintro ⟨y, hy, -⟩
    cases hy
  | cons y l =>
    have hy : y ∈ frees lo T := hf ▸ mem_cons_self
    have hmem := perm_starts.mem_iff.mp (mem_append_left _ hy)
    have hpos := (mem_starts hr.sizes hr.ok hmem).2.1
    rw [Heap.bytes] at hpos
    rw [hf] at hcirc hsorted
    refine iff_of_false (not_not.mpr ⟨y, mem_cons_self, by omega⟩) fun hc => ?_
    have hnext := (path_cons.mp (circular_cons.mp hcirc)).1
    have := (pairwise_cons.mp hsorted).1 y mem_cons_self
    omega

theorem init_brk : (h.init base).brk = h.brk := by
  rw [Heap.init]
  split_ifs
  · rfl
  · rfl

/-- **`malloc` ends for every number of bytes, and it does what it should for just those below
`2 ^ 31 - 15`**, and for the last seven if there is no free block and no memory for one. -/
theorem malloc_iff (hs : Wf base lo s live) (hn : n < 2 ^ 32) (ok : List Bool) :
    ∃ r, (∃ k₀, ∀ k, k₀ ≤ k → s.malloc base lo k n ok = r) ∧ r ≠ .error .rounds ∧
      (Proper live n r ↔ n < 2 ^ 31 - 15 ∨ 2 ^ 32 - 7 ≤ n ∧ (s.heap.init base).next base = base ∧
        (ok.headD false = false ∨ KERNBASE ≤ s.heap.brk + 32768)) := by
  have hP : PGSIZE = 4096 := rfl
  have hbase := hs.base_le
  obtain ⟨T, hrep, hlive⟩ := hs.blocks
  have hr := hrep.init hs.base_pos (by omega)
  have hbrk : (s.heap.init base).brk < KERNBASE := init_brk.trans_lt hs.brk_lt
  have htop : s.top = PGROUNDUP (s.heap.init base).brk := hs.top.trans (by rw [init_brk])
  rw [← @init_brk base s.heap]
  unfold Machine.malloc
  rcases lt_or_ge n (2 ^ 31 - 15) with hsmall | hlarge
  · -- Nothing wraps around.
    obtain ⟨s', o, hloop, -, hle, -, hp⟩ := hr.machine_small
      (by omega : n + 8 ≤ 8 * ((n + 8 - 1) % 2 ^ 32 / 8 + 1)) (by omega) hbrk htop ok
    refine ⟨_, hloop, (fun hc => by cases hc), iff_of_true ?_ (.inl hsmall)⟩
    cases o with
    | none => trivial
    | some p =>
      obtain ⟨T', hr', hlives⟩ := hp p rfl
      exact hr'.proper (hlives.trans (hlive.symm.cons _)) hle
  rcases lt_or_ge n (2 ^ 32 - 7) with hmid | hhuge
  · -- The number of bytes for `sbrk` is negative, or it has become zero.
    obtain ⟨r, hloop, hr'⟩ := hr.machine_large hbase
      (by omega : 2 ^ 31 ≤ 8 * ((n + 8 - 1) % 2 ^ 32 / 8 + 1)) (by omega) hbrk htop ok
    refine ⟨r, hloop, ?_, iff_of_false ?_ (by omega)⟩
    · rcases hr' with rfl | ⟨s', p, rfl, -⟩
      · intro hc
        cases hc
      · intro hc
        cases hc
    · rcases hr' with rfl | ⟨s', p, rfl, hp, htop'⟩
      · exact id
      · exact not_proper (by omega) htop' hlarge
  · -- The number of headers has become one.
    have hone : (n + 8 - 1) % 2 ^ 32 / 8 + 1 = 1 := by omega
    rw [hone]
    obtain ⟨s', o, hloop, hnone, -, htop', hp⟩ :=
      hr.machine_small (by decide : 0 + 8 ≤ 8 * 1) (by decide) hbrk htop ok
    refine ⟨_, hloop, (fun hc => by cases hc), ?_⟩
    rw [hr.no_free_iff, max_eq_right (by omega)] at hnone
    cases o with
    | none => exact iff_of_true trivial (.inr ⟨hhuge, hnone.mp rfl⟩)
    | some p =>
      obtain ⟨T', hr', hlives⟩ := hp p rfl
      have hle := mem_lives_le hr'.ok (hlives.mem_iff.mpr mem_cons_self)
      refine iff_of_false (not_proper (by omega) htop' hlarge) ?_
      rintro (hc | ⟨-, hc⟩)
      · omega
      · exact Option.some_ne_none p (hnone.mpr hc)

/-- A program that has not called `malloc` yet. -/
def fresh : Machine := ⟨⟨fun _ => ⟨0, 0⟩, 0, 12288⟩, 12288⟩

theorem fresh_wf : Wf 8 12288 fresh [] where
  base_pos := by decide
  base_le := by decide
  brk_lt := by decide
  top := by decide
  blocks := ⟨[], .inr ⟨rfl, rfl, rfl⟩, .refl _⟩

/-- It asks for 100 bytes. -/
theorem malloc_fresh : ∃ r, (∃ k₀, ∀ k, k₀ ≤ k → fresh.malloc 8 12288 k 100 [true] = r) ∧
    r ≠ .error .rounds ∧ Proper [] 100 r := by
  obtain ⟨r, hloop, hr, hiff⟩ := malloc_iff fresh_wf (n := 100) (by decide) [true]
  exact ⟨r, hloop, hr, hiff.mpr (.inl (by decide))⟩

/-- **It asks for `2 ^ 32 - 1` bytes**, and gets a pointer to the end of its memory. -/
theorem malloc_fresh_wraps : Wf 8 12288 fresh [] ∧ ∃ s,
    fresh.malloc 8 12288 5 (2 ^ 32 - 1) [true] = .ok (s, some 45056) ∧ s.top = 45056 ∧
      s.heap.bytes (45056 - 8) = 8 ∧ ¬Proper [] (2 ^ 32 - 1) (.ok (s, some 45056)) := by
  have heval : (fresh.malloc 8 12288 5 (2 ^ 32 - 1) [true]).toOption.map
      (fun x => (x.2, x.1.top, x.1.heap.bytes (45056 - 8))) = some (some 45056, 45056, 8) := by
    decide +kernel
  cases hr : fresh.malloc 8 12288 5 (2 ^ 32 - 1) [true] with
  | error e =>
    rw [hr] at heval
    cases heval
  | ok x =>
    rw [hr] at heval
    obtain ⟨s, o⟩ := x
    obtain ⟨ho, hx⟩ := Prod.mk.inj (Option.some.inj heval)
    obtain rfl : o = some 45056 := ho
    obtain ⟨htop, hbytes⟩ := Prod.mk.inj hx
    exact ⟨fresh_wf, s, rfl, htop, hbytes, not_proper (by decide) (by rw [htop]; decide) (by decide)⟩

end Xv6.Malloc
