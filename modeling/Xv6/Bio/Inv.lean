import Xv6.Bio.Cache
import Xv6.Lib.Count

/-!
# The invariant of the buffer cache

What `bio.c` guarantees, whoever calls it and in whatever order: at most one
buffer holds a block (`Xv6.Bio.Pool.Ok.eq_of_key`), a buffer that has been read holds
what the array of blocks has (`Xv6.Bio.Inv.data`), and a block whose contents on
the disk are out of date has a buffer that cannot be taken away
(`Xv6.Bio.Inv.disk`).
-/

namespace Xv6.Bio

open Lib Function List

variable {Pid : Type}

/-- The process has a reference to the buffer but not its sleep-lock. -/
def Pc.Waits (i : Slot) : Pc → Prop
  | .getting _ j | .releasing j => j = i
  | _ => False

/-- The process is asking for block `k` and has been given buffer `i`. -/
def Pc.Asks (k : Key) (i : Slot) (pc : Pc) : Prop := pc = .getting k i ∨ pc = .reading k i

/-- The process is between two calls or in one about buffer `i`. -/
def Pc.About (i : Slot) : Pc → Prop
  | .idle => True
  | .getting _ j | .reading _ j | .releasing j => j = i

/-- **What holds of a buffer**, with `x` the contents it should have. -/
structure BufInv (pc : Pid → Pc) (i : Slot) (b : Buf Pid) (pending : Bool) (x : Block) :
    Prop where
  /-- `refcnt` counts the process that has the buffer locked and those that wait
  for it or have just given it back. -/
  count : Counts (fun p => (pc p).Waits i) ((b.refcnt : ℤ) - if b.lock = none then 0 else 1)
  reading : ∀ p k, pc p = .reading k i → b.lock = some p
  /-- A process is given a buffer for the block it asks for. -/
  asked : ∀ p k, (pc p).Asks k i → b.key = k
  /-- A buffer that `bread` has returned has been read. -/
  valid : ∀ p, b.lock = some p → (∀ k, pc p ≠ .reading k i) → b.valid = true
  /-- A buffer that has been changed is still with the process that changed it. -/
  pending : pending = true → ∃ p, b.lock = some p ∧ ∀ k, pc p ≠ .reading k i
  dirty : b.dirty = true → b.valid = true
  /-- A buffer that has been read holds what it should. -/
  data : b.valid = true → b.data = x

/-- **The invariant of the buffer cache.** -/
structure Inv (c : Cache Pid) : Prop extends c.toPool.Ok where
  buf : ∀ i, BufInv c.pc i (c.buf i) (c.pending i) (c.flat (c.buf i).key)
  /-- The disk holds what it should, unless a buffer that stays holds something
  newer. -/
  disk : ∀ k, c.disk k = c.flat k ∨ ∃ i, (c.buf i).key = k ∧ (c.buf i).valid = true ∧
    ((c.buf i).dirty = true ∨ c.pending i = true)

theorem inv_init (disk : Key → Block) : Inv (init disk : Cache Pid) where
  toOk := Pool.ok_init
  buf := fun i =>
    { count := counts_zero fun p hp => hp.elim
      reading := fun p k hp => absurd hp (by simp [init])
      asked := fun p k hp => absurd hp (by simp [init, Pc.Asks])
      valid := fun p hp => absurd hp (by simp [init, Pool.init])
      pending := fun hp => absurd hp (by simp [init])
      dirty := fun hd => absurd hd (by simp [init, Pool.init])
      data := fun hv => absurd hv (by simp [init, Pool.init]) }
  disk := fun k => .inl rfl

section Buffer

variable {pc : Pid → Pc} {p : Pid} {x : Pc} {i : Slot} {b : Buf Pid} {pend : Bool} {v : Block}

theorem BufInv.refcnt_pos_of_waits (h : BufInv pc i b pend v) (hp : (pc p).Waits i) :
    0 < b.refcnt := by
  have := h.count.pos hp
  split at this <;> omega

theorem BufInv.refcnt_pos_of_lock (h : BufInv pc i b pend v) (hl : b.lock ≠ none) :
    0 < b.refcnt := by
  have := h.count.nonneg
  rw [if_neg hl] at this
  omega

variable [DecidableEq Pid]

attribute [local grind =] update_apply Pc.Waits Pc.Asks

/-- A process that has a buffer in hand keeps it so when somebody moves, unless it
is to read the buffer itself. -/
theorem held_update {q : Option Pid} (h : ∃ r, q = some r ∧ ∀ k, pc r ≠ .reading k i)
    (hx : ∀ {k}, x = .reading k i → q ≠ some p) :
    ∃ r, q = some r ∧ ∀ k, update pc p x r ≠ .reading k i := by
  obtain ⟨r, hr, hk⟩ := h
  refine ⟨r, hr, fun k => ?_⟩
  rcases eq_or_ne r p with rfl | hrp
  · rw [update_self]
    exact fun hxk => hx hxk hr
  · rw [update_of_ne hrp]
    exact hk k

variable (h : BufInv pc i b pend v)
include h

/-- `bget` finds the block. -/
theorem BufInv.hit (hp : pc p = .idle) :
    BufInv (update pc p (.getting b.key i)) i { b with refcnt := b.refcnt + 1 }
      pend v where
  count := by
    have hc := counts_enter (p := p) (x := Pc.getting b.key i) h.count (by simp [hp, Pc.Waits]) rfl
    push_cast
    rwa [add_sub_right_comm]
  reading := by have := h.reading; grind
  asked := by have := h.asked; grind
  valid := by have := h.valid; grind
  pending := fun hpend => held_update (h.pending hpend) fun hr => absurd hr (by simp)
  dirty := h.dirty
  data := h.data

/-- `bget` takes over a buffer that is not in use. -/
theorem BufInv.recycle (h0 : b.refcnt = 0) (p : Pid) (k : Key)
    (v' : Block) :
    BufInv (update pc p (.getting k i)) i
      { b with key := k, valid := false, dirty := false, refcnt := 1 } pend v' := by
  have hlock : b.lock = none := by
    by_contra hl
    have := h.refcnt_pos_of_lock hl
    omega
  have hwaits : ∀ q, ¬(pc q).Waits i := fun q hq => by
    have := h.refcnt_pos_of_waits hq
    omega
  have hreading : ∀ q k', pc q ≠ .reading k' i := fun q k' hq => by
    have := h.reading q k' hq
    simp [hlock] at this
  exact
  { count := by
      have hc := counts_enter (p := p) (x := Pc.getting k i) h.count (hwaits p) rfl
      simpa [hlock, h0] using hc
    reading := by grind
    asked := by grind
    valid := by grind
    pending := fun hpend => by
      obtain ⟨q, hq, -⟩ := h.pending hpend
      simp [hlock] at hq
    dirty := fun hd => absurd hd (by simp)
    data := fun hv => absurd hv (by simp) }

/-- `bget` takes the sleep-lock. -/
theorem BufInv.acquire {k : Key} (hp : pc p = .getting k i)
    (hfree : b.lock = none) :
    BufInv (update pc p (.reading k i)) i { b with lock := some p } pend v where
  count := by
    have hc := counts_leave (p := p) (x := Pc.reading k i) h.count (by rw [hp]; rfl)
      (by simp [Pc.Waits])
    simpa [hfree] using hc
  reading := by have := h.reading; grind
  asked := by
    have := h.asked
    have := h.asked p k (.inl hp)
    grind
  valid := fun q hq hr => by
    obtain rfl : p = q := Option.some.inj hq
    exact absurd (update_self ..) (hr k)
  pending := fun hpend => by
    obtain ⟨q, hq, -⟩ := h.pending hpend
    simp [hfree] at hq
  dirty := h.dirty
  data := h.data

/-- `bread` returns a buffer that has been read. -/
theorem BufInv.bread {k : Key} (hp : pc p = .reading k i) {b' : Buf Pid}
    (hkey : b'.key = b.key) (hlock : b'.lock = b.lock) (href : b'.refcnt = b.refcnt)
    (hv : b'.valid = true) (hdata : b'.data = v) : BufInv (update pc p .idle) i b' pend v where
  count := by
    rw [hlock, href]
    exact counts_keep h.count (by simp [hp, Pc.Waits])
  reading := by have := h.reading; grind
  asked := by have := h.asked; grind
  valid := fun _ _ _ => hv
  pending := fun hpend => by
    rw [hlock]
    exact held_update (h.pending hpend) fun hr => absurd hr (by simp)
  dirty := fun _ => hv
  data := fun _ => hdata

/-- The beginning of `brelse`. -/
theorem BufInv.brelse (hp : pc p = .idle) (hl : b.lock = some p)
    (hpend : pend = false) :
    BufInv (update pc p (.releasing i)) i { b with lock := none } pend v where
  count := by
    have hc := counts_enter (p := p) (x := Pc.releasing i) h.count (by simp [hp, Pc.Waits]) rfl
    simpa [hl] using hc
  reading := by have := h.reading; grind
  asked := by have := h.asked; grind
  valid := by simp
  pending := by simp [hpend]
  dirty := h.dirty
  data := h.data

/-- The rest of `brelse`. -/
theorem BufInv.release (hp : pc p = .releasing i) :
    BufInv (update pc p .idle) i { b with refcnt := b.refcnt - 1 } pend v where
  count := by
    have hw : (pc p).Waits i := by rw [hp]; rfl
    have hc := counts_leave (p := p) (x := Pc.idle) h.count hw (by simp [Pc.Waits])
    have hpos := h.refcnt_pos_of_waits hw
    rw [Nat.cast_sub (by omega)]
    push_cast
    rwa [sub_right_comm]
  reading := by have := h.reading; grind
  asked := by have := h.asked; grind
  valid := by have := h.valid; grind
  pending := fun hpend => held_update (h.pending hpend) fun hr => absurd hr (by simp)
  dirty := h.dirty
  data := h.data

omit [DecidableEq Pid] in
/-- A buffer that somebody has locked gets other contents, or is written to the
disk, or marked dirty. -/
theorem BufInv.change (hp : pc p = .idle) (hl : b.lock = some p)
    {b' : Buf Pid} {pend' : Bool} {v' : Block} (hkey : b'.key = b.key) (hlock : b'.lock = b.lock)
    (href : b'.refcnt = b.refcnt) (hv : b'.valid = true) (hdata : b'.data = v') :
    BufInv pc i b' pend' v' where
  count := by rw [hlock, href]; exact h.count
  reading := by rw [hlock]; exact h.reading
  asked := by rw [hkey]; exact h.asked
  valid := fun _ _ _ => hv
  pending := fun _ => ⟨p, by rw [hlock, hl], by simp [hp]⟩
  dirty := fun _ => hv
  data := fun _ => hdata

omit h

/-- A process that moves inside a call about one buffer does not matter to
another. -/
theorem BufInv.frame {j : Slot} (h : BufInv pc j b pend v) (hij : j ≠ i) (hp : (pc p).About i)
    (hx : x.About i) : BufInv (update pc p x) j b pend v := by
  have hne : ∀ y : Pc, y.About i → ¬y.Waits j ∧ (∀ k, y ≠ .reading k j) ∧ ∀ k, ¬y.Asks k j := by
    intro y hy
    cases y <;> simp_all [Pc.About, Pc.Waits, Pc.Asks, Ne.symm hij]
  obtain ⟨p1, p2, p3⟩ := hne _ hp
  obtain ⟨x1, x2, x3⟩ := hne _ hx
  exact
  { count := counts_keep h.count (iff_of_false x1 p1)
    reading := by have := h.reading; grind
    asked := by have := h.asked; grind
    valid := by have := h.valid; grind
    pending := fun hpend => held_update (h.pending hpend) fun hr => absurd hr (x2 _)
    dirty := h.dirty
    data := h.data }

end Buffer

/-! ### What the functions of the cache preserve -/

section Steps

variable [DecidableEq Pid] {c c' : Cache Pid} {p : Pid} {i : Slot} {k : Key} {x : Pc} {b : Buf Pid}

/-- A step is about one process and one buffer. -/
theorem Inv.bufInv_of_step (h : Inv c) {pc : Pid → Pc} {pend : Bool}
    (hi : BufInv pc i b pend (c'.flat b.key)) (hpc : c'.pc = pc) (hupd : pc = update c.pc p x)
    (hp : (c.pc p).About i) (hx : x.About i) (hbuf : c'.buf = update c.buf i b)
    (hpend : c'.pending = update c.pending i pend)
    (hflat : ∀ j, j ≠ i → (c.buf j).valid = true → c'.flat (c.buf j).key = c.flat (c.buf j).key)
    (j : Slot) : BufInv c'.pc j (c'.buf j) (c'.pending j) (c'.flat (c'.buf j).key) := by
  rcases eq_or_ne j i with rfl | hj
  · rwa [hpc, hbuf, hpend, update_self, update_self]
  · rw [hpc, hbuf, hpend, update_of_ne hj, update_of_ne hj, hupd]
    have hj' := (h.buf j).frame hj hp hx
    exact { hj' with data := fun hv => (hj'.data hv).trans (hflat j hj hv).symm }

variable (h : Inv c)
include h

/-- A step of a call that leaves the contents of the buffers, the blocks they are
for, the disk and the list as they are. -/
theorem Inv.call (hi : BufInv (update c.pc p x) i b (c.pending i) (c.flat b.key))
    (hp : (c.pc p).About i) (hx : x.About i) (hkey : b.key = (c.buf i).key)
    (hvalid : b.valid = (c.buf i).valid) (hdirty : b.dirty = (c.buf i).dirty)
    (hlive : b.Live → c.cached b.key = some i) :
    Inv ((c.set i b).goto p x) := by
  have hbuf : ((c.set i b).goto p x).buf = update c.buf i b := rfl
  have hsame : ∀ j, (update c.buf i b j).key = (c.buf j).key ∧
      (update c.buf i b j).valid = (c.buf j).valid ∧
      (update c.buf i b j).dirty = (c.buf j).dirty := by
    intro j
    rcases eq_or_ne j i with rfl | hj
    · rw [update_self]
      exact ⟨hkey, hvalid, hdirty⟩
    · rw [update_of_ne hj]
      exact ⟨rfl, rfl, rfl⟩
  refine ⟨h.set hkey fun hb => hkey ▸ hlive hb, h.bufInv_of_step hi rfl rfl hp hx rfl
    (update_eq_self i _).symm fun _ _ _ => rfl, fun k => (h.disk k).imp_right ?_⟩
  rintro ⟨j, h1, h2, h3⟩
  refine ⟨j, ?_⟩
  rw [hbuf, (hsame j).1, (hsame j).2.1, (hsame j).2.2]
  exact ⟨h1, h2, h3⟩

/-- `bget` takes over a buffer: nobody refers to it, and what it holds is on the
disk. -/
theorem Inv.recycle (hp : c.pc p = .idle) (hnone : c.cached k = none)
    (href : (c.buf i).refcnt = 0) (hdirty : (c.buf i).dirty = false) :
    Inv ((c.set i { c.buf i with key := k, valid := false, dirty := false, refcnt := 1 }).goto p
      (.getting k i)) := by
  set b : Buf Pid := { c.buf i with key := k, valid := false, dirty := false, refcnt := 1 }
    with hb
  refine ⟨h.toOk.recycle hnone, h.bufInv_of_step ((h.buf i).recycle href p k _) rfl rfl
    (by rw [hp]; trivial) rfl rfl (update_eq_self i _).symm fun _ _ _ => rfl,
    fun k' => (h.disk k').imp_right ?_⟩
  rintro ⟨j, h1, h2, h3⟩
  have hji : j ≠ i := by
    rintro rfl
    have hpend : c.pending j = true := by simpa [hdirty] using h3
    obtain ⟨q, hq, -⟩ := (h.buf j).pending hpend
    have := (h.buf j).refcnt_pos_of_lock (by simp [hq])
    omega
  refine ⟨j, ?_⟩
  change (update c.buf i b j).key = k' ∧ (update c.buf i b j).valid = true ∧
    ((update c.buf i b j).dirty = true ∨ c.pending j = true)
  rw [update_of_ne hji]
  exact ⟨h1, h2, h3⟩

/-- **`bget`.** -/
theorem Inv.bget (hp : c.pc p = .idle) (hc : bget c p k = .ok c') : Inv c' := by
  rcases bget_ok hc with ⟨i, hi, rfl⟩ | ⟨i, hnone, hi, rfl⟩
  · obtain rfl := Pool.key_of_cached hi
    exact h.call ((h.buf i).hit hp) (by rw [hp]; trivial) rfl rfl rfl rfl fun _ => hi
  · obtain ⟨href, hdirty⟩ := Pool.refcnt_of_unused hi
    exact h.recycle hp hnone href hdirty

omit [DecidableEq Pid] in
/-- The contents of the block are on the disk when a buffer is about to be read
from it. -/
theorem Inv.disk_of_reading (hp : c.pc p = .reading k i)
    (hv : (c.buf i).valid = false) : c.disk (c.buf i).key = c.flat (c.buf i).key := by
  rcases h.disk (c.buf i).key with hd | ⟨j, h1, h2, -⟩
  · exact hd
  · have hl : (c.buf i).lock ≠ none := by
      rw [(h.buf i).reading p k hp]
      simp
    have hlive : (c.buf i).Live := .inl ((h.buf i).refcnt_pos_of_lock hl)
    obtain rfl := h.eq_of_key (.inr h2) hlive h1
    exact absurd (hv.symm.trans h2) (by simp)

/-- **`bread` returns what the block should hold.** -/
theorem Inv.bread_data (hp : c.pc p = .reading k i) :
    ((bread c p i).buf i).data = c.flat k := by
  have hkey := (h.buf i).asked p k (.inr hp)
  unfold bread
  split
  · rename_i hv
    rw [← hkey]
    exact (h.buf i).data hv
  · rename_i hv
    have hv' : (c.buf i).valid = false := by simpa using hv
    have hd : (c.buf i).dirty = false := by
      by_contra hd
      exact hv ((h.buf i).dirty (by simpa using hd))
    rw [iderw, hd, if_neg (by simp)]
    change (update c.buf i _ i).data = _
    rw [update_self, ← hkey]
    exact h.disk_of_reading hp hv'

/-- A step that only changes the contents and the flags of a buffer that somebody
has locked, and with it perhaps the disk and the array of blocks. -/
theorem Inv.change (hl : (c.buf i).lock ≠ none) (pend : Bool)
    (hi : BufInv c'.pc i b pend (c'.flat b.key)) (hpc : c'.pc = update c.pc p x)
    (hp : (c.pc p).About i) (hx : x.About i) (hbuf : c'.buf = update c.buf i b)
    (hpend : c'.pending = update c.pending i pend) (hlist : c'.list = c.list)
    (hkey : b.key = (c.buf i).key) (hflat : ∀ k, k ≠ (c.buf i).key → c'.flat k = c.flat k)
    (hdisk : ∀ k, k ≠ (c.buf i).key → c'.disk k = c.disk k)
    (hself : c'.disk (c.buf i).key = c'.flat (c.buf i).key ∨ b.valid = true ∧
      (b.dirty = true ∨ pend = true)) :
    Inv c' := by
  have hlive : (c.buf i).Live := .inl ((h.buf i).refcnt_pos_of_lock hl)
  have hpool : c'.toPool = c.toPool.set i b := by
    rw [Pool.set, ← hbuf, ← hlist]
  refine ⟨hpool ▸ h.set hkey fun _ => h.first i hlive, h.bufInv_of_step hi rfl hpc hp hx hbuf
    hpend fun j hj hv => hflat _ fun hk => hj (h.eq_of_key (.inr hv) hlive hk), fun k => ?_⟩
  rcases eq_or_ne k (c.buf i).key with rfl | hk
  · refine hself.imp_right fun hd => ⟨i, ?_⟩
    rw [hbuf, hpend, update_self, update_self]
    exact ⟨hkey, hd⟩
  · rw [hdisk k hk, hflat k hk]
    refine (h.disk k).imp_right ?_
    rintro ⟨j, h1, h2, h3⟩
    have hj : j ≠ i := by
      rintro rfl
      exact hk h1.symm
    refine ⟨j, ?_⟩
    rw [hbuf, hpend, update_of_ne hj, update_of_ne hj]
    exact ⟨h1, h2, h3⟩

/-- The rest of `bread`. -/
theorem Inv.bread (hp : c.pc p = .reading k i) : Inv (bread c p i) := by
  have hlock := (h.buf i).reading p k hp
  unfold Bio.bread
  split
  · rename_i hv
    have hi : BufInv (update c.pc p .idle) i (c.buf i) (c.pending i)
        (c.flat (c.buf i).key) :=
      (h.buf i).bread hp rfl rfl rfl hv ((h.buf i).data hv)
    have hc : c.goto p .idle = (c.set i (c.buf i)).goto p .idle := by
      simp [Cache.set]
    rw [hc]
    exact h.call hi (by rw [hp]; rfl) trivial rfl rfl rfl (h.first i)
  · rename_i hv
    have hv' : (c.buf i).valid = false := by simpa using hv
    have hd : (c.buf i).dirty = false := by
      by_contra hd
      exact hv ((h.buf i).dirty (by simpa using hd))
    have hdisk := h.disk_of_reading hp hv'
    rw [iderw, hd, if_neg (by simp)]
    refine h.change (by simp [hlock]) (c.pending i) ?_ (p := p) rfl (by rw [hp]; rfl)
      trivial rfl (update_eq_self i _).symm rfl rfl (fun _ _ => rfl) (fun _ _ => rfl)
      (.inl hdisk)
    exact (h.buf i).bread hp rfl rfl rfl rfl hdisk

/-- The rest of `brelse`. -/
theorem Inv.release (hp : c.pc p = .releasing i) : Inv (release c p i) := by
  set b : Buf Pid := { c.buf i with refcnt := (c.buf i).refcnt - 1 } with hb
  have hpos : 0 < (c.buf i).refcnt := (h.buf i).refcnt_pos_of_waits (p := p) (by rw [hp]; rfl)
  have hmid : Inv ((c.set i b).goto p .idle) :=
    h.call ((h.buf i).release hp) (by rw [hp]; rfl) trivial rfl rfl rfl
      fun _ => h.first i (.inl hpos)
  exact ⟨h.toOk.release hpos, hmid.buf, hmid.disk⟩

/-- **The steps of a call.** -/
theorem Inv.next (hc : next c p = .ok c') : Inv c' := by
  rcases next_ok hc with ⟨k, i, hp, hfree, rfl⟩ | ⟨k, i, hp, rfl⟩ | ⟨i, hp, rfl⟩
  · exact h.call ((h.buf i).acquire hp hfree) (by rw [hp]; rfl) rfl rfl rfl rfl (h.first i)
  · exact h.bread hp
  · exact h.release hp

/-- **The beginning of `brelse`**, for a buffer that is not left changed. -/
theorem Inv.brelse (hp : c.pc p = .idle) (hpend : c.pending i = false)
    (hc : brelse c p i = .ok c') : Inv c' := by
  unfold Bio.brelse at hc
  split at hc
  · rename_i hl
    obtain rfl := Effect.ok.inj hc
    exact h.call ((h.buf i).brelse hp hl hpend) (by rw [hp]; trivial) rfl rfl rfl rfl (h.first i)
  · simp at hc

/-- **Changing a buffer** that `bread` has returned. -/
theorem Inv.modify (hp : c.pc p = .idle) (hl : (c.buf i).lock = some p) (x : Block) :
    Inv (modify c i x) := by
  have hv : (c.buf i).valid = true := (h.buf i).valid p hl (by simp [hp])
  refine h.change (by simp [hl]) true ?_ (p := p) (x := .idle)
    (by rw [← hp, update_eq_self]; rfl) (by rw [hp]; trivial) trivial rfl rfl rfl rfl
    (fun k hk => update_of_ne hk ..) (fun _ _ => rfl) (.inr ⟨hv, .inr rfl⟩)
  exact (h.buf i).change hp hl rfl rfl rfl hv (update_self (c.buf i).key x c.flat).symm

omit h

omit [DecidableEq Pid] in
/-- Changing the contents of a buffer changes nothing else of any buffer. -/
theorem modify_buf (c : Cache Pid) (i : Slot) (x : Block) (j : Slot) :
    ((modify c i x).buf j).lock = (c.buf j).lock ∧ ((modify c i x).buf j).key = (c.buf j).key ∧
      ((modify c i x).buf j).valid = (c.buf j).valid ∧
      ((modify c i x).buf j).dirty = (c.buf j).dirty := by
  change (update c.buf i _ j).lock = _ ∧ (update c.buf i _ j).key = _ ∧
    (update c.buf i _ j).valid = _ ∧ (update c.buf i _ j).dirty = _
  rcases eq_or_ne j i with rfl | hj
  · rw [update_self]
    exact ⟨rfl, rfl, rfl, rfl⟩
  · rw [update_of_ne hj]
    exact ⟨rfl, rfl, rfl, rfl⟩

omit [DecidableEq Pid] in
/-- What `bwrite` does. -/
theorem iderw_dirty (c : Cache Pid) (i : Slot) : iderw (c.set i { c.buf i with dirty := true }) i =
    { c.set i { c.buf i with dirty := false, valid := true } with
      disk := update c.disk (c.buf i).key (c.buf i).data
      pending := update c.pending i false } := by
  simp [iderw, Cache.set]

/-- **`bwrite`.** -/
theorem Inv.bwrite (h : Inv c) (hp : c.pc p = .idle) (hc : bwrite c p i = .ok c') : Inv c' := by
  unfold Bio.bwrite at hc
  split at hc
  · rename_i hl
    obtain rfl := Effect.ok.inj hc
    have hv : (c.buf i).valid = true := (h.buf i).valid p hl (by simp [hp])
    have hdata := (h.buf i).data hv
    rw [iderw_dirty]
    refine h.change (by simp [hl]) false ?_ (p := p) (x := .idle)
      (by rw [← hp, update_eq_self]; rfl) (by rw [hp]; trivial) trivial rfl rfl rfl rfl
      (fun _ _ => rfl) (fun k hk => update_of_ne hk ..)
      (.inl ((update_self ..).trans hdata))
    exact (h.buf i).change hp hl rfl rfl rfl rfl hdata
  · simp at hc

/-- **`log_write` pins a buffer**: it must be written before it is taken over. -/
theorem Inv.pin (h : Inv c) (hp : c.pc p = .idle) (hl : (c.buf i).lock = some p) :
    Inv { c.set i { c.buf i with dirty := true } with
      pending := update c.pending i false } := by
  have hv : (c.buf i).valid = true := (h.buf i).valid p hl (by simp [hp])
  refine h.change (by simp [hl]) false ?_ (p := p) (x := .idle)
    (by rw [← hp, update_eq_self]; rfl) (by rw [hp]; trivial) trivial rfl rfl rfl rfl
    (fun _ _ => rfl) (fun _ _ => rfl) (.inr ⟨hv, .inl rfl⟩)
  exact (h.buf i).change hp hl rfl rfl rfl hv ((h.buf i).data hv)

end Steps

end Xv6.Bio
