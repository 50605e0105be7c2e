import Mathlib.Data.Fintype.Card
import Xv6.Bio.Call
import Xv6.Bio.System
import Xv6.Log.GroupCommit

/-!
# `commit()` through the buffer cache

The invariant of the cache and the log (`Xv6.Bio.SysInv`), and why the steps of
`commit()` keep it. Its heart is that the two copies of `commit()` do not change
what a block holds. `write_log` copies a home block to the log, so that the block
of the log has the contents of the home block (`Xv6.Bio.Committing.copies`).
`install_trans` copies it back; that this overwrites the home block with what it
already holds rests on nobody having changed the home block in between, that is on
there being no operation during a commit (`Xv6.Log.Inv`).

A logged block must stay in the cache until it is installed, because the disk does
not have its contents yet (`Xv6.Bio.SysInv.pinned`): its buffer is dirty, which
keeps `bget` from taking it over. Such buffers use up the cache. The tests of
`log_write` do not keep the header from growing to `NBUF` entries, as they come
before the lock is taken; but then no buffer is left for the first block of the
log, and `bget` stops the kernel before anything is written
(`Xv6.Bio.SysInv.room_of_first`). So where `commit()` does write, the header has
fewer than `NBUF` entries and the blocks of the log are within the log.
-/

namespace Xv6.Bio

open Lib Function Log List

variable {Pid : Type} [DecidableEq Pid]

/-- The copy for the current block has been made. -/
def Sub.past : Sub → Bool
  | .copied _ _ | .written _ _ | .last _ | .done => true
  | _ => false

/-- The copy for the current block is on the disk. -/
def Sub.wrote : Sub → Bool
  | .written _ _ | .last _ | .done => true
  | _ => false

/-- The block of the log for the entry `tail` of the header. -/
def Sys.logKey (s : Sys Pid) (tail : ℕ) : Key := (s.dev, s.start + tail + 1)

/-- The block `commit()` reads first in a step. -/
def Sys.first (s : Sys Pid) : Phase → Key
  | .writeLog tail | .installTrans tail => s.logKey tail
  | _ => (s.dev, s.start)

/-- The block it reads second. -/
def Sys.second (s : Sys Pid) : Phase → Key
  | .writeLog tail | .installTrans tail => (s.dev, s.log.lh.getD tail 0)
  | _ => (s.dev, s.start)

/-- The block it writes. -/
def Sys.dst (s : Sys Pid) : Phase → Key
  | .installTrans tail => (s.dev, s.log.lh.getD tail 0)
  | ph => s.first ph

/-- Process `p` has buffer `i` locked, which is for block `k`. -/
def Held (c : Cache Pid) (p : Pid) (i : Slot) (k : Key) : Prop :=
  (c.buf i).lock = some p ∧ (c.buf i).key = k

/-- `commit()` works on the buffers it is meant to work on. -/
def Body (s : Sys Pid) (p : Pid) (ph : Phase) : Prop :=
  match s.sub with
  | .pre => ∀ k i, (s.cache.pc p).Asks k i → k = s.first ph
  | .one i => Held s.cache p i (s.first ph) ∧ ∀ k j, (s.cache.pc p).Asks k j → k = s.second ph
  | .two i j => Held s.cache p i (s.first ph) ∧ Held s.cache p j (s.second ph)
  | .copied _ dst => Held s.cache p dst (s.dst ph)
  | _ => True

/-- The step of `commit()` works on a block; otherwise it only goes on. -/
def Sys.HasJob (s : Sys Pid) : Phase → Prop
  | .writeLog tail | .installTrans tail => tail < s.log.lh.length
  | .writeHead | .eraseHead => True
  | _ => False

/-- How many blocks have been copied to the log. -/
def Sys.ncopied (s : Sys Pid) : Phase → ℕ
  | .writeLog tail => tail + if s.sub.past then 1 else 0
  | .writeHead | .installTrans _ => s.log.lh.length
  | _ => 0

/-- The entry `t` of the header has been installed. -/
def Installed (s : Sys Pid) (t : ℕ) : Prop :=
  ∃ p, (∃ tail, s.log.pc p = .commit (.installTrans tail) ∧
    (t < tail ∨ t = tail ∧ s.sub.wrote = true)) ∨ s.log.pc p = .commit .clear

/-- A buffer of the cache that is to be written holds the block. -/
def Pins (c : Cache Pid) (k : Key) : Prop :=
  ∃ i, (c.buf i).key = k ∧ (c.buf i).valid = true ∧ (c.buf i).dirty = true

/-- **What holds while a process is in a step of `commit()`.** -/
structure Committing (s : Sys Pid) (p : Pid) (ph : Phase) : Prop where
  body : Body s p ph
  nojob : ¬s.HasJob ph → s.sub = .pre ∧ s.cache.pc p = .idle
  /-- The log holds the blocks that have been copied to it. -/
  copies : ∀ t b, t < s.ncopied ph → s.log.lh[t]? = some b →
    s.cache.flat (s.logKey t) = s.cache.flat (s.dev, b)
  /-- The blocks to be written leave a buffer for the log. -/
  room : 0 < s.ncopied ph → s.log.lh.length < NBUF

/-- **The invariant of the cache and the log.** -/
structure SysInv (s : Sys Pid) : Prop where
  cache : Inv s.cache
  log : Log.Inv s.log
  home : ∀ b ∈ s.log.lh, s.Home (s.dev, b)
  idle : (∀ p, ¬(s.log.pc p).InCommit) → s.sub = .pre
  /-- Whoever has changed a buffer is in an operation, or is committing. -/
  pending : ∀ i, s.cache.pending i = true →
    (∃ q, (s.cache.buf i).lock = some q ∧ (s.log.pc q).InOp) ∨ ∃ src, s.sub = .copied src i
  dirty : ∀ i, (s.cache.buf i).dirty = true → s.Home (s.cache.buf i).key
  /-- A block that has been logged stays in the cache until it is installed. -/
  pinned : ∀ t b, s.log.lh[t]? = some b → Installed s t ∨ Pins s.cache (s.dev, b)
  commit : ∀ p ph, s.log.pc p = .commit ph → Committing s p ph

/-- The buffer keeps its block, and stays marked unless it has been written, for which `w` has to
hold. -/
def Kept (w : Prop) (c c' : Cache Pid) (i : Slot) : Prop :=
  (c'.buf i).key = (c.buf i).key ∧
    ((c'.buf i).dirty = true ∨ w ∧ c'.disk (c.buf i).key = (c.buf i).data)

/-- **A step that keeps the invariant**, the blocks outside of the log, and the buffers that are
marked. -/
structure Quiet (w : Prop) (s s' : Sys Pid) : Prop where
  inv : SysInv s'
  dev : s'.dev = s.dev
  start : s'.start = s.start
  flat : ∀ k, ¬s.InLog k → s'.cache.flat k = s.cache.flat k
  kept : ∀ i, (s.cache.buf i).dirty = true → Kept w s.cache s'.cache i

section Steps

variable {s s' : Sys Pid} {p q : Pid} {ph : Phase} {i : Slot} {b tail : ℕ} {c : Cache Pid} {k : Key}
  {w : Prop}

section

omit [DecidableEq Pid]

theorem inCommit_of_eq {pc : Log.Pc} (h : pc = .commit ph) : pc.InCommit := by rw [h]; trivial

/-- Only one process is in `commit()`. -/
theorem only_commit {l : Log.St Pid} (hl : Log.Inv l) (hp : l.pc p = .commit ph) {ph' : Phase}
    (hq : l.pc q = .commit ph') : q = p ∧ ph' = ph := by
  obtain rfl := hl.unique q p (inCommit_of_eq hq) (inCommit_of_eq hp)
  exact ⟨rfl, Log.Pc.commit.inj (hq.symm.trans hp)⟩

/-- **The invariant while a process commits**: what there is to check. -/
theorem SysInv.of_commit (hc : Inv s.cache) (hl : Log.Inv s.log) (hp : s.log.pc p = .commit ph)
    (home : ∀ b ∈ s.log.lh, s.Home (s.dev, b))
    (hpending : ∀ i, s.cache.pending i = true → ∃ src, s.sub = .copied src i)
    (hdirty : ∀ i, (s.cache.buf i).dirty = true → s.Home (s.cache.buf i).key)
    (hpinned : ∀ t b, s.log.lh[t]? = some b → Installed s t ∨ Pins s.cache (s.dev, b))
    (hcommit : Committing s p ph) : SysInv s := by
  refine ⟨hc, hl, home, fun hno => absurd (inCommit_of_eq hp) (hno p),
    fun i hi => .inr (hpending i hi), hdirty, hpinned, fun q ph' hq => ?_⟩
  obtain ⟨rfl, rfl⟩ := only_commit hl hp hq
  exact hcommit

/-- **The invariant while nobody commits.** -/
theorem SysInv.of_no_commit (hc : Inv s.cache) (hl : Log.Inv s.log)
    (hno : ∀ p ph, s.log.pc p ≠ .commit ph) (hsub : s.sub = .pre)
    (home : ∀ b ∈ s.log.lh, s.Home (s.dev, b))
    (hpending : ∀ i, s.cache.pending i = true →
      ∃ q, (s.cache.buf i).lock = some q ∧ (s.log.pc q).InOp)
    (hdirty : ∀ i, (s.cache.buf i).dirty = true → s.Home (s.cache.buf i).key)
    (hpinned : ∀ b ∈ s.log.lh, Pins s.cache (s.dev, b)) : SysInv s :=
  ⟨hc, hl, home, fun _ => hsub, fun i hi => .inl (hpending i hi), hdirty,
    fun _ b hb => .inr (hpinned b (mem_of_getElem? hb)), fun p ph hp => absurd hp (hno p ph)⟩

/-- While a process commits, no buffer is changed but not written, except for the
copy that is being made. -/
theorem SysInv.pending_of_commit (h : SysInv s) (hp : s.log.pc p = .commit ph)
    (hi : s.cache.pending i = true) : ∃ src, s.sub = .copied src i := by
  rcases h.pending i hi with ⟨q, -, hq⟩ | hsub
  · exact absurd hq (h.log.not_inOp (inCommit_of_eq hp))
  · exact hsub

/-- A call keeps the buffers that are to be written. -/
theorem Call.pins (hcall : Call p s.cache c) (hk : Pins s.cache k) : Pins c k := by
  obtain ⟨i, hk, hv, hd⟩ := hk
  obtain ⟨hv', hd', hk'⟩ := hcall.pin i hv hd
  exact ⟨i, hk'.trans hk, hv', hd'⟩

theorem Call.kept (hcall : Call p s.cache c) (h : Inv s.cache) (hd : (s.cache.buf i).dirty = true) :
    Kept w s.cache c i := by
  obtain ⟨-, hd', hk⟩ := hcall.pin i ((h.buf i).dirty hd) hd
  exact ⟨hk, .inl hd'⟩

/-- A process keeps the buffers it has locked, unless it gives them back. -/
theorem Held.call (h : Held s.cache q i k) (hcall : Call p s.cache c)
    (hq : q ≠ p ∨ c.pc p ≠ .releasing i) : Held c q i k :=
  ⟨(hcall.lock q i h.1).resolve_right fun hc => hq.elim (· hc.1) (· hc.2),
    (hcall.key i (by simp [h.1])).trans h.2⟩

/-- The local variables of `commit()` after a call has gone on, which neither makes
a copy nor writes one. -/
structure SubOk (s : Sys Pid) (p : Pid) (sub : Sub) : Prop where
  other : ¬(s.log.pc p).InCommit → sub = s.sub
  past : sub.past = s.sub.past
  wrote : sub.wrote = s.sub.wrote
  copied : ∀ src i, s.sub = .copied src i → sub = .copied src i

theorem SubOk.refl (s : Sys Pid) (p : Pid) : SubOk s p s.sub :=
  ⟨fun _ => rfl, rfl, rfl, fun _ _ h => h⟩

theorem SubOk.ret (hp : s.log.pc p = .commit ph) (pc : Pc) : SubOk s p (s.sub.ret pc) := by
  refine ⟨fun hn => absurd (inCommit_of_eq hp) hn, ?_, ?_, fun src i hsub => ?_⟩
  · cases pc <;> cases hs : s.sub <;> rfl
  · cases pc <;> cases hs : s.sub <;> rfl
  · cases pc <;> rw [hsub] <;> rfl

/-- **A step of a call to the cache**, by whomever. -/
theorem SysInv.call (h : SysInv s) {sub : Sub} (hc : Inv c) (hcall : Call p s.cache c)
    (hsub : SubOk s p sub)
    (hbody : ∀ ph, s.log.pc p = .commit ph →
      s.HasJob ph ∧ Body { s with cache := c, sub := sub } p ph) :
    Quiet w s { s with cache := c, sub := sub } := by
  refine ⟨⟨hc, h.log, h.home, fun hno => (hsub.other (hno p)).trans (h.idle hno), fun i hi => ?_,
    fun i hi => ?_, fun t b hb => (h.pinned t b hb).imp ?_ hcall.pins, fun q ph hq => ?_⟩, rfl, rfl,
    fun k _ => by rw [hcall.flat], fun i => hcall.kept h.cache⟩
  · obtain ⟨r, hr, -⟩ := (hc.buf i).pending hi
    rw [hcall.pending] at hi
    refine (h.pending i hi).imp ?_ fun ⟨src, hs⟩ => ⟨src, hsub.copied src i hs⟩
    rintro ⟨q, hq, hop⟩
    refine ⟨q, ?_, hop⟩
    -- the buffer is still locked, and by the same process
    rcases hcall.lock q i hq with hl | ⟨rfl, -⟩
    · exact hl
    · rw [hr]
      rcases hcall.own r i hr with hr' | rfl
      · exact congrArg some (Option.some.inj (hr'.symm.trans hq))
      · rfl
  · obtain ⟨hd, hk⟩ := hcall.dirty i hi
    rw [hk]
    exact h.dirty i hd
  · rintro ⟨q, ⟨tail, hq, htail⟩ | hq⟩
    · exact ⟨q, .inl ⟨tail, hq, htail.imp_right fun ⟨ht, hw⟩ => ⟨ht, hsub.wrote.trans hw⟩⟩⟩
    · exact ⟨q, .inr hq⟩
  · have hold := h.commit q ph hq
    have hn : ({ s with cache := c, sub := sub } : Sys Pid).ncopied ph = s.ncopied ph := by
      cases ph <;> simp [Sys.ncopied, hsub.past]
    suffices hown : Body { s with cache := c, sub := sub } q ph ∧
        (¬s.HasJob ph → sub = .pre ∧ c.pc q = .idle) by
      refine ⟨hown.1, hown.2, fun t b ht hb => ?_, fun hpos => hold.room (hn ▸ hpos)⟩
      rw [hcall.flat]
      exact hold.copies t b (hn ▸ ht) hb
    rcases eq_or_ne q p with rfl | hqp
    · obtain ⟨hjob, hb⟩ := hbody ph hq
      exact ⟨hb, fun hno => absurd hjob hno⟩
    · -- somebody else is in the middle of a call
      have hp : ¬(s.log.pc p).InCommit := fun hp => hqp (h.log.unique q p (inCommit_of_eq hq) hp)
      have hheld : ∀ {i k}, Held s.cache q i k → Held c q i k := fun hi => hi.call hcall (.inl hqp)
      have hb := hold.body
      rw [hsub.other hp, hcall.pc q hqp]
      refine ⟨?_, hold.nojob⟩
      unfold Body at hb ⊢
      rw [hcall.pc q hqp]
      cases hs : s.sub with
      | pre => rw [hs] at hb; exact hb
      | one i => rw [hs] at hb; exact ⟨hheld hb.1, hb.2⟩
      | two i j => rw [hs] at hb; exact ⟨hheld hb.1, hheld hb.2⟩
      | copied src dst => rw [hs] at hb; exact hheld hb
      | _ => trivial

/-- What holds in `commit()` depends only on the header. -/
theorem Committing.log (h : Committing s p ph) {l : Log.St Pid} (hlh : l.lh = s.log.lh) :
    Committing { s with log := l } p ph := by
  have hn : ({ s with log := l } : Sys Pid).ncopied ph = s.ncopied ph := by
    cases ph <;> simp [Sys.ncopied, hlh]
  refine ⟨?_, fun hno => h.nojob fun hj => hno ?_, fun t b ht hb => h.copies t b (hn ▸ ht) (hlh ▸ hb),
    fun hpos => by rw [hlh]; exact h.room (hn ▸ hpos)⟩
  · have hb := h.body
    have h1 : ({ s with log := l } : Sys Pid).first ph = s.first ph := by cases ph <;> rfl
    have h2 : ({ s with log := l } : Sys Pid).second ph = s.second ph := by
      cases ph <;> simp [Sys.second, hlh]
    have h3 : ({ s with log := l } : Sys Pid).dst ph = s.dst ph := by
      cases ph <;> simp [Sys.dst, Sys.first, Sys.logKey, hlh]
    unfold Body at hb ⊢
    rwa [h1, h2, h3]
  · cases ph <;> simp_all [Sys.HasJob]

/-- **A step of the log** that leaves the header and `commit()` alone. -/
theorem SysInv.logStep (h : SysInv s) {l : Log.St Pid} (hl : Log.Inv l) (hlh : l.lh = s.log.lh)
    (hcommit : ∀ q ph, l.pc q = .commit ph ↔ s.log.pc q = .commit ph)
    (hop : ∀ i q, s.cache.pending i = true → (s.cache.buf i).lock = some q →
      (s.log.pc q).InOp → (l.pc q).InOp) : SysInv { s with log := l } where
  cache := h.cache
  log := hl
  home := fun b hb => h.home b (hlh ▸ hb)
  idle := fun hno => h.idle fun p hp => by
    cases hpc : s.log.pc p with
    | commit ph => exact hno p (inCommit_of_eq ((hcommit p ph).mpr hpc))
    | _ => rw [hpc] at hp; exact hp
  pending := fun i hi => (h.pending i hi).imp_left fun ⟨q, hq, hqop⟩ => ⟨q, hq, hop i q hi hq hqop⟩
  dirty := h.dirty
  pinned := by
    intro t b hb
    rw [hlh] at hb
    refine (h.pinned t b hb).imp_left ?_
    rintro ⟨q, ⟨tail, hq, htail⟩ | hq⟩
    · exact ⟨q, .inl ⟨tail, (hcommit q _).mpr hq, htail⟩⟩
    · exact ⟨q, .inr ((hcommit q _).mpr hq)⟩
  commit := fun q ph hq => (h.commit q ph ((hcommit q ph).mp hq)).log hlh

/-- While a process is in an operation, nobody commits. -/
theorem SysInv.sub_of_inOp (h : SysInv s) (hp : (s.log.pc p).InOp) : s.sub = .pre :=
  h.idle fun _ hq => h.log.not_inOp hq hp

theorem SysInv.pending_of_inOp (h : SysInv s) (hp : (s.log.pc p).InOp)
    (hi : s.cache.pending i = true) : ∃ q, (s.cache.buf i).lock = some q ∧ (s.log.pc q).InOp :=
  (h.pending i hi).resolve_right fun ⟨_, hs⟩ => absurd ((h.sub_of_inOp hp).symm.trans hs) (by simp)

theorem SysInv.pinned_of_inOp (h : SysInv s) (hp : (s.log.pc p).InOp) (hb : b ∈ s.log.lh) :
    Pins s.cache (s.dev, b) := by
  obtain ⟨t, ht⟩ := mem_iff_getElem?.mp hb
  rcases h.pinned t b ht with ⟨q, ⟨tail, hq, -⟩ | hq⟩ | hpin
  · exact absurd hp (h.log.not_inOp (inCommit_of_eq hq))
  · exact absurd hp (h.log.not_inOp (inCommit_of_eq hq))
  · exact hpin

theorem pins_modify (c : Cache Pid) (i : Slot) (x : Block) (hk : Pins c k) :
    Pins (Bio.modify c i x) k := by
  obtain ⟨j, hk, hv, hd⟩ := hk
  obtain ⟨-, hk', hv', hd'⟩ := modify_buf c i x j
  exact ⟨j, hk'.trans hk, hv'.trans hv, hd'.trans hd⟩

theorem kept_modify (hd : (c.buf i).dirty = true) (j : Slot) (x : Block) :
    Kept w c (Bio.modify c j x) i := by
  obtain ⟨-, hk, -, hd'⟩ := modify_buf c j x i
  exact ⟨hk, .inl (hd'.trans hd)⟩

end

/-- **A process in an operation changes a buffer.** -/
theorem SysInv.modify (h : SysInv s) (hpc : s.cache.pc p = .idle) (hp : (s.log.pc p).InOp)
    (hl : (s.cache.buf i).lock = some p) (x : Block) :
    SysInv { s with cache := modify s.cache i x } := by
  have hbuf := modify_buf s.cache i x
  refine SysInv.of_no_commit (h.cache.modify hpc hl x) h.log (fun q ph hq => h.log.not_inOp
    (inCommit_of_eq hq) hp) (h.sub_of_inOp hp) h.home (fun j hj => ?_) (fun j hj => ?_)
    fun b hb => pins_modify _ i x (h.pinned_of_inOp hp hb)
  · refine (?_ : ∃ q, (s.cache.buf j).lock = some q ∧ (s.log.pc q).InOp).imp fun q hq =>
      ⟨(hbuf j).1.trans hq.1, hq.2⟩
    rcases eq_or_ne j i with rfl | hji
    · exact ⟨p, hl, hp⟩
    · change update s.cache.pending i true j = true at hj
      rw [update_of_ne hji] at hj
      exact h.pending_of_inOp hp hj
  · rw [(hbuf j).2.1]
    exact h.dirty j ((hbuf j).2.2.2.symm.trans hj)

/-- **`log_write` stores the block and pins its buffer.** -/
theorem SysInv.logAppend (h : SysInv s) (hpc : s.cache.pc p = .idle)
    (hl : (s.cache.buf i).lock = some p) (home : s.Home (s.cache.buf i).key) {l : Log.St Pid}
    (hlog : Log.exec s.log (.logAppend p (s.cache.buf i).key.2) = .ok l)
    (hs' : s' = { s with
      log := l
      cache := { s.cache.set i { s.cache.buf i with dirty := true } with
        pending := update s.cache.pending i false } }) :
    SysInv s' ∧ ∀ j, (s.cache.buf j).dirty = true → Kept w s.cache s'.cache j := by
  have hstep : Log.step s.log (.logAppend p (s.cache.buf i).key.2) = some l :=
    Effect.toOption_eq_some.mpr hlog
  have hv : (s.cache.buf i).valid = true := (h.cache.buf i).valid p hl (by simp [hpc])
  -- only the mark of the one buffer changes
  have hbuf : ∀ j, (s'.cache.buf j).key = (s.cache.buf j).key ∧
      (s'.cache.buf j).lock = (s.cache.buf j).lock ∧ (s'.cache.buf j).valid = (s.cache.buf j).valid ∧
      ((s'.cache.buf j).dirty = true ↔ (s.cache.buf j).dirty = true ∨ j = i) := by
    intro j
    rw [hs']
    change (update s.cache.buf i _ j).key = _ ∧ (update s.cache.buf i _ j).lock = _ ∧
      (update s.cache.buf i _ j).valid = _ ∧ ((update s.cache.buf i _ j).dirty = true ↔ _)
    rcases eq_or_ne j i with rfl | hji
    · rw [update_self]
      exact ⟨rfl, rfl, rfl, iff_of_true rfl (.inr rfl)⟩
    · rw [update_of_ne hji]
      exact ⟨rfl, rfl, rfl, (or_iff_left hji).symm⟩
  refine ⟨?_, fun j hd => ⟨(hbuf j).1, .inl ((hbuf j).2.2.2.mpr (.inl hd))⟩⟩
  cases Log.Step.of_step hstep with
  | append _ _ hpl =>
    subst hs'
    have hp : (s.log.pc p).InOp := by rw [hpl]; trivial
    have hop : ∀ q, (s.log.pc q).InOp → ((update s.log.pc p Log.Pc.inOp) q).InOp := by
      intro q hq
      rcases eq_or_ne q p with rfl | hqp
      · rw [update_self]
        trivial
      · rwa [update_of_ne hqp]
    have hinv := h.log.step hstep
    refine SysInv.of_no_commit (h.cache.pin hpc hl) hinv (fun q ph hq => hinv.not_inOp
      (inCommit_of_eq hq) (hop p hp)) (h.sub_of_inOp hp) (fun b hb => ?_) (fun j hj => ?_)
      (fun j hj => ?_) fun b hb => ?_
    · rcases mem_absorb.mp hb with rfl | hb
      · exact ⟨rfl, home.2⟩
      · exact h.home b hb
    · change update s.cache.pending i false j = true at hj
      rcases eq_or_ne j i with rfl | hji
      · simp at hj
      · rw [update_of_ne hji] at hj
        obtain ⟨q, hq, hqop⟩ := h.pending_of_inOp hp hj
        exact ⟨q, (hbuf j).2.1.trans hq, hop q hqop⟩
    · rw [(hbuf j).1]
      rcases (hbuf j).2.2.2.mp hj with hd | rfl
      · exact h.dirty j hd
      · exact home
    · rcases mem_absorb.mp hb with rfl | hb
      · exact ⟨i, (hbuf i).1.trans (Prod.ext home.1 rfl), (hbuf i).2.2.1.trans hv,
          (hbuf i).2.2.2.mpr (.inr rfl)⟩
      · obtain ⟨j, hk, hv', hd⟩ := h.pinned_of_inOp hp hb
        exact ⟨j, (hbuf j).1.trans hk, (hbuf j).2.2.1.trans hv', (hbuf j).2.2.2.mpr (.inl hd)⟩

/-! ### The steps of `commit()` -/

omit [DecidableEq Pid] in
/-- A block of the log is no home block. -/
theorem Sys.InLog.not_home (hk : s.InLog k) : ¬s.Home k := by
  rintro ⟨-, hout⟩
  obtain ⟨-, hlo, hhi⟩ := hk
  omega

omit [DecidableEq Pid] in
theorem Sys.inLog_logKey (htail : tail + 1 < nlog) : s.InLog (s.logKey tail) :=
  ⟨rfl, by change s.start ≤ s.start + tail + 1; omega,
    by change s.start + tail + 1 < s.start + nlog; omega⟩

omit [DecidableEq Pid] in
theorem Sys.inLog_start : s.InLog (s.dev, s.start) :=
  ⟨rfl, le_refl s.start, Nat.lt_add_of_pos_right (by decide)⟩

variable (h : SysInv s)
include h

omit [DecidableEq Pid] in
/-- Blocks are installed only from `install_trans` on. -/
theorem SysInv.installed_iff (hp : s.log.pc p = .commit ph) (t : ℕ) :
    Installed s t ↔ (∃ tail, ph = .installTrans tail ∧ (t < tail ∨ t = tail ∧ s.sub.wrote = true)) ∨
      ph = .clear := by
  constructor
  · rintro ⟨q, ⟨tail, hq, ht⟩ | hq⟩
    · exact .inl ⟨tail, (only_commit h.log hp hq).2.symm, ht⟩
    · exact .inr (only_commit h.log hp hq).2.symm
  · rintro (⟨tail, rfl, ht⟩ | rfl)
    · exact ⟨p, .inl ⟨tail, hp, ht⟩⟩
    · exact ⟨p, .inr hp⟩

omit [DecidableEq Pid] in
/-- **The log does not run over its end**: the logged blocks all have a buffer of
their own, and one more is needed to copy the first of them. -/
theorem SysInv.room_of_first (hp : s.log.pc p = .commit (.writeLog 0))
    (hi : (s.cache.buf i).key = s.logKey 0) : s.log.lh.length < NBUF := by
  have hsub : s.log.lh.toFinset ⊆ ((Finset.univ : Finset Slot).erase i).image
      fun j => (s.cache.buf j).key.2 := by
    intro b hb
    rw [mem_toFinset] at hb
    obtain ⟨t, ht⟩ := mem_iff_getElem?.mp hb
    rcases h.pinned t b ht with hinst | ⟨j, hk, -, -⟩
    · exact absurd ((h.installed_iff hp t).mp hinst) (by simp)
    · refine Finset.mem_image.mpr ⟨j, Finset.mem_erase.mpr ⟨?_, Finset.mem_univ j⟩, by rw [hk]⟩
      rintro rfl
      have hhome := h.home b hb
      rw [← hk, hi] at hhome
      exact (Sys.inLog_logKey (by decide)).not_home hhome
  have hle := (Finset.card_le_card hsub).trans Finset.card_image_le
  rw [toFinset_card_of_nodup h.log.nodup, Finset.card_erase_of_mem (Finset.mem_univ i),
    Finset.card_univ, Fintype.card_fin] at hle
  have : 0 < NBUF := by decide
  omega

variable (hp : s.log.pc p = .commit ph)
include hp

/-- **`commit()` makes a copy**, or fills in the header. -/
theorem SysInv.copy (hpc : s.cache.pc p = .idle) (hjob : s.HasJob ph) (hpast : s.sub.past = false)
    {src dst : Slot} (hdst : Held s.cache p dst (s.dst ph)) (x : Block)
    (hflat : ∀ k, ¬s.InLog k → (Bio.modify s.cache dst x).flat k = s.cache.flat k)
    (hcopies : ∀ t b, t < ({ s with sub := .copied src dst } : Sys Pid).ncopied ph →
      s.log.lh[t]? = some b → (Bio.modify s.cache dst x).flat (s.logKey t) =
        (Bio.modify s.cache dst x).flat (s.dev, b))
    (hroom : 0 < ({ s with sub := .copied src dst } : Sys Pid).ncopied ph →
      s.log.lh.length < NBUF) :
    Quiet w s { s with cache := Bio.modify s.cache dst x, sub := .copied src dst } := by
  have hbuf := modify_buf s.cache dst x
  have hwrote : s.sub.wrote = false := by
    cases hs : s.sub <;> rw [hs] at hpast <;> first | rfl | exact absurd hpast (by simp [Sub.past])
  refine ⟨.of_commit (h.cache.modify hpc hdst.1 x) h.log hp h.home (fun j hj => ?_) (fun j hj => ?_)
    (fun t b hb => (h.pinned t b hb).imp ?_ (pins_modify _ dst x)) ⟨?_, fun hno => absurd hjob hno,
      hcopies, hroom⟩, rfl, rfl, hflat, fun j hd => kept_modify hd dst x⟩
  · rcases eq_or_ne j dst with rfl | hjd
    · exact ⟨src, rfl⟩
    · change update s.cache.pending dst true j = true at hj
      rw [update_of_ne hjd] at hj
      obtain ⟨src', hs⟩ := h.pending_of_commit hp hj
      rw [hs] at hpast
      exact absurd hpast (by simp [Sub.past])
  · rw [(hbuf j).2.1]
    exact h.dirty j ((hbuf j).2.2.2.symm.trans hj)
  · rintro ⟨q, ⟨tail, hq, ht | ⟨-, hw⟩⟩ | hq⟩
    · exact ⟨q, .inl ⟨tail, hq, .inl ht⟩⟩
    · exact absurd hw (by simp [hwrote])
    · exact ⟨q, .inr hq⟩
  · exact ⟨(hbuf dst).1.trans hdst.1, (hbuf dst).2.1.trans hdst.2⟩

omit [DecidableEq Pid] in
/-- The block that `commit()` writes is a logged one only in `install_trans`, for the current entry. -/
theorem SysInv.installs (hjob : s.HasJob ph) (hpast : s.sub.past = true) {t : ℕ}
    (hb : s.log.lh[t]? = some b) (hkey : s.dst ph = (s.dev, b)) : ph = .installTrans t := by
  have hhome := h.home b (mem_of_getElem? hb)
  rw [← hkey] at hhome
  cases ph with
  | installTrans tail =>
    obtain ⟨ht, hbt⟩ := List.getElem?_eq_some_iff.mp hb
    have hget : s.log.lh.getD tail 0 = b := (Prod.mk.inj hkey).2
    have htail : tail < s.log.lh.length := hjob
    rw [getD_eq_getElem?_getD, List.getElem?_eq_getElem htail] at hget
    rw [(List.Nodup.getElem_inj_iff h.log.nodup).mp (hget.trans hbt.symm)]
  | writeLog tail =>
    have hroom : s.log.lh.length < nlog :=
      (h.commit p _ hp).room (by simp [Sys.ncopied, hpast])
    have htail : tail < s.log.lh.length := hjob
    exact absurd hhome (Sys.inLog_logKey (by omega)).not_home
  | _ => exact absurd hhome Sys.inLog_start.not_home

/-- **`commit()` writes a copy to the disk.** A home block it writes is
installed. -/
theorem SysInv.write (hw : w) (hpc : s.cache.pc p = .idle)
    (hjob : s.HasJob ph) {src dst : Slot} (hsub : s.sub = .copied src dst) {sub : Sub}
    (hpast : sub.past = true) (hwrote : sub.wrote = true)
    (hbody : ∀ src' dst', sub ≠ .copied src' dst') (hc : Bio.bwrite s.cache p dst = .ok c) :
    Quiet w s { s with cache := c, sub := sub } := by
  have hinv := h.cache.bwrite hpc hc
  have hs : s.sub.past = true := by rw [hsub]; rfl
  have hold := h.commit p ph hp
  have hdst : (s.cache.buf dst).key = s.dst ph := by
    have hb := hold.body
    rw [Body, hsub] at hb
    exact hb.2
  have hn : ({ s with cache := c, sub := sub } : Sys Pid).ncopied ph = s.ncopied ph := by
    cases ph <;> simp only [Sys.ncopied, hpast, hs]
  have hflat := flat_bwrite hc
  unfold Bio.bwrite at hc
  split at hc
  case isFalse => exact absurd hc (by simp)
  rw [iderw_dirty] at hc
  obtain rfl := Effect.ok.inj hc
  have hself : update s.cache.buf dst
      { s.cache.buf dst with dirty := false, valid := true } dst =
      { s.cache.buf dst with dirty := false, valid := true } := update_self ..
  have hne : ∀ j, j ≠ dst → update s.cache.buf dst
      { s.cache.buf dst with dirty := false, valid := true } j = s.cache.buf j :=
    fun j hj => update_of_ne hj ..
  refine ⟨.of_commit hinv h.log hp h.home (fun j hj => ?_) (fun j hj => ?_) (fun t b hb => ?_)
    ⟨?_, fun hno => absurd hjob hno, fun t b ht hb => hold.copies t b (hn ▸ ht) hb,
      fun hpos => hold.room (hn ▸ hpos)⟩, rfl, rfl, fun k _ => congrFun hflat k, fun j hd => ?_⟩
  · change update s.cache.pending dst false j = true at hj
    rcases eq_or_ne j dst with rfl | hjd
    · simp at hj
    · rw [update_of_ne hjd] at hj
      obtain ⟨src', hs⟩ := h.pending_of_commit hp hj
      rw [hsub] at hs
      exact absurd (Sub.copied.inj hs).2.symm hjd
  · change (update s.cache.buf dst _ j).dirty = true at hj
    change s.Home (update s.cache.buf dst _ j).key
    rcases eq_or_ne j dst with rfl | hjd
    · rw [hself] at hj
      simp at hj
    · rw [hne j hjd] at hj ⊢
      exact h.dirty j hj
  · rcases h.pinned t b hb with ⟨q, ⟨tail, hq, ht⟩ | hq⟩ | ⟨j, hk, hv, hd⟩
    · exact .inl ⟨q, .inl ⟨tail, hq, ht.imp_right fun hw => ⟨hw.1, hwrote⟩⟩⟩
    · exact .inl ⟨q, .inr hq⟩
    · rcases eq_or_ne j dst with rfl | hjd
      · -- the buffer is the one that is written, so its block is being installed
        obtain rfl := h.installs hp hjob hs hb (hdst.symm.trans hk)
        exact .inl ⟨p, .inl ⟨t, hp, .inr ⟨rfl, hwrote⟩⟩⟩
      · refine .inr ⟨j, ?_⟩
        change (update s.cache.buf dst _ j).key = _ ∧ (update s.cache.buf dst _ j).valid = true ∧
          (update s.cache.buf dst _ j).dirty = true
        rw [hne j hjd]
        exact ⟨hk, hv, hd⟩
  · unfold Body
    cases sub with
    | written | last | done => trivial
    | copied src' dst' => exact absurd rfl (hbody src' dst')
    | _ => exact absurd hpast (by simp [Sub.past])
  · change (update s.cache.buf dst _ j).key = _ ∧ ((update s.cache.buf dst _ j).dirty = true ∨
      w ∧ update s.cache.disk _ _ _ = _)
    rcases eq_or_ne j dst with rfl | hjd
    · rw [hself]
      exact ⟨rfl, .inr ⟨hw, update_self ..⟩⟩
    · rw [hne j hjd]
      exact ⟨rfl, .inl hd⟩

omit [DecidableEq Pid] in
/-- When `commit()` is done with a step, every changed buffer has been logged or
written. -/
theorem SysInv.pending_of_done
    (hdone : s.HasJob ph → s.sub = .done) (i : Slot) : s.cache.pending i = false := by
  by_contra hi
  obtain ⟨src, hs⟩ := h.pending_of_commit hp (by simpa using hi)
  by_cases hj : s.HasJob ph
  · rw [hdone hj] at hs
    simp at hs
  · rw [((h.commit p ph hp).nojob hj).1] at hs
    simp at hs

omit h hp

omit [DecidableEq Pid] in
/-- `commit()` begins a step. -/
theorem Committing.begin (hsub : s.sub = .pre) (hpc : s.cache.pc p = .idle)
    (hcopies : ∀ t b, t < s.ncopied ph → s.log.lh[t]? = some b →
      s.cache.flat (s.logKey t) = s.cache.flat (s.dev, b))
    (hroom : 0 < s.ncopied ph → s.log.lh.length < NBUF) : Committing s p ph := by
  refine ⟨?_, fun _ => ⟨hsub, hpc⟩, hcopies, hroom⟩
  unfold Body
  rw [hsub, hpc]
  rintro k i (hk | hk) <;> cases hk

omit [DecidableEq Pid] in
/-- There is nothing in the log yet, or no longer. -/
theorem Committing.begin_zero (hsub : s.sub = .pre) (hpc : s.cache.pc p = .idle)
    (hn : s.ncopied ph = 0) : Committing s p ph :=
  .begin hsub hpc (fun t _ ht => absurd (hn ▸ ht) (Nat.not_lt_zero t))
    fun hpos => absurd hn hpos.ne'

include h hp

/-- `commit()` goes on to a step for which no more blocks need to be in the log
and no fewer are installed. -/
theorem SysInv.goto_commit
    (hpc : s.cache.pc p = .idle) (hpending : ∀ i, s.cache.pending i = false) (ph' : Phase)
    (hs' : s' = { s with log := s.log.goto p (.commit ph'), sub := .pre }) (hlog : Log.Inv s'.log)
    (hle : s'.ncopied ph' ≤ s.ncopied ph) (hinst : ∀ t, Installed s t → Installed s' t) :
    SysInv s' := by
  subst hs'
  have hold := h.commit p ph hp
  exact .of_commit h.cache hlog (goto_pc_self ..) h.home (fun i hi => absurd hi (by simp [hpending i]))
    h.dirty (fun t b hb => (h.pinned t b hb).imp_left (hinst t))
    (.begin rfl hpc (fun t b ht => hold.copies t b (ht.trans_le hle))
      fun hpos => hold.room (hpos.trans_le hle))

/-- **`commit()` goes on** to its next step, when it is done with the current
one. -/
theorem SysInv.advance (hpc : s.cache.pc p = .idle)
    (hdone : s.HasJob ph → s.sub = .done) : Quiet w s (s.advance p ph) := by
  have hlog : Log.Inv (Log.commit s.log p ph) :=
    h.log.step (a := .commit p ph) (Effect.toOption_eq_some.mpr (if_pos hp))
  have hpending := h.pending_of_done hp hdone
  refine ⟨?_, rfl, rfl, fun _ _ => rfl, fun _ hd => ⟨rfl, .inl hd⟩⟩
  cases ph with
  | start =>
    exact h.goto_commit hp hpc hpending (Phase.start.next s.log.lh.length) rfl hlog
      (by rw [Phase.next]; split <;> exact Nat.le_refl 0)
      fun t ht => absurd ((h.installed_iff hp t).mp ht) (by simp)
  | writeLog tail =>
    refine h.goto_commit hp hpc hpending ((Phase.writeLog tail).next s.log.lh.length) rfl
      hlog ?_ fun t ht => absurd ((h.installed_iff hp t).mp ht) (by simp)
    rw [Phase.next]
    split
    · rename_i htail
      rw [Sys.ncopied, Sys.ncopied, hdone htail]
      exact le_refl (tail + 1)
    · simp only [Sys.ncopied]
      change s.log.lh.length ≤ _
      omega
  | writeHead =>
    exact h.goto_commit hp hpc hpending (.installTrans 0) rfl hlog (le_refl _)
      fun t ht => absurd ((h.installed_iff hp t).mp ht) (by simp)
  | installTrans tail =>
    refine h.goto_commit hp hpc hpending ((Phase.installTrans tail).next s.log.lh.length)
      rfl hlog ?_ fun t ht => ⟨p, ?_⟩
    · rw [Phase.next]
      split
      · exact le_refl _
      · exact Nat.zero_le _
    · change (∃ tail', (s.log.goto p _).pc p = _ ∧ _) ∨ (s.log.goto p _).pc p = _
      rw [goto_pc_self, Phase.next]
      rcases (h.installed_iff hp t).mp ht with ⟨tail', heq, ht'⟩ | heq
      · obtain rfl := Phase.installTrans.inj heq
        split
        · exact .inl ⟨tail + 1, rfl, .inl (by omega)⟩
        · exact .inr rfl
      · simp at heq
  | clear =>
    exact .of_commit h.cache hlog (goto_pc_self ..) (fun b hb => absurd hb not_mem_nil)
      (fun i hi => absurd hi (by simp [Sys.advance, hpending i])) h.dirty
      (fun t b hb => absurd hb (by simp [Sys.advance, Log.commit])) (.begin_zero rfl hpc rfl)
  | eraseHead =>
    exact h.goto_commit hp hpc hpending .finish rfl hlog (Nat.zero_le _)
      fun t ht => absurd ((h.installed_iff hp t).mp ht) (by simp)
  | finish =>
    refine .of_no_commit h.cache hlog (fun q ph hq => ?_) rfl h.home
      (fun i hi => absurd hi (by simp [Sys.advance, hpending i])) h.dirty fun b hb => ?_
    · change ({ s.log with committing := false }.wakeup.goto p .idle).pc q = _ at hq
      rcases eq_or_ne q p with rfl | hqp
      · rw [goto_pc_self] at hq
        simp at hq
      · rw [goto_pc_of_ne _ _ hqp] at hq
        have hq' : (s.log.pc q).InCommit := by
          rw [← wakeup_inCommit]
          exact inCommit_of_eq hq
        exact hqp (h.log.unique q p hq' (inCommit_of_eq hp))
    · obtain ⟨t, ht⟩ := mem_iff_getElem?.mp hb
      exact (h.pinned t b ht).resolve_left fun hc => absurd ((h.installed_iff hp t).mp hc) (by simp)

/-- **A step of a call that `commit()` has made.** -/
theorem SysInv.commitNext (hc : Bio.next s.cache p = .ok c) :
    Quiet w s { s with cache := c, sub := s.sub.ret (s.cache.pc p) } := by
  obtain ⟨hne, hpc⟩ := pc_next hc
  have hcall := h.cache.call_next hc
  have hold := h.commit p ph hp
  have hheld : ∀ {i k}, Held s.cache p i k → Held c p i k := fun hi => hi.call hcall (.inr (by
    rcases hpc with ⟨_, _, -, hr⟩ | hr <;> simp [hr]))
  -- a buffer that `bread` returns is locked and for the block that was asked for
  have hread : ∀ {k i}, s.cache.pc p = .reading k i → Held c p i k := fun {k i} hr =>
    hheld ⟨(h.cache.buf i).reading p k hr, (h.cache.buf i).asked p k (.inr hr)⟩
  have hasks : ∀ {k i}, (c.pc p).Asks k i → (s.cache.pc p).Asks k i ∧
      ∃ k i, s.cache.pc p = .getting k i := by
    intro k i hk
    rcases hpc with ⟨k', i', hg, hr⟩ | hidle
    · rw [hr] at hk
      obtain ⟨rfl, rfl⟩ : k' = k ∧ i' = i := by simpa [Pc.Asks] using hk
      exact ⟨.inl hg, _, _, hg⟩
    · rw [hidle] at hk
      exact absurd hk (by simp [Pc.Asks])
  refine h.call (h.cache.next hc) hcall (SubOk.ret hp _) fun ph' hph' => ?_
  obtain rfl := (only_commit h.log hp hph').2
  refine ⟨by_contra fun hno => hne (hold.nojob hno).2, ?_⟩
  have hb := hold.body
  unfold Body at hb ⊢
  cases hs : s.sub with
  | pre =>
    rw [hs] at hb
    cases hq : s.cache.pc p with
    | reading k i =>
      refine ⟨hb k i (.inr hq) ▸ hread hq, fun k' j hk => ?_⟩
      obtain ⟨-, k'', i', hg⟩ := hasks hk
      exact absurd (hq.symm.trans hg) (by simp)
    | idle => exact absurd hq hne
    | _ => exact fun k i hk => hb k i (hasks hk).1
  | one j =>
    rw [hs] at hb
    cases hq : s.cache.pc p with
    | reading k i => exact ⟨hheld hb.1, hb.2 k i (.inr hq) ▸ hread hq⟩
    | idle => exact absurd hq hne
    | _ => exact ⟨hheld hb.1, fun k i hk => hb.2 k i (hasks hk).1⟩
  | two i j =>
    rw [hs] at hb
    cases hq : s.cache.pc p <;> exact ⟨hheld hb.1, hheld hb.2⟩
  | copied src dst =>
    rw [hs] at hb
    cases hq : s.cache.pc p <;> exact hheld hb
  | _ => cases hq : s.cache.pc p <;> trivial

/-- `commit()` calls `bget`. -/
theorem SysInv.commitBget (hpc : s.cache.pc p = .idle) (hjob : s.HasJob ph)
    (hk : s.sub = .pre ∧ k = s.first ph ∨ (∃ i, s.sub = .one i) ∧ k = s.second ph)
    (hmap : (Bio.bget s.cache p k).map (fun c => { s with cache := c }) = .ok s') :
    Quiet w s s' := by
  obtain ⟨c, hc, rfl⟩ := Effect.map_eq_ok.mp hmap
  have hcall := h.cache.call_bget hc
  obtain ⟨i, hi⟩ := pc_bget hc
  have hasks : ∀ {k' j}, (c.pc p).Asks k' j → k' = k := by
    intro k' j hk'
    rw [hi] at hk'
    simp only [Pc.Asks, Pc.getting.injEq, reduceCtorEq, or_false] at hk'
    exact hk'.1.symm
  refine h.call (h.cache.bget hpc hc) hcall (SubOk.refl s p) fun ph' hph' => ?_
  obtain rfl := (only_commit h.log hp hph').2
  refine ⟨hjob, ?_⟩
  have hb := (h.commit p _ hp).body
  unfold Body at hb ⊢
  rcases hk with ⟨hs, hk⟩ | ⟨⟨j, hs⟩, hk⟩
  · rw [hs]
    exact fun k' j hk' => (hasks hk').trans hk
  · rw [hs] at hb ⊢
    exact ⟨hb.1.call hcall (.inr (by simp [hi])), fun k' j hk' => (hasks hk').trans hk⟩

/-- `commit()` calls `brelse`. -/
theorem SysInv.commitBrelse (hpc : s.cache.pc p = .idle) (hjob : s.HasJob ph)
    (hsub : (∃ src dst, s.sub = .written src dst) ∨ ∃ dst, s.sub = .last dst)
    (hmap : (Bio.brelse s.cache p i).map (fun c => { s with cache := c }) = .ok s') :
    Quiet w s s' := by
  obtain ⟨c, hc, rfl⟩ := Effect.map_eq_ok.mp hmap
  have hpend : s.cache.pending i = false := by
    by_contra hi
    obtain ⟨src, hs⟩ := h.pending_of_commit hp (by simpa using hi)
    rcases hsub with ⟨_, _, hs'⟩ | ⟨_, hs'⟩ <;> rw [hs] at hs' <;> exact absurd hs' (by simp)
  refine h.call (h.cache.brelse hpc hpend hc) (call_brelse hc) (SubOk.refl s p) fun ph' hph' =>
    ⟨(only_commit h.log hp hph').2 ▸ hjob, ?_⟩
  unfold Body
  rcases hsub with ⟨_, _, hs⟩ | ⟨_, hs⟩ <;> rw [hs] <;> trivial

omit hp

omit [DecidableEq Pid] in
/-- The buffers of `commit()` hold what their blocks should. -/
theorem SysInv.data_of_held (hpc : s.cache.pc p = .idle)
    (hi : Held s.cache p i k) : (s.cache.buf i).data = s.cache.flat k := by
  rw [← hi.2]
  exact (h.cache.buf i).data ((h.cache.buf i).valid p hi.1 (by simp [hpc]))

omit h [DecidableEq Pid] in
/-- Only the block of the buffer changes. -/
theorem Held.flat_modify (hi : Held c p i k) (x : Block) {k' : Key} (hk : k' ≠ k) :
    (Bio.modify c i x).flat k' = c.flat k' := by
  refine update_of_ne ?_ ..
  rwa [hi.2]

variable (htail : s.log.lh[tail]? = some b)
include htail

/-- **`write_log` copies a block to the log.** -/
theorem SysInv.copyToLog
    (hp : s.log.pc p = .commit (.writeLog tail)) (hpc : s.cache.pc p = .idle) {j : Slot}
    (hpast : s.sub.past = false) (hi : Held s.cache p i (s.logKey tail))
    (hj : Held s.cache p j (s.dev, b)) : Quiet w s
      { s with cache := Bio.modify s.cache i (s.cache.buf j).data, sub := .copied j i } := by
  have hold := h.commit p _ hp
  obtain ⟨hlt, -⟩ := List.getElem?_eq_some_iff.mp htail
  have hroom : s.log.lh.length < NBUF := by
    rcases Nat.eq_zero_or_pos tail with rfl | hpos
    · exact h.room_of_first hp hi.2
    · exact hold.room (by simp only [Sys.ncopied]; omega)
  have hin := s.inLog_logKey (lt_of_le_of_lt hlt hroom : tail + 1 < nlog)
  refine h.copy hp hpc hlt hpast hi _ (fun k hk => hi.flat_modify _ ?_) (fun t b' ht hb' => ?_)
    fun _ => hroom
  · rintro rfl
    exact hk hin
  · have hhome : (s.dev, b') ≠ s.logKey tail := fun heq =>
      hin.not_home (heq ▸ h.home b' (mem_of_getElem? hb'))
    rw [hi.flat_modify _ hhome]
    rcases Nat.lt_succ_iff_lt_or_eq.mp ht with ht | rfl
    · have hne : s.logKey t ≠ s.logKey tail := by
        intro heq
        have := (Prod.mk.inj heq).2
        omega
      rw [hi.flat_modify _ hne]
      exact hold.copies t b' (by simp only [Sys.ncopied]; omega) hb'
    · obtain rfl : b = b' := Option.some.inj (htail.symm.trans hb')
      change update s.cache.flat (s.cache.buf i).key _ (s.logKey t) = _
      rw [hi.2, h.data_of_held hpc hj, update_self]

/-- **`install_trans` copies a block home**, where it does not change what the
block should hold. -/
theorem SysInv.copyHome
    (hp : s.log.pc p = .commit (.installTrans tail)) (hpc : s.cache.pc p = .idle) {j : Slot}
    (hpast : s.sub.past = false) (hi : Held s.cache p i (s.logKey tail))
    (hj : Held s.cache p j (s.dev, b)) : Quiet w s
      { s with cache := Bio.modify s.cache j (s.cache.buf i).data, sub := .copied i j } := by
  have hold := h.commit p _ hp
  obtain ⟨hlt, -⟩ := List.getElem?_eq_some_iff.mp htail
  have hsame : (s.cache.buf i).data = s.cache.flat (s.dev, b) :=
    (h.data_of_held hpc hi).trans (hold.copies tail b hlt htail)
  have hflat : (Bio.modify s.cache j (s.cache.buf i).data).flat = s.cache.flat := by
    change update s.cache.flat (s.cache.buf j).key _ = _
    rw [hj.2, hsame, update_eq_self]
  have hdst : s.dst (.installTrans tail) = (s.dev, b) := by
    rw [Sys.dst, getD_eq_getElem?_getD, htail]
    rfl
  refine h.copy hp hpc hlt hpast (hdst ▸ hj) _ (fun k _ => congrFun hflat k) (fun t b' ht hb' => ?_)
    fun hpos => hold.room hpos
  rw [hflat]
  exact hold.copies t b' ht hb'

/-- **The body of the loops of `write_log` and `install_trans`.** -/
theorem SysInv.copyStep (hw : w) (toLog : Bool)
    (hph : ph = if toLog then .writeLog tail else .installTrans tail)
    (hp : s.log.pc p = .commit ph) (hpc : s.cache.pc p = .idle)
    (hc : copyStep s p ph (s.start + tail + 1) b toLog = .ok s') : Quiet w s s' := by
  obtain ⟨hlt, -⟩ := List.getElem?_eq_some_iff.mp htail
  have hD : s.log.lh.getD tail 0 = b := by
    rw [getD_eq_getElem?_getD, htail]
    rfl
  have hjob : s.HasJob ph := by
    rw [hph]
    split <;> exact hlt
  have hfirst : s.first ph = s.logKey tail := by
    rw [hph]
    split <;> rfl
  have hsecond : s.second ph = (s.dev, b) := by
    rw [hph, ← hD]
    split <;> rfl
  unfold Bio.copyStep at hc
  split at hc
  · rename_i hs
    exact h.commitBget hp hpc hjob (.inl ⟨hs, hfirst.symm⟩) hc
  · rename_i hs
    exact h.commitBget hp hpc hjob (.inr ⟨⟨_, hs⟩, hsecond.symm⟩) hc
  · rename_i i j hs
    have hbody := (h.commit p ph hp).body
    rw [Body, hs, hfirst, hsecond] at hbody
    have hpast : s.sub.past = false := by rw [hs]; rfl
    obtain rfl := Effect.ok.inj hc
    cases toLog with
    | true =>
      obtain rfl : ph = .writeLog tail := hph
      exact h.copyToLog htail hp hpc hpast hbody.1 hbody.2
    | false =>
      obtain rfl : ph = .installTrans tail := hph
      exact h.copyHome htail hp hpc hpast hbody.1 hbody.2
  · rename_i src dst hs
    obtain ⟨c, hwrite, rfl⟩ := Effect.map_eq_ok.mp hc
    exact h.write hp hw hpc hjob hs rfl rfl (by simp) hwrite
  · rename_i src dst hs
    exact h.commitBrelse hp hpc hjob (.inl ⟨_, _, hs⟩) hc
  · rename_i dst hs
    exact h.commitBrelse hp hpc hjob (.inr ⟨_, hs⟩) hc
  · rename_i hs
    obtain rfl := Effect.ok.inj hc
    exact h.advance hp hpc fun _ => hs

omit htail

/-- **`write_head`.** -/
theorem SysInv.headStep (hw : w) (hph : ph = .writeHead ∨ ph = .eraseHead)
    (hp : s.log.pc p = .commit ph) (hpc : s.cache.pc p = .idle) (hc : headStep s p ph = .ok s') :
    Quiet w s s' := by
  have hjob : s.HasJob ph := by rcases hph with rfl | rfl <;> trivial
  have hkeys : s.first ph = (s.dev, s.start) ∧ s.dst ph = (s.dev, s.start) := by
    rcases hph with rfl | rfl <;> exact ⟨rfl, rfl⟩
  have hold := h.commit p ph hp
  have hbody := hold.body
  unfold Bio.headStep at hc
  split at hc
  · rename_i hs
    exact h.commitBget hp hpc hjob (.inl ⟨hs, hkeys.1.symm⟩) hc
  · rename_i i hs
    obtain rfl := Effect.ok.inj hc
    rw [Body, hs, hkeys.1] at hbody
    have hi := hbody.1
    have hn : ({ s with sub := .copied i i } : Sys Pid).ncopied ph = s.ncopied ph := by
      rcases hph with rfl | rfl <;> rfl
    refine h.copy hp hpc hjob (by rw [hs]; rfl) ⟨hi.1, hi.2.trans hkeys.2.symm⟩ _
      (fun k hk => hi.flat_modify _ ?_) (fun t b ht hb => ?_) fun hpos => hold.room (hn ▸ hpos)
    · rintro rfl
      exact hk Sys.inLog_start
    · rw [hi.flat_modify, hi.flat_modify]
      · exact hold.copies t b (hn ▸ ht) hb
      · -- the header is no home block
        exact fun heq => Sys.inLog_start.not_home (heq ▸ h.home b (mem_of_getElem? hb))
      · intro heq
        have := (Prod.mk.inj heq).2
        omega
  · rename_i src i hs
    obtain ⟨c, hwrite, rfl⟩ := Effect.map_eq_ok.mp hc
    exact h.write hp hw hpc hjob hs rfl rfl (by simp) hwrite
  · rename_i i hs
    exact h.commitBrelse hp hpc hjob (.inr ⟨_, hs⟩) hc
  · rename_i hs
    obtain rfl := Effect.ok.inj hc
    exact h.advance hp hpc fun _ => hs
  · simp at hc

/-- **A step of `commit()`.** -/
theorem SysInv.commitStep (hw : w) (hp : s.log.pc p = .commit ph)
    (hpc : s.cache.pc p = .idle) (hc : commitStep s p ph = .ok s') : Quiet w s s' := by
  have hadvance : ¬s.HasJob ph → s.advance p ph = s' → Quiet w s s' := by
    rintro hno rfl
    exact h.advance hp hpc fun hj => absurd hj hno
  have hend : ∀ {tail}, s.log.lh[tail]? = none → ¬tail < s.log.lh.length := fun hnone =>
    not_lt.mpr (List.getElem?_eq_none_iff.mp hnone)
  unfold Bio.commitStep at hc
  split at hc
  · split at hc
    · rename_i htail
      exact h.copyStep htail hw true rfl hp hpc hc
    · rename_i hnone
      exact hadvance (hend hnone) (Effect.ok.inj hc)
  · split at hc
    · rename_i htail
      exact h.copyStep htail hw false rfl hp hpc hc
    · rename_i hnone
      exact hadvance (hend hnone) (Effect.ok.inj hc)
  · exact h.headStep hw (.inl rfl) hp hpc hc
  · exact h.headStep hw (.inr rfl) hp hpc hc
  · rename_i h1 h2 h3 h4
    refine hadvance (fun hj => ?_) (Effect.ok.inj hc)
    cases ph with
    | writeLog tail => exact h1 tail rfl
    | installTrans tail => exact h2 tail rfl
    | writeHead => exact h3 rfl
    | eraseHead => exact h4 rfl
    | _ => exact hj

end Steps

end Xv6.Bio
