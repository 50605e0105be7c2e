import Xv6.Log.Commit

/-!
# Crash atomicity of the redo log

Whatever write of `commit()` is the last one to reach the disk, and however often
the recovery that follows is itself stopped and started again, the disk a
completed recovery leaves has the transaction in full or not at all.

The proof follows the disk through two kinds of states. A *clean* disk
(`Xv6.Redo.Clean`) has an empty header; a *committed* one
(`Xv6.Redo.Committed`) has the header and the log blocks of a transaction, its
home blocks being partly old and partly new. Copying to the log keeps a disk
clean, the first `write_head` makes it committed, installing keeps it committed,
and the last `write_head` makes it clean for the new contents. Recovery from a
committed disk does the same last two things, so that being stopped in the middle
of it loses nothing.
-/

namespace Xv6.Redo

open Lib Function List

/-! ### Headers -/

theorem get32_foldl_set32 (f : ℕ → UInt32) (b : Block) (n : ℕ) (hn : 4 + 4 * n ≤ BSIZE) :
    (∀ i < n, ((List.range n).foldl (fun b i => b.set32 (4 + 4 * i) (f i)) b).get32 (4 + 4 * i) =
      f i) ∧
    ((List.range n).foldl (fun b i => b.set32 (4 + 4 * i) (f i)) b).get32 0 = b.get32 0 := by
  induction n with
  | zero => exact ⟨fun i hi => absurd hi (by omega), rfl⟩
  | succ n ih =>
    obtain ⟨hi, h0⟩ := ih (by omega)
    rw [range_succ, foldl_append, foldl_cons, foldl_nil]
    refine ⟨fun i hin => ?_, ?_⟩
    · rcases eq_or_ne i n with rfl | hne
      · exact Bytes.get32_set32 _ _ (by omega)
      · rw [Bytes.get32_set32_of_disjoint _ _ (by omega), hi i (by omega)]
    · rw [Bytes.get32_set32_of_disjoint _ _ (by omega), h0]

theorem headerCount_putHeader (b : Block) {lh : List UInt32} (h : lh.length ≤ LOGSIZE) :
    headerCount (putHeader b lh) = lh.length := by
  have hlen : lh.length ≤ 30 := h
  rw [headerCount, putHeader, (get32_foldl_set32 _ _ _ (by unfold BSIZE; omega)).2,
    Bytes.get32_set32 _ _ (by decide)]
  have hn : (UInt32.ofNat lh.length).toNat = lh.length := by
    rw [UInt32.toNat_ofNat']
    omega
  rw [hn, if_pos (by omega)]

/-- **The header reads back what was stored.** -/
theorem getHeader_putHeader (b : Block) {lh : List UInt32} (h : lh.length ≤ LOGSIZE) :
    getHeader (putHeader b lh) = lh := by
  have hlen : lh.length ≤ 30 := h
  rw [getHeader, headerCount_putHeader b h]
  refine ext_getElem (by simp) fun i h₁ h₂ => ?_
  rw [List.getElem_map, List.getElem_range, putHeader,
    (get32_foldl_set32 _ _ _ (by unfold BSIZE; omega)).1 i h₂, getD_eq_getElem?_getD,
    List.getElem?_eq_getElem h₂, Option.getD_some]

theorem get32_putHeader_nil (b : Block) : (putHeader b []).get32 0 = 0 :=
  Bytes.get32_set32 _ _ (by decide)

/-! ### What the loops write -/

section Loops

/-- A transaction to commit: the home blocks its header names and the cached
contents they are to get, with what `log_write` and the layout of the disk
guarantee of the header. -/
structure Txn (start size : ℕ) where
  /-- The entries of the header. -/
  lh : List UInt32
  /-- The cached contents of the home blocks. -/
  data : ℕ → Block
  /-- No block is named twice. -/
  nodup : lh.Nodup
  /-- The log has room for the blocks and its header: `n <= log.size - 1`. -/
  fits : lh.length < size
  /-- The header has room for the entries. -/
  le_LOGSIZE : lh.length ≤ LOGSIZE
  /-- The home blocks are outside the log. -/
  outside : ∀ b ∈ lh, b.toNat < start ∨ start + size ≤ b.toNat

variable {start size n : ℕ} {d : ℕ → Block} (t : Txn start size)

/-- The home blocks of a transaction. -/
def Txn.home : List ℕ := t.lh.map UInt32.toNat

/-- The disk contents with the transaction in full. -/
def Txn.apply (d : ℕ → Block) : ℕ → Block := fun b => if b ∈ t.home then t.data b else d b

/-- A block of the log, its header included. -/
def InLog (start size b : ℕ) : Prop := start ≤ b ∧ b < start + size

variable {t}

theorem Txn.not_inLog {b : ℕ} (hb : b ∈ t.home) : ¬InLog start size b := by
  obtain ⟨x, hx, rfl⟩ := mem_map.mp hb
  have := t.outside x hx
  unfold InLog
  omega

theorem Txn.inLog (t : Txn start size) {i : ℕ} (hi : i < t.lh.length) :
    InLog start size (start + i + 1) := by
  have := t.fits
  unfold InLog
  omega

theorem Txn.inLog_start (t : Txn start size) : InLog start size start :=
  ⟨le_rfl, by have := t.fits; omega⟩

/-- The entries of the header, as the loops read them. -/
def Txn.entry (t : Txn start size) (i : ℕ) : ℕ := (t.lh.getD i 0).toNat

theorem Txn.home_eq_map : t.home = (List.range t.lh.length).map t.entry := by
  refine ext_getElem (by simp [Txn.home]) fun i h₁ h₂ => ?_
  have hi : i < t.lh.length := by simpa [Txn.home] using h₁
  simp only [Txn.home, List.getElem_map, List.getElem_range, Txn.entry,
    getD_eq_getElem?_getD, List.getElem?_eq_getElem hi, Option.getD_some]

theorem Txn.entry_mem {i : ℕ} (hi : i < t.lh.length) : t.entry i ∈ t.home := by
  rw [Txn.home_eq_map]
  exact mem_map_of_mem (mem_range.mpr hi)

variable (t) in
/-- The writes that copy the first `n` blocks of a transaction to the log. -/
def Txn.logWrites (n : ℕ) : List (ℕ × Block) :=
  (List.range n).map fun i => (start + i + 1, t.data (t.entry i))

variable (t) in
/-- The writes that copy the first `n` blocks of a transaction home. -/
def Txn.homeWrites (n : ℕ) : List (ℕ × Block) :=
  (List.range n).map fun i => (t.entry i, t.data (t.entry i))

variable (t) in
/-- The memory of the log has the header of the transaction. -/
def Txn.Loaded (m : Mem) : Prop := m.lh = t.lh ∧ m.start = start

variable (t) in
/-- The first `n` log blocks hold the transaction, in a store of blocks. -/
def Txn.Logged (buf : ℕ → Block) (n : ℕ) : Prop :=
  ∀ i < n, buf (start + i + 1) = t.data (t.entry i)

/-- A loop that copies blocks, none of which is one that it writes. -/
theorem foldl_copy (dst src : ℕ → ℕ) (f g : Mem → ℕ → ℕ) (m : Mem) (n : ℕ)
    (hf : ∀ buf out i, f ⟨m.start, m.lh, buf, out⟩ i = dst i)
    (hg : ∀ buf out i, g ⟨m.start, m.lh, buf, out⟩ i = src i)
    (hne : ∀ i j, i < n → j < n → src i ≠ dst j) :
    (List.range n).foldl (fun m i => (m.memmove (f m i) (g m i)).bwrite (f m i)) m =
      ⟨m.start, m.lh, applyWrites m.buf ((List.range n).map fun i => (dst i, m.buf (src i))),
        m.out ++ (List.range n).map fun i => (dst i, m.buf (src i))⟩ := by
  induction n with
  | zero => simp
  | succ n ih =>
    have hsrc : applyWrites m.buf ((List.range n).map fun i => (dst i, m.buf (src i))) (src n) =
        m.buf (src n) := by
      refine applyWrites_of_notMem fun w hw hc => ?_
      obtain ⟨i, hi, rfl⟩ := mem_map.mp hw
      have := mem_range.mp hi
      exact hne n i (by omega) (by omega) hc.symm
    rw [range_succ, foldl_append, ih fun i j hi hj => hne i j (by omega) (by omega), foldl_cons,
      foldl_nil, hf, hg, map_append, applyWrites_append, ← append_assoc]
    simp only [Mem.bwrite, Mem.memmove, hsrc, update_self, map_cons, map_nil, applyWrites_cons,
      applyWrites_nil]

/-- The home blocks are outside the log, so no copy changes what a later one reads. -/
theorem Txn.entry_ne {i j : ℕ} (hi : i < t.lh.length) (hj : j < t.lh.length) :
    t.entry i ≠ start + j + 1 := fun hc =>
  Txn.not_inLog (Txn.entry_mem hi) (hc ▸ t.inLog hj)

/-- **`write_log` copies the transaction to the log.** -/
theorem writeLog_spec {m : Mem} (hm : t.Loaded m) (hbuf : ∀ b ∈ t.home, m.buf b = t.data b) :
    writeLog m = ⟨start, t.lh, applyWrites m.buf (t.logWrites t.lh.length),
      m.out ++ t.logWrites t.lh.length⟩ := by
  have hws : (List.range t.lh.length).map (fun i => (start + i + 1, m.buf (t.entry i))) =
      t.logWrites t.lh.length :=
    map_congr_left fun i hi => by rw [hbuf _ (Txn.entry_mem (mem_range.mp hi))]
  rw [writeLog, foldl_copy (start + · + 1) t.entry _ _ m _ (fun _ _ i => by rw [hm.2])
    (fun _ _ i => by rw [Mem.block, hm.1, Txn.entry]) fun i j hi hj =>
      Txn.entry_ne (hm.1 ▸ hi) (hm.1 ▸ hj), hm.1, hm.2, hws]

/-- **`install_trans` copies the transaction home**, from log blocks that hold
it. -/
theorem installTrans_spec {m : Mem} (hm : t.Loaded m) (hbuf : t.Logged m.buf t.lh.length) :
    installTrans m = ⟨start, t.lh, applyWrites m.buf (t.homeWrites t.lh.length),
      m.out ++ t.homeWrites t.lh.length⟩ := by
  have hws : (List.range t.lh.length).map (fun i => (t.entry i, m.buf (start + i + 1))) =
      t.homeWrites t.lh.length :=
    map_congr_left fun i hi => by rw [hbuf i (mem_range.mp hi)]
  rw [installTrans, foldl_copy t.entry (start + · + 1) _ _ m _
    (fun _ _ i => by rw [Mem.block, hm.1, Txn.entry]) (fun _ _ i => by rw [hm.2]) fun i j hi hj =>
      (Txn.entry_ne (hm.1 ▸ hj) (hm.1 ▸ hi)).symm, hm.1, hm.2, hws]

/-- The log blocks are written once each. -/
theorem Txn.logged_applyWrites (t : Txn start size) (d : ℕ → Block) :
    t.Logged (applyWrites d (t.logWrites t.lh.length)) t.lh.length := by
  intro i hi
  have hidx : ∀ j, start + j + 1 - start - 1 = j := fun j => by omega
  have hval : applyWrites d (t.logWrites t.lh.length) (start + i + 1) =
      t.data (t.entry (start + i + 1 - start - 1)) := by
    refine applyWrites_of_mem (f := fun b => t.data (t.entry (b - start - 1))) ?_ ?_
    · intro w hw
      obtain ⟨j, -, rfl⟩ := mem_map.mp hw
      exact congrArg (fun j => t.data (t.entry j)) (hidx j).symm
    · exact ⟨_, mem_map_of_mem (mem_range.mpr hi), rfl⟩
  rw [hval, hidx]

theorem Txn.Logged.update (h : t.Logged d n) (b : Block) : t.Logged (update d start b) n :=
  fun i hi => (update_of_ne (by omega) ..).trans (h i hi)

theorem writeHead_out (m : Mem) :
    (writeHead m).out = m.out ++ [(m.start, putHeader (m.buf m.start) m.lh)] := by
  simp only [writeHead, Mem.bwrite, update_self]

/-- **The writes of `commit()`**: the blocks to the log, the header, the blocks
home, and the empty header. -/
theorem commitWrites_eq (buf : ℕ → Block) (hbuf : ∀ b ∈ t.home, buf b = t.data b)
    (hpos : 0 < t.lh.length) :
    ∃ hdr erased : Block, getHeader hdr = t.lh ∧ erased.get32 0 = 0 ∧
      commitWrites start t.lh buf = t.logWrites t.lh.length ++
        (start, hdr) :: (t.homeWrites t.lh.length ++ [(start, erased)]) := by
  have hlog := writeLog_spec (t := t) (m := ⟨start, t.lh, buf, []⟩) ⟨rfl, rfl⟩ hbuf
  set d := applyWrites buf (t.logWrites t.lh.length) with hd
  have hhead : writeHead (writeLog ⟨start, t.lh, buf, []⟩) = ⟨start, t.lh,
      update d start (putHeader (d start) t.lh),
      t.logWrites t.lh.length ++ [(start, putHeader (d start) t.lh)]⟩ := by
    rw [hlog, nil_append]
    simp only [writeHead, Mem.bwrite, update_self]
  have hinstall := installTrans_spec (m := writeHead (writeLog ⟨start, t.lh, buf, []⟩))
    (by rw [hhead]; exact ⟨rfl, rfl⟩) (by rw [hhead]; exact (t.logged_applyWrites buf).update _)
  set m := installTrans (writeHead (writeLog ⟨start, t.lh, buf, []⟩)) with hm
  refine ⟨_, putHeader (m.buf m.start) [], getHeader_putHeader (d start) t.le_LOGSIZE,
    get32_putHeader_nil _, ?_⟩
  have hcommit : commitWrites start t.lh buf = (writeHead { m with lh := [] }).out := by
    rw [commitWrites, commit, if_pos hpos]
  rw [hcommit, writeHead_out, hinstall, hhead]
  simp

/-- The writes of `recover_from_log()` on a disk that holds a committed
transaction. -/
theorem recoverWrites_eq {d : ℕ → Block} (hhdr : getHeader (d start) = t.lh)
    (hlog : t.Logged d t.lh.length) :
    ∃ erased : Block, erased.get32 0 = 0 ∧
      recoverWrites start d = t.homeWrites t.lh.length ++ [(start, erased)] := by
  have hinstall := installTrans_spec (t := t) (m := readHead ⟨start, [], d, []⟩) ⟨hhdr, rfl⟩ hlog
  set m := installTrans (readHead ⟨start, [], d, []⟩) with hm
  refine ⟨putHeader (m.buf m.start) [], get32_putHeader_nil _, ?_⟩
  have hrec : recoverWrites start d = (writeHead { m with lh := [] }).out := rfl
  rw [hrec, writeHead_out, hinstall]
  rfl

/-- On a disk with an empty header recovery writes the empty header once more. -/
theorem recoverWrites_of_empty {d : ℕ → Block} (h : (d start).get32 0 = 0) :
    ∃ erased : Block, erased.get32 0 = 0 ∧ recoverWrites start d = [(start, erased)] := by
  refine ⟨putHeader (d start) [], get32_putHeader_nil _, ?_⟩
  have hlh : (readHead ⟨start, [], d, []⟩).lh = [] := by
    rw [readHead, getHeader, headerCount, h]
    rfl
  have hinst : installTrans (readHead ⟨start, [], d, []⟩) = readHead ⟨start, [], d, []⟩ := by
    rw [installTrans, hlh]
    rfl
  rw [recoverWrites, recoverFromLog, hinst, writeHead_out]
  rfl

end Loops

/-! ### Clean and committed disks -/

section States

variable {start size : ℕ}

/-- The disk has an empty header, and `d₀` outside the log. -/
structure Clean (start size : ℕ) (d₀ d : ℕ → Block) : Prop where
  header : (d start).get32 0 = 0
  eq : ∀ b, ¬InLog start size b → d b = d₀ b

/-- The disk has the header and the log blocks of a transaction over `d₀`, and
each of its home blocks is old or new. -/
structure Committed (t : Txn start size) (d₀ d : ℕ → Block) : Prop where
  header : getHeader (d start) = t.lh
  logged : t.Logged d t.lh.length
  eq : ∀ b, ¬InLog start size b → b ∉ t.home → d b = d₀ b
  home : ∀ b ∈ t.home, d b = d₀ b ∨ d b = t.data b

variable {t : Txn start size} {d₀ d : ℕ → Block}

theorem Txn.mem_homeWrites {w : ℕ × Block} (hw : w ∈ t.homeWrites t.lh.length) :
    w.1 ∈ t.home ∧ w.2 = t.data w.1 := by
  obtain ⟨i, hi, rfl⟩ := mem_map.mp hw
  exact ⟨Txn.entry_mem (mem_range.mp hi), rfl⟩

/-- The header is not one of the blocks outside the log. -/
theorem update_start {b : ℕ} (hb : ¬InLog start size b) (hsize : 0 < size) (hdr : Block) :
    update d start hdr b = d b := by
  refine update_of_ne ?_ ..
  rintro rfl
  exact hb ⟨le_rfl, by omega⟩

/-- **Copying to the log keeps a disk clean.** -/
theorem Clean.logWrites (h : Clean start size d₀ d) {ws : List (ℕ × Block)}
    (hws : ws ⊆ t.logWrites t.lh.length) : Clean start size d₀ (applyWrites d ws) := by
  have hw : ∀ w ∈ ws, InLog start size w.1 ∧ start < w.1 := by
    intro w hw
    obtain ⟨i, hi, rfl⟩ := mem_map.mp (hws hw)
    exact ⟨t.inLog (mem_range.mp hi), by change start < start + i + 1; omega⟩
  refine ⟨?_, fun b hb => ?_⟩
  · rw [applyWrites_of_notMem fun w h' hc => by have := (hw w h').2; omega]
    exact h.header
  · exact (applyWrites_of_notMem (x := b) fun w h' hc => hb (hc ▸ (hw w h').1)).trans (h.eq b hb)

/-- **Writing the header commits.** -/
theorem Clean.commit (h : Clean start size d₀ d) {hdr : Block} (hhdr : getHeader hdr = t.lh) :
    Committed t d₀ (update (applyWrites d (t.logWrites t.lh.length)) start hdr) := by
  have hclean := h.logWrites (t := t) (Subset.refl _)
  have hout : ∀ b, ¬InLog start size b →
      update (applyWrites d (t.logWrites t.lh.length)) start hdr b = d₀ b := fun b hb =>
    (update_start hb (by have := t.fits; omega) _).trans (hclean.eq b hb)
  exact ⟨by rwa [update_self], (t.logged_applyWrites d).update _, fun b hb _ => hout b hb,
    fun b hb => .inl (hout b (Txn.not_inLog hb))⟩

/-- **Installing keeps a disk committed.** -/
theorem Committed.take_homeWrites (h : Committed t d₀ d) (k : ℕ) :
    Committed t d₀ (applyWrites d ((t.homeWrites t.lh.length).take k)) := by
  have hw : ∀ w ∈ (t.homeWrites t.lh.length).take k, w.1 ∈ t.home ∧ w.2 = t.data w.1 :=
    fun w hw => Txn.mem_homeWrites (mem_of_mem_take hw)
  have hlog : ∀ b, b ∉ t.home →
      applyWrites d ((t.homeWrites t.lh.length).take k) b = d b := fun b hb =>
    applyWrites_of_notMem fun w h' hc => hb (hc ▸ (hw w h').1)
  refine ⟨?_, fun i hi => ?_, fun b hb hbh => ?_, fun b hb => ?_⟩
  · rw [hlog _ fun hc => Txn.not_inLog hc t.inLog_start]
    exact h.header
  · rw [hlog _ fun hc => Txn.not_inLog hc (t.inLog hi)]
    exact h.logged i hi
  · rw [hlog b hbh]
    exact h.eq b hb hbh
  · rcases applyWrites_or (d := d) (fun w h' => (hw w h').2) b with hc | hc
    · rw [hc]
      exact h.home b hb
    · exact .inr hc

/-- **Erasing the header after installing leaves a clean disk with the
transaction in full.** -/
theorem Committed.erase (h : Committed t d₀ d) {erased : Block} (he : erased.get32 0 = 0) :
    Clean start size (t.apply d₀)
      (update (applyWrites d (t.homeWrites t.lh.length)) start erased) := by
  refine ⟨by rwa [update_self], fun b hb => ?_⟩
  rw [update_start hb (by have := t.fits; omega), Txn.apply]
  by_cases hbh : b ∈ t.home
  · rw [if_pos hbh]
    refine applyWrites_of_mem (fun w hw => (Txn.mem_homeWrites hw).2) ?_
    rw [Txn.home_eq_map] at hbh
    obtain ⟨i, hi, rfl⟩ := mem_map.mp hbh
    exact ⟨_, mem_map_of_mem hi, rfl⟩
  · rw [if_neg hbh, ← h.eq b hb hbh]
    exact applyWrites_of_notMem fun w hw hc => hbh (hc ▸ (Txn.mem_homeWrites hw).1)

/-! ### Stopping and starting again -/

/-- A disk on which the transaction will be found in full: committed, or clean
with it. -/
def Settled (t : Txn start size) (d₀ d : ℕ → Block) : Prop :=
  Committed t d₀ d ∨ Clean start size (t.apply d₀) d

/-- Installing and erasing, stopped anywhere, leave the transaction settled. -/
theorem Committed.take_install (h : Committed t d₀ d) {erased : Block}
    (he : erased.get32 0 = 0) (k : ℕ) :
    Settled t d₀ (applyWrites d ((t.homeWrites t.lh.length ++ [(start, erased)]).take k)) := by
  rw [take_append]
  rcases Nat.lt_or_ge (t.homeWrites t.lh.length).length k with hk | hk
  · rw [take_of_length_le (by omega), take_of_length_le (by simp; omega),
      applyWrites_append]
    exact .inr (h.erase he)
  · rw [show k - (t.homeWrites t.lh.length).length = 0 by omega, take_zero,
      append_nil]
    exact .inl (h.take_homeWrites k)

theorem Committed.install (h : Committed t d₀ d) {erased : Block} (he : erased.get32 0 = 0) :
    Clean start size (t.apply d₀)
      (applyWrites d (t.homeWrites t.lh.length ++ [(start, erased)])) := by
  rw [applyWrites_append]
  exact h.erase he

/-- A recovery of a clean disk, stopped or not, leaves it clean. -/
theorem Clean.recoverCrash (h : Clean start size d₀ d) (hsize : 0 < size) (j : ℕ) :
    Clean start size d₀ (recoverCrash start d j) := by
  obtain ⟨erased, he, hws⟩ := recoverWrites_of_empty h.header
  rw [Redo.recoverCrash, hws]
  cases j with
  | zero => exact h
  | succ j =>
    rw [take_succ_cons, take_nil, applyWrites_cons, applyWrites_nil]
    exact ⟨by rwa [update_self], fun b hb => (update_start hb hsize _).trans (h.eq b hb)⟩

theorem Settled.recoverCrash (h : Settled t d₀ d) (j : ℕ) :
    Settled t d₀ (recoverCrash start d j) := by
  rcases h with h | h
  · obtain ⟨erased, he, hws⟩ := recoverWrites_eq h.header h.logged
    rw [Redo.recoverCrash, hws]
    exact h.take_install he j
  · exact .inr (h.recoverCrash (by have := t.fits; omega) j)

theorem recover_eq_recoverCrash (start : ℕ) (d : ℕ → Block) :
    recover start d = recoverCrash start d (recoverWrites start d).length := by
  rw [recover, recoverCrash, take_length]

theorem Settled.recover (h : Settled t d₀ d) : Clean start size (t.apply d₀) (recover start d) := by
  rcases h with h | h
  · obtain ⟨erased, he, hws⟩ := recoverWrites_eq h.header h.logged
    rw [Redo.recover, hws]
    exact h.install he
  · rw [recover_eq_recoverCrash]
    exact h.recoverCrash (by have := t.fits; omega) _

/-- The disk after recoveries stopped after the numbers of writes of a list, and
one that completes. -/
def recoverAfter (start : ℕ) (d : ℕ → Block) (js : List ℕ) : ℕ → Block :=
  recover start (js.foldl (recoverCrash start) d)

theorem Clean.recoverAfter (h : Clean start size d₀ d) (hsize : 0 < size) (js : List ℕ) :
    Clean start size d₀ (recoverAfter start d js) := by
  induction js generalizing d with
  | nil =>
    rw [Redo.recoverAfter, foldl_nil, recover_eq_recoverCrash]
    exact h.recoverCrash hsize _
  | cons j js ih => exact ih (h.recoverCrash hsize j)

theorem Settled.recoverAfter (h : Settled t d₀ d) (js : List ℕ) :
    Clean start size (t.apply d₀) (recoverAfter start d js) := by
  induction js generalizing d with
  | nil => exact h.recover
  | cons j js ih => exact ih (h.recoverCrash j)

/-! ### One transaction -/

variable (t) in
/-- The writes of `commit()` for a transaction, on a disk whose other blocks are
cached as they are. -/
def Txn.writes (d : ℕ → Block) : List (ℕ × Block) := commitWrites start t.lh (t.apply d)

theorem Txn.writes_of_nil (h : t.lh = []) : t.writes d = [] := by
  rw [Txn.writes, commitWrites, h]
  rfl

/-- **A commit stopped anywhere** leaves the disk clean as it was, and once its
first `write_head` is on the disk, the transaction settled. -/
theorem Clean.take_writes (h : Clean start size d₀ d) :
    (∀ k ≤ t.lh.length, Clean start size d₀ (applyWrites d ((t.writes d).take k))) ∧
    (∀ k, t.lh.length < k → Settled t d₀ (applyWrites d ((t.writes d).take k))) ∧
    Clean start size (t.apply d₀) (applyWrites d (t.writes d)) := by
  rcases Nat.eq_zero_or_pos t.lh.length with h0 | hpos
  · have hnil : t.lh = [] := length_eq_zero_iff.mp h0
    have hclean : Clean start size (t.apply d₀) d := by
      have happ : t.apply d₀ = d₀ := by
        funext b
        rw [Txn.apply, Txn.home, hnil, map_nil, if_neg not_mem_nil]
      rwa [happ]
    simp only [Txn.writes_of_nil hnil, take_nil, applyWrites_nil]
    exact ⟨fun _ _ => h, fun _ _ => .inr hclean, hclean⟩
  · obtain ⟨hdr, erased, hhdr, he, hws⟩ :=
      commitWrites_eq (t := t) (t.apply d) (fun b hb => if_pos hb) hpos
    have hlen : (t.logWrites t.lh.length).length = t.lh.length := by simp [Txn.logWrites]
    refine ⟨fun k hk => ?_, fun k hk => ?_, ?_⟩
    · rw [Txn.writes, hws, take_append, hlen, Nat.sub_eq_zero_of_le hk, take_zero, append_nil]
      exact h.logWrites (take_subset ..)
    · obtain ⟨j, hj⟩ : ∃ j, k - t.lh.length = j + 1 := ⟨k - t.lh.length - 1, by omega⟩
      rw [Txn.writes, hws, take_append, hlen, hj, take_succ_cons, take_of_length_le (by omega),
        applyWrites_append, applyWrites_cons]
      exact (h.commit hhdr).take_install he j
    · rw [Txn.writes, hws, applyWrites_append, applyWrites_cons]
      exact (h.commit hhdr).install he

/-! ### Any sequence of transactions -/

/-- The writes of a sequence of commits. -/
def runWrites : List (Txn start size) → (ℕ → Block) → List (ℕ × Block)
  | [], _ => []
  | t :: ts, d => t.writes d ++ runWrites ts (applyWrites d (t.writes d))

/-- The disk contents with a list of transactions in full, one after the other. -/
def applyAll (ts : List (Txn start size)) (d : ℕ → Block) : ℕ → Block :=
  ts.foldl (fun d t => t.apply d) d

/-- **A sequence of commits stopped anywhere** recovers to a prefix of it. -/
theorem Clean.take_runWrites (hsize : 0 < size) (ts : List (Txn start size)) (k : ℕ)
    (js : List ℕ) (h : Clean start size d₀ d) :
    ∃ j ≤ ts.length, Clean start size (applyAll (ts.take j) d₀)
      (Redo.recoverAfter start (applyWrites d ((runWrites ts d).take k)) js) := by
  induction ts generalizing d₀ d k with
  | nil =>
    refine ⟨0, le_rfl, ?_⟩
    have hnil : (runWrites ([] : List (Txn start size)) d).take k = [] := take_nil
    rw [hnil, applyWrites_nil]
    exact h.recoverAfter hsize js
  | cons t ts ih =>
    rw [runWrites, take_append]
    rcases Nat.lt_or_ge (t.writes d).length k with hk | hk
    · -- the first commit is over
      rw [take_of_length_le (by omega), applyWrites_append]
      obtain ⟨j, hj, hc⟩ := ih (k - (t.writes d).length) h.take_writes.2.2
      exact ⟨j + 1, by simpa using hj, hc⟩
    · rw [show k - (t.writes d).length = 0 by omega, take_zero, append_nil]
      rcases Nat.lt_or_ge t.lh.length k with hn | hn
      · exact ⟨1, by simp, (h.take_writes.2.1 k hn).recoverAfter js⟩
      · exact ⟨0, Nat.zero_le _, (h.take_writes.1 k hn).recoverAfter hsize js⟩

/-- **Crash atomicity of the redo log.** On a disk with an empty header, a commit
stopped after any number `k` of its block writes, followed by recoveries stopped
after the numbers of writes `js` and by one that completes, leaves the home
blocks all old or all new – all new once the first `write_head` is on the disk –,
every other block outside the log unchanged, and an empty header. Over any
sequence of transactions, it leaves the result of a prefix of them. -/
theorem crash_atomic (hsize : 0 < size) (hempty : (d start).get32 0 = 0) :
    (∀ (t : Txn start size) (k : ℕ) (js : List ℕ) (d' : ℕ → Block),
      d' = Redo.recoverAfter start (applyWrites d ((t.writes d).take k)) js →
      ((∀ b ∈ t.home, d' b = d b) ∨ ∀ b ∈ t.home, d' b = t.data b) ∧
      (t.lh.length < k → ∀ b ∈ t.home, d' b = t.data b) ∧
      (∀ b, ¬InLog start size b → b ∉ t.home → d' b = d b) ∧
      (d' start).get32 0 = 0) ∧
    ∀ (ts : List (Txn start size)) (k : ℕ) (js : List ℕ) (d' : ℕ → Block),
      d' = Redo.recoverAfter start (applyWrites d ((runWrites ts d).take k)) js →
      (d' start).get32 0 = 0 ∧
      ∃ j ≤ ts.length, ∀ b, ¬InLog start size b → d' b = applyAll (ts.take j) d b := by
  have hclean : Clean start size d d := ⟨hempty, fun _ _ => rfl⟩
  refine ⟨?_, ?_⟩
  · rintro t k js d' rfl
    have hnew : t.lh.length < k → Clean start size (t.apply d)
        (Redo.recoverAfter start (applyWrites d ((t.writes d).take k)) js) :=
      fun hk => (hclean.take_writes.2.1 k hk).recoverAfter js
    have happ : ∀ b ∈ t.home, t.apply d b = t.data b := fun b hb => if_pos hb
    rcases Nat.lt_or_ge t.lh.length k with hk | hk
    · refine ⟨.inr fun b hb => ?_, fun _ b hb => ?_, fun b hb hbh => ?_, (hnew hk).header⟩
      · exact ((hnew hk).eq b (Txn.not_inLog hb)).trans (happ b hb)
      · exact ((hnew hk).eq b (Txn.not_inLog hb)).trans (happ b hb)
      · exact ((hnew hk).eq b hb).trans (if_neg hbh)
    · have hold := ((hclean.take_writes (t := t)).1 k hk).recoverAfter hsize js
      exact ⟨.inl fun b hb => hold.eq b (Txn.not_inLog hb), fun hc => absurd hc (by omega),
        fun b hb _ => hold.eq b hb, hold.header⟩
  · rintro ts k js d' rfl
    obtain ⟨j, hj, hc⟩ := hclean.take_runWrites hsize ts k js
    exact ⟨hc.header, j, hj, hc.eq⟩

/-- Two blocks, stopped right after the header is written, and again in the
middle of the recovery: both blocks are new. -/
theorem crash_atomic_two : ∃ t : Txn 2 30, t.home = [40, 41] ∧ ∀ b ∈ t.home,
    Redo.recoverAfter 2 (applyWrites (fun _ _ => 0) ((t.writes fun _ _ => 0).take 3)) [1] b =
      fun _ => 7 := by
  refine ⟨⟨[40, 41], fun _ _ => 7, by decide, by decide, by decide, by simp⟩, by decide, ?_⟩
  exact ((crash_atomic (by decide) (by decide)).1 _ 3 [1] _ rfl).2.1 (Nat.lt_succ_self 2)

end States

end Xv6.Redo
