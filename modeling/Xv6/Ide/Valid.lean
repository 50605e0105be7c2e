import Xv6.Ide.Inv
import Xv6.Lib.Labels

/-!
# What `B_VALID` certifies

A buffer with `B_VALID` is meant to hold what is in its block on the disk, with the changes that
have been made to it in memory since. `Xv6.Ide.Mon` is the system together with a record of these
changes for each buffer (`Xv6.Ide.Mon.edits`): it starts anew when the buffer is taken for another
block, when it has been read and when it has been written.

`ideintr` sets `B_VALID` also when the disk has reported an error, and then it has not read
anything. So what `B_VALID` means is kept exactly as long as no read fails, except of a block that
the buffer happens to hold anyway (`Xv6.Ide.valid_iff`). After a read that fails the buffer has
the bytes that it had before (`Xv6.Ide.valid_failed_read`).
-/

namespace Xv6.Ide

open Lib Function Bio

variable {Pid : Type}

/-- The system, with the changes to each buffer since it held what is on the disk. -/
structure Mon (Pid : Type) extends St Pid where
  edits : Slot → List (Block → Block)

/-- The buffer holds what is on the disk, with some changes. -/
def Holds (disk : Key → Block) (edits : List (Block → Block)) (b : Buf Pid) : Prop :=
  b.data = edits.foldl (fun x f => f x) (disk b.key)

instance (disk : Key → Block) (edits : List (Block → Block)) (b : Buf Pid) :
    Decidable (Holds disk edits b) :=
  decidable_of_iff (∀ j, b.data j = edits.foldl (fun x f => f x) (disk b.key) j) funext_iff.symm

namespace Mon

/-- **What `B_VALID` means.** -/
def Sound (m : Mon Pid) : Prop :=
  ∀ i, (m.buf i).valid = true → Holds m.disk (m.edits i) (m.buf i)

/-- The changes to the buffers after an action. -/
def note (m : Mon Pid) : Act Pid → Slot → List (Block → Block)
  | .user (.bget _ k) => match m.cached k, m.unused with
    | none, some i => update m.edits i []
    | _, _ => m.edits
  | .user (.modify _ i f) => update m.edits i (m.edits i ++ [f])
  | .complete _ => match m.ctl, m.idequeue with
    | .busy _ (some _), i :: _ => update m.edits i []
    | _, _ => m.edits
  | .intr => match m.ctl, m.idequeue with
    | .done false _, i :: _ => update m.edits i []
    | _, _ => m.edits
  | _ => m.edits

variable [DecidableEq Pid]

def step (m : Mon Pid) (a : Act Pid) : Option (Mon Pid) :=
  (m.toSt.step a).map fun t => { toSt := t, edits := m.note a }

def init (disk : Key → Block) (havedisk1 : Bool) : Mon Pid where
  toSt := St.init disk havedisk1
  edits := fun _ => []

/-- The interrupt is not for a read that has failed, except of a block that the buffer holds. -/
def ReadOk (m : Mon Pid) : Act Pid → Prop
  | .intr => match m.ctl, m.idequeue with
    | .done true _, i :: _ => (m.buf i).dirty = true ∨ Holds m.disk (m.edits i) (m.buf i)
    | _, _ => True
  | _ => True

instance (m : Mon Pid) : ∀ a, Decidable (m.ReadOk a)
  | .intr => match hc : m.ctl, hq : m.idequeue with
    | .done true _, i :: _ => decidable_of_iff
        ((m.buf i).dirty = true ∨ Holds m.disk (m.edits i) (m.buf i)) (by rw [ReadOk, hc, hq])
    | .done true _, [] => .isTrue (by rw [ReadOk, hc, hq]; trivial)
    | .done false _, _ => .isTrue (by rw [ReadOk, hc]; trivial)
    | .idle, _ => .isTrue (by rw [ReadOk, hc]; trivial)
    | .busy _ _, _ => .isTrue (by rw [ReadOk, hc]; trivial)
  | .user _ | .iderw _ _ | .enter _ | .rouse _ | .loop _ | .complete _ => .isTrue trivial

/-- What holds as long as no read has failed. -/
structure Inv (m : Mon Pid) : Prop where
  inv : m.toSt.Inv
  sound : m.Sound
  /-- A buffer has been written as it is. -/
  written : ∀ i q err inp, m.ctl = .done err inp → m.idequeue = i :: q →
    (m.buf i).dirty = true → m.edits i = []

omit [DecidableEq Pid] in
theorem inv_init (disk : Key → Block) (havedisk1 : Bool) : (init disk havedisk1 : Mon Pid).Inv where
  inv := St.inv_init disk havedisk1
  sound := fun i hv => by cases hv
  written := fun i q err inp hc => by cases hc

section Steps

variable {m t : Mon Pid} {a : Act Pid} {i : Slot} {u : User Pid} {c : Bufs Pid}

section

omit [DecidableEq Pid]

/-- There are only two disks. -/
theorem Inv.sector (h : m.Inv) (i : Slot) : St.sector (m.buf i).key = (m.buf i).key := by
  rw [St.sector, Nat.mod_eq_of_lt (h.inv.bufs.dev i)]

/-- One buffer has changed, and its record. -/
theorem holds_update {disk : Key → Block} {buf : Slot → Buf Pid}
    {edits : Slot → List (Block → Block)} {b : Buf Pid} {e : List (Block → Block)}
    (h : ∀ j, j ≠ i → (buf j).valid = true → Holds disk (edits j) (buf j))
    (hb : b.valid = true → Holds disk e b) (j : Slot) (hv : (update buf i b j).valid = true) :
    Holds disk (update edits i e j) (update buf i b j) := by
  rcases eq_or_ne j i with rfl | hj
  · rw [update_self] at hv ⊢
    rw [update_self]
    exact hb hv
  · rw [update_of_ne hj] at hv ⊢
    rw [update_of_ne hj]
    exact h j hj hv

/-- One buffer has changed, but not its contents. -/
theorem Sound.set (h : m.Sound) {b : Buf Pid} (hv : b.valid = (m.buf i).valid)
    (hdata : b.data = (m.buf i).data) (hkey : b.key = (m.buf i).key) (j : Slot)
    (hj : (update m.buf i b j).valid = true) : Holds m.disk (m.edits j) (update m.buf i b j) := by
  have hupd := holds_update (i := i) (b := b) (e := m.edits i) (fun j _ => h j) (fun hb => by
    have := h i (hv ▸ hb)
    rwa [Holds, ← hdata, ← hkey] at this) j hj
  rwa [update_eq_self] at hupd

end

/-- What a process does with the buffers keeps the meaning of `B_VALID`. -/
theorem Sound.user (h : m.Sound) (hu : m.toBufs.Step u c) (j : Slot) (hj : (c.buf j).valid = true) :
    Holds m.disk (m.note (.user u) j) (c.buf j) := by
  cases hu with
  | @hit p k i hp hk hi =>
    rw [note, hi]
    exact h.set (by rfl) (by rfl) (by rfl) j hj
  | @recycle p k i hp hk hno hi =>
    rw [note, hno, hi]
    exact holds_update (fun j _ => h j) (fun hb => by cases hb) j hj
  | acquire hp hl => exact h.set (by rfl) (by rfl) (by rfl) j hj
  | @modify p i f hp hl =>
    refine holds_update (fun j _ => h j) (fun hb => ?_) j hj
    have hold : (m.buf i).data = (m.edits i).foldl (fun x f => f x) (m.disk (m.buf i).key) :=
      h i hb
    change f (m.buf i).data = (m.edits i ++ [f]).foldl (fun x f => f x) (m.disk (m.buf i).key)
    rw [List.foldl_append, ← hold]
    rfl
  | dirty hp hl => exact h.set (by rfl) (by rfl) (by rfl) j hj
  | brelse hp hl => exact h.set (by rfl) (by rfl) (by rfl) j hj
  | release hp => exact h.set (by rfl) (by rfl) (by rfl) j hj

/-- The record of a buffer that another process has locked does not change. -/
theorem note_of_lock {q : Pid} (hm : m.toBufs.Inv) (hu : m.toBufs.Step u c)
    (hl : (m.buf i).lock = some q) (hq : q ≠ u.pid) :
    m.note (.user u) i = m.edits i := by
  cases hu with
  | hit hp hk hi => rw [note, hi]
  | @recycle p k j hp hk hno hj =>
    have hij : i ≠ j := fun hij => by
      have := hm.refcnt_pos_of_lock hl
      rw [hij, (Pool.refcnt_of_unused hj).1] at this
      omega
    rw [note, hno, hj]
    exact update_of_ne hij ..
  | @modify p j f hp hj =>
    have hij : i ≠ j := fun hij => by
      rw [hij, hj] at hl
      exact hq (Option.some.inj hl).symm
    exact update_of_ne hij ..
  | acquire | dirty | brelse | release => rfl

/-- What a process does with the buffers. -/
theorem Inv.user (h : m.Inv) (hd : m.drv u.pid = none) (hu : m.toBufs.Step u c) :
    Inv { m with toBufs := c, edits := m.note (.user u) } := by
  refine ⟨h.inv.user hd hu, fun j hj => h.sound.user hu j hj, fun i q err inp hc hq hf => ?_⟩
  obtain ⟨p, d, hp, -, hl, -⟩ := h.inv.waiter (i := i) (by rw [hq]; exact List.mem_cons_self)
  have hpu : p ≠ u.pid := fun hpu => by
    rw [hpu, hd] at hp
    cases hp
  obtain ⟨n, hn⟩ := hu.buf_of_lock h.inv.bufs hl hpu
  change m.note (.user u) i = []
  rw [note_of_lock h.inv.bufs hu hl hpu]
  refine h.written i q err inp hc hq ?_
  rwa [hn] at hf

omit [DecidableEq Pid] in
/-- The disk has written a buffer: no other buffer that has been read is for the block. -/
theorem Inv.write {q : List Slot} (h : m.Inv) (err : Bool) (hq : m.idequeue = i :: q) :
    Sound { m with
      disk := update m.disk (St.sector (m.buf i).key) (m.buf i).data
      ctl := .done err (m.disk (St.sector (m.buf i).key))
      edits := update m.edits i [] } := by
  obtain ⟨p, d, -, -, hl, -⟩ := h.inv.waiter (i := i) (by rw [hq]; exact List.mem_cons_self)
  have hlive : (m.buf i).Live := .inl (h.inv.bufs.refcnt_pos_of_lock hl)
  intro j hj
  change Holds (update m.disk (St.sector (m.buf i).key) (m.buf i).data)
    (update m.edits i [] j) (m.buf j)
  rw [h.sector]
  rcases eq_or_ne j i with rfl | hji
  · rw [update_self, Holds, update_self]
    rfl
  · have hkey : (m.buf j).key ≠ (m.buf i).key := fun hk =>
      hji (h.inv.bufs.eq_of_key (.inr hj) hlive hk)
    rw [update_of_ne hji, Holds, update_of_ne hkey]
    exact h.sound j hj

omit [DecidableEq Pid] in
/-- The interrupt: what it makes of the buffer is right just if what was read is. -/
theorem Inv.intr {q : List Slot} {err : Bool} {inp : Block} (h : m.Inv)
    (hq : m.idequeue = i :: q) (hc : m.ctl = .done err inp) :
    Sound { m with
      toBufs := m.toBufs.set i (St.finish (m.buf i) err inp)
      idequeue := q
      ctl := St.next m.buf q
      drv := St.wakeup m.drv i
      edits := m.note .intr } ↔ m.ReadOk .intr := by
  have hserves := h.inv.serves
  rw [hc, hq] at hserves
  obtain ⟨hread, hwrite⟩ : ((m.buf i).dirty = false → inp = m.disk (m.buf i).key) ∧
      ((m.buf i).dirty = true → m.disk (m.buf i).key = (m.buf i).data) := by
    cases hserves with
    | done q err hread hwrite =>
      rw [h.sector] at hread hwrite
      exact ⟨hread, hwrite⟩
  cases err with
  | false =>
    have hnote : m.note .intr = update m.edits i [] := by rw [note, hc, hq]
    rw [hnote, ReadOk, hc]
    refine iff_of_true (holds_update (fun j _ => h.sound j) fun _ => ?_) trivial
    · cases hf : (m.buf i).dirty with
      | false =>
        rw [St.finish, if_pos ⟨hf, rfl⟩]
        exact hread hf
      | true =>
        rw [St.finish, if_neg (by simp [hf])]
        exact (hwrite hf).symm
  | true =>
    have hnote : m.note .intr = m.edits := by rw [note, hc]
    have hfinish : St.finish (m.buf i) true inp = { m.buf i with valid := true, dirty := false } := by
      rw [St.finish, if_neg (by simp)]
    have hiff : Sound { m with
        toBufs := m.toBufs.set i (St.finish (m.buf i) true inp)
        idequeue := q
        ctl := St.next m.buf q
        drv := St.wakeup m.drv i
        edits := m.edits } ↔ Holds m.disk (m.edits i) (m.buf i) := by
      constructor
      · intro hs
        have hi := hs i
        simp only [Bufs.set, update_self, hfinish] at hi
        exact hi trivial
      · intro hold j hj
        have hupd := holds_update (i := i) (b := St.finish (m.buf i) true inp) (e := m.edits i)
          (fun j _ => h.sound j) (fun _ => by rw [hfinish]; exact hold) j hj
        rwa [update_eq_self] at hupd
    rw [hnote, hiff, ReadOk, hc, hq]
    refine ⟨.inr, fun hok => hok.elim (fun hf => ?_) id⟩
    rw [Holds, h.written i q true inp hc hq hf]
    exact (hwrite hf).symm

/-- **A step keeps the meaning of `B_VALID` just if it is no read that fails.** -/
theorem Inv.step (h : m.Inv) (hs : m.step a = some t) :
    (t.Sound ↔ m.ReadOk a) ∧ (m.ReadOk a → t.Inv) := by
  obtain ⟨u, hu, rfl⟩ := Option.map_eq_some_iff.mp hs
  have hinv := h.inv.of_step hu
  have hgood : m.ReadOk a → Inv { toSt := u, edits := m.note a } →
      (Sound { toSt := u, edits := m.note a } ↔ m.ReadOk a) ∧
        (m.ReadOk a → Inv { toSt := u, edits := m.note a }) := fun ha hm =>
    ⟨iff_of_true hm.sound ha, fun _ => hm⟩
  cases h.inv.step_cases hu with
  | user hd hstep => exact hgood trivial (h.user hd hstep)
  | iderw hd hp hl hf => exact hgood trivial ⟨hinv, h.sound, h.written⟩
  | first hd hq hc =>
    exact hgood trivial ⟨hinv, h.sound, fun i q err inp hc => by cases hc⟩
  | @append p i hd hq =>
    refine hgood trivial ⟨hinv, h.sound, fun j q err inp hc hj => ?_⟩
    cases hqueue : m.idequeue with
    | nil => exact absurd hqueue hq
    | cons k l =>
      rw [hqueue] at hj
      obtain rfl : k = j := (List.cons.inj hj).1
      exact h.written k l err inp hc hqueue
  | rouse hd => exact hgood trivial ⟨hinv, h.sound, h.written⟩
  | again hd hf => exact hgood trivial ⟨hinv, h.sound, h.written⟩
  | leave hd hf => exact hgood trivial ⟨hinv, h.sound, h.written⟩
  | @write i q err hq hc hf =>
    have hnote : m.note (.complete err) = update m.edits i [] := by
      rw [note, hc, hq, St.command, hf]
      rfl
    refine hgood trivial ⟨hinv, ?_, fun j q' err' inp' _ hj _ => ?_⟩
    · rw [hnote]
      exact h.write err hq
    · obtain rfl : i = j := (List.cons.inj (hq.symm.trans hj)).1
      rw [hnote]
      exact update_self ..
  | @read i q err hq hc hf =>
    have hnote : m.note (.complete err) = m.edits := by
      rw [note, hc, hq, St.command, hf]
      rfl
    refine hgood trivial ⟨hinv, ?_, fun j q' err' inp' _ hj hd => ?_⟩
    · rw [hnote]
      exact h.sound
    · obtain rfl : i = j := (List.cons.inj (hq.symm.trans hj)).1
      rw [hf] at hd
      cases hd
  | intr hq hc =>
    have hiff := h.intr hq hc
    exact ⟨hiff, fun hok => ⟨hinv, hiff.mpr hok, fun i q err inp hc => by
      exact absurd hc (St.next_ne_done _ _ _ _)⟩⟩

end Steps

end Mon

/-- **What `B_VALID` certifies.** In a run of any requests of any processes, with a disk that
may report an error for any command, every buffer with `B_VALID` always holds what is in its
block on the disk, or what later changes have made of it, just if no interrupt is for a read that
has failed, except of a block that the buffer holds anyway. -/
theorem valid_iff [DecidableEq Pid] (disk : Key → Block) (havedisk1 : Bool) (as : List (Act Pid))
    {t : Mon Pid} (hrun : run Mon.step (Mon.init disk havedisk1) as = some t) :
    Meets Mon.step (fun m a => ∀ u, m.step a = some u → u.Sound) (Mon.init disk havedisk1) as ↔
      Meets Mon.step Mon.ReadOk (Mon.init disk havedisk1) as :=
  meets_iff (fun h hs => h.step hs) (Mon.inv_init disk havedisk1) hrun

/-- Process 0 reads a block into a buffer, with or without an error, and `iderw` returns. -/
def reads (k : Key) (i : Slot) (err : Bool) : List (Act ℕ) :=
  [.user (.bget 0 k), .user (.acquire 0), .iderw 0 i, .enter 0, .complete err, .intr, .loop 0]

/-- Two processes have requests in the queue. The disk reports an error for the write. -/
theorem valid_iff_read :
    let as := twoRequests true
    (∃ t, run Mon.step (Mon.init numbered true) as = some t) ∧
      Meets Mon.step Mon.ReadOk (Mon.init numbered true) as ∧
      Meets Mon.step (fun m a => ∀ u, m.step a = some u → u.Sound) (Mon.init numbered true) as := by
  intro as
  have hsome : (run Mon.step (Mon.init numbered true) as).isSome = true := by decide +kernel
  have hok : Meets Mon.step Mon.ReadOk (Mon.init numbered true) as := by decide +kernel
  obtain ⟨t, ht⟩ := Option.isSome_iff_exists.mp hsome
  exact ⟨⟨t, ht⟩, hok, (valid_iff numbered true as ht).mpr hok⟩

/-- **A read that fails.** Process 0 has read block 5 of disk 1 and given it back, and holds 29
other blocks, so that it is given the same buffer for block 6. The disk reports an error when
block 6 is read, and `iderw` returns with a valid buffer that has the bytes of block 5. -/
theorem valid_failed_read :
    let as := reads (1, 5) 0 false ++ [.user (.brelse 0 0), .user (.release 0)] ++
      (List.range 29).flatMap (fun k => [.user (.bget 0 (1, 100 + k)), .user (.acquire 0)]) ++
      reads (1, 6) 0 true
    ∃ t, run Mon.step (Mon.init numbered true) as = some t ∧ t.drv 0 = none ∧
      (t.buf 0).valid = true ∧ (t.buf 0).key = (1, 6) ∧ t.edits 0 = [] ∧
      (t.buf 0).data = numbered (1, 5) ∧ ¬t.Sound := by
  intro as
  have hrun : (run Mon.step (Mon.init numbered true) as).any (fun t => t.drv 0 = none ∧
      (t.buf 0).valid = true ∧ (t.buf 0).key = (1, 6) ∧ (t.edits 0).isEmpty ∧
      (∀ j, (t.buf 0).data j = numbered (1, 5) j) ∧
      ∀ j, t.disk (1, 6) j = numbered (1, 6) j) = true := by decide +kernel
  obtain ⟨t, ht⟩ : ∃ t, run Mon.step (Mon.init numbered true) as = some t :=
    Option.isSome_iff_exists.mp (by decide +kernel)
  rw [ht] at hrun
  obtain ⟨hdrv, hvalid, hkey, hedits, hdata, hdisk⟩ := of_decide_eq_true hrun
  have hedits : t.edits 0 = [] := List.isEmpty_iff.mp hedits
  refine ⟨t, ht, hdrv, hvalid, hkey, hedits, funext hdata, fun hs => ?_⟩
  have hold := hs 0 hvalid
  rw [Holds, hedits, hkey, funext hdata, funext hdisk] at hold
  have hbyte : numbered (1, 5) ⟨0, by decide⟩ = numbered (1, 6) ⟨0, by decide⟩ :=
    congrFun hold _
  exact absurd hbyte (by decide)

end Xv6.Ide
