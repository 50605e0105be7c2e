import Xv6.Fs.Simulate

/-!
# The first system call

The state in which the first process starts (`Xv6.Fs.Booted`): the disk is as `mkfs`
has left it, and `userinit` has given the process its working directory with
`namei("/")`. This has put the root directory into the inode cache without reading
it, so that the state is not quite what holds between two system calls. The process
starts with `exec("/init", argv)`, whatever comes of it; the walk along the path
reads the root directory, and then the two states do not differ any more
(`Xv6.Fs.Booted.call_first`).
-/

namespace Xv6.Fs

open Lib Function

variable {Pid : Type}

/-- The file system without the copies of the inode cache, between two system
calls. -/
def State.view (s : State Pid) : View Pid where
  disk := s.disk
  data := s.data
  ninodes := s.ninodes
  inode := fun i =>
    if (s.inode i).ref = 0 then none
    else some ⟨(s.inode i).inum, (s.inode i).ref, (s.inode i).lock, (s.inode i).valid⟩
  tables := s.tables
  outstanding := s.outstanding
  cons := s.cons
  dirty := fun _ => false

/-- **A well-formed disk.** -/
structure Image (s : State Pid) : Prop where
  dirs : DirsOk s.view
  root : (s.disk ROOTINO).type = T_DIR
  ninodes : s.ninodes.toNat ≤ 65536
  range : ∀ t, (s.disk t).type ≠ 0 → t ≠ 0 ∧ t < s.ninodes
  named : ∀ t, (s.disk t).type ≠ 0 → (s.disk t).nlink ≠ 0

/-- **The state in which the first process `p` starts**, with its working directory at
entry `r` of the inode cache. -/
structure Booted (s : State Pid) (p : Pid) (r : Slot) : Prop extends Image s where
  cwd : (s.proc p).cwd = some r
  others : ∀ q, q ≠ p → (s.proc q).cwd = none
  ofile : ∀ q fd, (s.proc q).ofile fd = none
  entry : ∃ d, s.inode r = ⟨ROOTDEV, ROOTINO, 1, none, false, d⟩
  empty : ∀ i, i ≠ r → (s.inode i).ref = 0 ∧ (s.inode i).lock = none
  file : ∀ f, (s.file f).ref = 0 ∧ (s.file f).type = .none
  pipe : ∀ q, s.pipe q = ⟨false, false, 0⟩
  outstanding : s.outstanding = 0

/-- Read an inode into the cache. -/
def State.read (s : State Pid) (i : Slot) : State Pid :=
  s.set i { s.inode i with d := s.disk (s.inode i).inum, valid := true }

/-- The path of the first program. -/
def initPath : Str := [47, 105, 110, 105, 116]

section Read

variable {s : State Pid} {i : Slot} {p : Pid} {r : Slot}

theorem State.set_set (s : State Pid) (i : Slot) (x y : Inode Pid Fields) :
    (s.set i x).set i y = s.set i y := by
  simp [State.set]

theorem State.set_inode (s : State Pid) (i : Slot) (x : Inode Pid Fields) :
    (s.set i x).inode i = x := update_self ..

theorem State.set_inode_of_ne {j : Slot} {x : Inode Pid Fields} (h : j ≠ i) :
    (s.set i x).inode j = s.inode j := update_of_ne h ..

variable [DecidableEq Pid]

theorem exec_op {o : Op Pid} {t : State Pid} {x : o.Res} {α : Type} (h : handle o s = .ok (x, t))
    (f : o.Res → FsM Pid α) : (o.perform >>= f).exec handle s = (f x).exec handle t :=
  Prog.exec_bind_ok (Prog.exec_perform h) f

/-- **`ilock`** of an inode that is allocated and not locked. -/
theorem exec_ilock (href : 1 ≤ (s.inode i).ref) (hl : (s.inode i).lock = none)
    (hty : (s.disk (s.inode i).inum).type ≠ 0) :
    (ilock p i).exec handle s = .ok ((), if (s.inode i).valid = true then
      s.set i { s.inode i with lock := some p }
    else s.set i { s.inode i with lock := some p, d := s.disk (s.inode i).inum, valid := true }) := by
  have hlock : handle (.acquiresleep p i) s =
      .ok ((), s.set i { s.inode i with lock := some p }) := if_pos hl
  unfold ilock
  rw [exec_op (o := .ref i) rfl, panicIf, if_neg (by omega), Prog.bind_ret, exec_op hlock]
  unfold iload
  rw [exec_op (o := .valid i) rfl, State.set_inode]
  simp only
  split
  · rfl
  · rw [exec_op (o := .load i) rfl, exec_op (o := .fields i) rfl, State.set_set, State.set_inode,
      State.set_inode, panicIf, if_neg (by exact hty)]
    rfl

/-- It does not matter whether the inode has been read before. -/
theorem exec_ilock_read (href : 1 ≤ (s.inode i).ref) (hl : (s.inode i).lock = none)
    (hty : (s.disk (s.inode i).inum).type ≠ 0) (hv : (s.inode i).valid = false) :
    (ilock p i).exec handle s = (ilock p i).exec handle (s.read i) := by
  have hread : (s.read i).inode i =
      { s.inode i with d := s.disk (s.inode i).inum, valid := true } := State.set_inode ..
  rw [exec_ilock href hl hty, exec_ilock (by rw [hread]; exact href) (by rw [hread]; exact hl)
    (by rw [hread]; exact hty), hread, hv, if_neg (by decide), if_pos rfl, State.read,
    State.set_set]

omit [DecidableEq Pid] in
/-- `iget` finds an inode in the cache. -/
theorem iget_of_is {dev inum : UInt32} (hi : (s.inode i).Is dev inum)
    (huniq : ∀ j, (s.inode j).Is dev inum → j = i) :
    s.iget dev inum = .ok (i, s.set i { s.inode i with ref := (s.inode i).ref + 1 }) := by
  unfold State.iget
  cases hget : Xv6.iget s.inode dev inum with
  | none =>
    unfold Xv6.iget at hget
    split at hget
    · cases hget
    · cases hget
    · rename_i hfull
      exact absurd hi ((igetLoop_full hfull).2 i (List.mem_finRange i)).1
  | some x =>
    obtain ⟨j, c⟩ := x
    rcases iget_spec hget with ⟨hj, rfl⟩ | ⟨-, hno, -⟩
    · obtain rfl := huniq j hj
      rfl
    · exact absurd hi (hno i)

end Read

section Booted

variable {s : State Pid} {p : Pid} {r : Slot}

namespace Booted

theorem is_root (h : Booted s p r) : (s.inode r).Is ROOTDEV ROOTINO := by
  obtain ⟨d, hd⟩ := h.entry
  rw [hd]
  exact ⟨zero_lt_one, rfl, rfl⟩

theorem eq_of_is (h : Booted s p r) {j : Slot} {dev inum : UInt32}
    (hj : (s.inode j).Is dev inum) : j = r := by
  by_contra hne
  have hpos := hj.1
  rw [(h.empty j hne).1] at hpos
  exact lt_irrefl 0 hpos

variable [DecidableEq Pid]

/-- The walk along an absolute path begins by reading the root directory. -/
theorem exec_namex (h : Booted s p r) {path : Str} {x : Str × Str} {rest : List (Str × Str)}
    (habs : path.head? = some slash) (helems : elems path = x :: rest) {s₀ s₁ : State Pid}
    (h₀ : s₀ = { s with outstanding := s.outstanding + 1 })
    (h₁ : s₁ = { s.read r with outstanding := s.outstanding + 1 }) :
    (namex p path false).exec handle s₀ = (namex p path false).exec handle s₁ := by
  obtain ⟨d, hd⟩ := h.entry
  have hread : (s.read r).inode r = ⟨ROOTDEV, ROOTINO, 1, none, true, s.disk ROOTINO⟩ := by
    rw [State.read, State.set_inode, hd]
  have hget₀ : handle (.iget ROOTDEV ROOTINO) s₀ =
      .ok (r, s₀.set r { s₀.inode r with ref := (s₀.inode r).ref + 1 }) := by
    rw [h₀]
    exact iget_of_is h.is_root fun j hj => h.eq_of_is hj
  have hget₁ : handle (.iget ROOTDEV ROOTINO) s₁ =
      .ok (r, s₁.set r { s₁.inode r with ref := (s₁.inode r).ref + 1 }) := by
    rw [h₁]
    refine iget_of_is (by exact hread ▸ ⟨zero_lt_one, rfl, rfl⟩) fun j hj => ?_
    by_contra hne
    have hj' : (s.inode j).Is ROOTDEV ROOTINO := by
      have heq : (s.read r).inode j = s.inode j := State.set_inode_of_ne hne
      rwa [← heq]
    exact hne (h.eq_of_is hj')
  have hstart : namexStart p path = (Op.iget ROOTDEV ROOTINO).perform := if_pos habs
  unfold namex
  rw [hstart, exec_op hget₀, exec_op hget₁, helems]
  rw [namexLoop]
  refine Prog.exec_bind_congr ?_ _
  have hi₀ : s₀.inode r = ⟨ROOTDEV, ROOTINO, 1, none, false, d⟩ := by rw [h₀]; exact hd
  rw [exec_ilock_read]
  · congr 1
    rw [h₁, h₀]
    simp only [State.read, State.set, update_self, update_idem]
  · rw [State.set_inode, hi₀]
    exact one_le_two
  · rw [State.set_inode, hi₀]
  · rw [State.set_inode, hi₀, h₀]
    change (s.disk ROOTINO).type ≠ 0
    rw [h.root]
    decide
  · rw [State.set_inode, hi₀]

/-- **The first system call** does what it would do if the root directory had been
read before. -/
theorem call_first (h : Booted s p r) (vm : Vm) :
    call s (p, .exec initPath vm) = call (s.read r) (p, .exec initPath vm) := by
  have hcwd : (s.proc p).cwd ≠ none := by
    rw [h.cwd]
    exact Option.some_ne_none r
  have hexec : (execFile p initPath vm).exec handle s =
      (execFile p initPath vm).exec handle (s.read r) := by
    unfold execFile
    rw [exec_op (o := .beginOp) rfl, exec_op (o := .beginOp) rfl]
    refine Prog.exec_bind_congr ?_ _
    unfold namei
    exact Prog.exec_bind_congr (h.exec_namex rfl rfl rfl rfl) _
  unfold call
  rw [if_neg hcwd, if_neg (by exact hcwd)]
  exact congrArg (Effect.map Prod.snd) (Prog.exec_bind_congr hexec _)

end Booted

end Booted

/-! ### The smallest file system -/

/-- The contents of the root directory of a disk with nothing else on it. -/
def rootData (k : ℕ) : UInt8 := (dirent ROOTINO dot ++ dirent ROOTINO dotdot).getD k 0

/-- The smallest file system, when the first process starts. -/
def bootState : State ℕ where
  disk := fun t => if t = ROOTINO then ⟨T_DIR, 0, 0, 1, 32⟩ else ⟨0, 0, 0, 0, 0⟩
  data := fun t => if t = ROOTINO then rootData else fun _ => 0
  ninodes := 200
  inode := fun i => if i = 0 then ⟨ROOTDEV, ROOTINO, 1, none, false, ⟨0, 0, 0, 0, 0⟩⟩
    else ⟨0, 0, 0, none, false, ⟨0, 0, 0, 0, 0⟩⟩
  file := fun _ => ⟨.none, 0, false, false, 0, 0, 0⟩
  pipe := fun _ => ⟨false, false, 0⟩
  proc := fun q => if q = 0 then ⟨some 0, fun _ => none⟩ else ⟨none, fun _ => none⟩
  outstanding := 0
  cons := []

theorem dirOk_bootState : DirOk bootState.view ROOTINO 2 := by
  refine ⟨⟨rfl, rfl, by decide⟩, le_rfl, by decide, by decide, by decide, by decide, by decide⟩

theorem booted_bootState : Booted bootState 0 0 := by
  have hdisk : ∀ t, (bootState.disk t).type ≠ 0 → t = ROOTINO := by
    intro t ht
    by_contra hne
    refine ht ?_
    change (if t = ROOTINO then _ else _ : Fields).type = 0
    rw [if_neg hne]
  refine ⟨⟨fun t ht => ?_, rfl, by decide, fun t ht => ?_, fun t ht => ?_⟩, rfl, fun q hq => ?_,
    fun q fd => ?_, ⟨_, rfl⟩, fun i hi => ?_, fun _ => ⟨rfl, rfl⟩, fun _ => rfl, rfl⟩
  · obtain rfl := hdisk t (by
      change (bootState.disk t).type = T_DIR at ht
      rw [ht]
      decide)
    exact ⟨2, dirOk_bootState⟩
  · rw [hdisk t ht]
    decide
  · rw [hdisk t ht]
    decide
  · change (if q = 0 then _ else _ : Proc).cwd = none
    rw [if_neg hq]
  · change (if q = 0 then _ else _ : Proc).ofile fd = none
    split <;> rfl
  · change (if i = 0 then _ else _ : Inode ℕ Fields).ref = 0 ∧
      (if i = 0 then _ else _ : Inode ℕ Fields).lock = none
    rw [if_neg hi]
    exact ⟨rfl, rfl⟩

end Xv6.Fs
