import Mathlib.Data.Finset.Sum
import Mathlib.Data.Fintype.Basic
import Xv6.Fs.Boot

/-!
# References between system calls

The file system between any two system calls (`Xv6.Fs.Between`): it is the abstract
one with an inode cache, the abstract one is well-formed, and no transaction is open.
A system call that returns leads from such a state to such a state
(`Xv6.Fs.Between.call_ok`), and the first system call begins in one.

Two results say what this means for the reference counts. Between two system calls
every entry of the inode cache has as many references as there are open files and
working directories that refer to it (`Xv6.Fs.inode_references_balance`), and every
open file as many as there are descriptors; a pipe is there as long as one of its
ends is open (`Xv6.Fs.file_references_balance`).
-/

namespace Xv6.Fs

open Lib View

variable {Pid : Type}

/-- **The file system between two system calls.** -/
structure Between (s : State Pid) (a : View Pid) : Prop where
  rel : Rel s a
  wf : Wf a
  idle : Idle a
  outstanding : a.outstanding = 0

/-- No conditions. -/
def Cond.any : Cond := ⟨fun _ _ _ => True, fun _ _ => True, fun _ _ => True⟩

theorem Cond.any_K (a : View Pid) (o : Op Pid) : Cond.any.K a o := by
  cases o with
  | itrunc i => exact fun _ _ => trivial
  | setNlink i n => exact fun _ _ => trivial
  | writei i off src => exact fun _ _ => trivial
  | _ => trivial

/-! ### The first process -/

namespace Booted

variable {s : State Pid} {p : Pid} {r : Slot}

variable (h : Booted s p r)
include h

theorem read_inode :
    (s.read r).inode r = ⟨ROOTDEV, ROOTINO, 1, none, true, s.disk ROOTINO⟩ := by
  obtain ⟨d, hd⟩ := h.entry
  rw [State.read, State.set_inode, hd]

/-- The only entry of the inode cache in use is the one for the root directory. -/
theorem view_inode (i : Slot) :
    (s.read r).view.inode i = if i = r then some ⟨ROOTINO, 1, none, true⟩ else none := by
  by_cases hi : i = r
  · subst hi
    rw [if_pos rfl, State.view]
    simp only [h.read_inode]
    rw [if_neg one_ne_zero]
  · have heq : (s.read r).inode i = s.inode i := State.set_inode_of_ne hi
    rw [if_neg hi, State.view]
    simp only [heq, (h.empty i hi).1, if_true]

theorem eq_of_view {i : Slot} {e : Entry Pid}
    (hi : (s.read r).view.inode i = some e) : i = r ∧ e = ⟨ROOTINO, 1, none, true⟩ := by
  rw [h.view_inode] at hi
  split at hi
  · exact ⟨‹_›, (Option.some.inj hi).symm⟩
  · cases hi

theorem rel : Rel (s.read r) (s.read r).view := by
  refine ⟨fun i => ?_, fun i j e e' hi hj _ => ?_, fun _ _ => rfl, nofun, rfl, rfl, rfl, rfl, rfl⟩
  · rw [h.view_inode]
    split
    · rename_i hi
      subst hi
      rw [h.read_inode]
      exact ⟨le_rfl, rfl, fun _ => rfl⟩
    · rename_i hi
      rw [show (s.read r).inode i = s.inode i from State.set_inode_of_ne hi]
      exact h.empty i hi
  · rw [(h.eq_of_view hi).1, (h.eq_of_view hj).1]

theorem tables_ok : (s.read r).view.tables.Ok := by
  have hnone : ∀ f, ((s.read r).view.tables.file f).type = .none := fun f => (h.file f).2
  have hrefers : ∀ f x, ¬(s.read r).view.tables.Refers f x := by
    intro f x hx
    exact absurd ((h.ofile x.1 x.2).symm.trans hx) (by simp)
  have hend : ∀ q w f, ¬(s.read r).view.tables.IsEnd q w f := fun q w f hf =>
    absurd ((hnone f).symm.trans hf.1) (by decide)
  refine ⟨fun f => ?_, fun q => ?_⟩
  · have href : ((s.read r).view.tables.file f).ref = 0 := (h.file f).1
    refine ⟨?_, iff_of_true href (hnone f), fun hf => absurd ((hnone f).symm.trans hf) (by decide)⟩
    rw [href]
    exact counts_zero (hrefers f)
  · have hpipe : (s.read r).view.tables.pipe q = ⟨false, false, 0⟩ := h.pipe q
    rw [hpipe]
    refine ⟨fun w f _ hf => absurd hf (hend q w f), fun w => iff_of_false ?_ ?_, rfl⟩
    · cases w <;> decide
    · exact fun ⟨f, hf⟩ => hend q w f hf

theorem neat : Neat (s.read r).view := by
  have hroot : (s.disk ROOTINO).type ≠ 0 := by
    rw [h.root]
    decide
  refine ⟨⟨fun i e hi => ?_, fun i j e e' hi hj _ => ?_, fun _ => rfl⟩, fun t ht => ?_,
    (h.range ROOTINO hroot).2, h.ninodes, h.range, fun q i hq => ?_⟩
  · obtain ⟨-, rfl⟩ := h.eq_of_view hi
    exact ⟨le_rfl, rfl, rfl, hroot⟩
  · rw [(h.eq_of_view hi).1, (h.eq_of_view hj).1]
  · obtain ⟨n, hn⟩ := h.dirs t ht
    exact ⟨n, hn.congr rfl rfl rfl rfl⟩
  · by_cases hqp : q = p
    · subst hqp
      have hir : i = r := Option.some.inj (hq.symm.trans h.cwd)
      exact ⟨_, by rw [h.view_inode, if_pos hir]⟩
    · exact absurd (hq.symm.trans (h.others q hqp)) (by simp)

omit h

variable [DecidableEq Pid]

omit [DecidableEq Pid] in
theorem holds_of_ne (h : Booted s p r) {x : Pid ⊕ FileId} (hx : x ≠ .inl p) :
    (s.read r).view.tables.holds x = none := by
  cases x with
  | inl q => exact h.others q fun hq => hx (congrArg Sum.inl hq)
  | inr f => exact File.holds_eq_none.mpr fun hf => absurd ((h.file f).2.symm.trans hf) (by decide)

theorem between (h : Booted s p r) : Between (s.read r) (s.read r).view := by
  have hidle : Idle (s.read r).view := fun q _ fd => h.ofile q fd
  refine ⟨h.rel, ⟨⟨h.neat, fun t ht hn => absurd hn (h.named t ht)⟩, fun i => ?_,
    ⟨h.tables_ok, fun f e hf => ?_⟩⟩, hidle, h.outstanding⟩
  · have hc := (counts_zero (P := fun _ : Pid ⊕ FileId => False) fun _ hc => hc).change
      (Q := fun x => (s.read r).view.tables.holds x = some i) (p := .inl p) fun x hx => by
        simp [h.holds_of_ne hx]
    have hp : (s.read r).view.tables.holds (.inl p) = some r := h.cwd
    have hrefs : (s.read r).view.refs i = if some r = some i then 1 else 0 := by
      rw [View.refs, h.view_inode]
      by_cases hi : r = i <;> simp [hi, Ne.symm]
    rw [hrefs]
    simpa [hp] using hc
  · exact absurd ((h.file f).2.symm.trans hf) (by decide)

end Booted

/-! ### A system call -/

section Call

variable [DecidableEq Pid] {s t : State Pid} {a : View Pid} {p : Pid} {o : Call Pid} {c : Cond}
  {bad : String → Prop}

/-- A program that returns does so in the file system without copies. -/
theorem Rel.exec_ok {α : Type} {P : FsM Pid α} {Q : α → View Pid → Prop} {x : α} (h : Rel s a)
    (hwp : (logic c.K bad).wp P Q a) (hK : P.Meets View.handle c.K a)
    (ht : P.exec handle s = .ok (x, t)) : ∃ b, Q x b ∧ Rel t b := by
  obtain ⟨hout, hneeded⟩ := Logic.sound hwp hK
  have hm := simulates_view.exec (p := P) h hneeded
  rw [ht] at hm
  obtain ⟨b, hb, hrel⟩ := hm
  change (logic c.K bad).Outcome _ (P.exec View.handle a) at hout
  rw [hb] at hout
  exact ⟨b, hout, hrel⟩

theorem call_of_cwd (h : (s.proc p).cwd ≠ none) :
    call s (p, o) = ((o.prog p).exec handle s).map (·.2) := if_neg h

/-- **A system call that does not return** has not stopped the system with a bad
message. -/
theorem Between.call_panic (h : Between s a) (hb : Allows bad a)
    (hK : (o.prog p).Meets View.handle c.K a) {msg : String} (hmsg : call s (p, o) = .panic msg) :
    ¬bad msg := by
  have hp : (s.proc p).cwd ≠ none := by
    intro hc
    rw [call, if_pos hc] at hmsg
    cases hmsg
  obtain ⟨hout, hneeded⟩ := Logic.sound (wp_call (o := o) (c := c) h.wf h.idle hb
    (by rw [← h.rel.tables]; exact hp)) hK
  have hm := simulates_view.exec (p := o.prog p) h.rel hneeded
  rw [call_of_cwd hp] at hmsg
  cases hexec : (o.prog p).exec handle s with
  | ok x =>
    rw [hexec] at hmsg
    cases hmsg
  | disabled =>
    rw [hexec] at hmsg
    cases hmsg
  | panic msg' =>
    rw [hexec] at hmsg hm
    obtain rfl : msg' = msg := by injection hmsg
    rcases hm with hm | hm
    · exact hm.elim
    · change (logic c.K bad).Outcome _ ((o.prog p).exec View.handle a) at hout
      rwa [hm] at hout

/-- **A system call that returns** leads from a state between two system calls to such
a state. -/
theorem Between.call_ok (h : Between s a) (hb : Allows bad a)
    (hK : (o.prog p).Meets View.handle c.K a) (ht : call s (p, o) = .ok t) :
    ∃ b, Called c a b ∧ Between t b := by
  have hp : (s.proc p).cwd ≠ none := by
    intro hc
    rw [call, if_pos hc] at ht
    cases ht
  rw [call_of_cwd hp] at ht
  obtain ⟨x, hexec, rfl⟩ := Effect.map_eq_ok.mp ht
  obtain ⟨b, hcalled, hrel⟩ := h.rel.exec_ok (wp_call (o := o) (c := c) h.wf h.idle hb
    (by rw [← h.rel.tables]; exact hp)) hK hexec
  exact ⟨b, hcalled, hrel, h.wf.steps hcalled.steps, hcalled.idle,
    hcalled.outstanding.trans h.outstanding⟩

end Call

/-! ### Runs -/

/-- The first system call is that of the first process, `exec("/init", argv)`. -/
def Starts (p : Pid) (as : List (Pid × Call Pid)) : Prop :=
  ∀ x, as.head? = some x → ∃ vm, x = (p, .exec initPath vm)

section Runs

variable [DecidableEq Pid] {s t : State Pid} {p : Pid} {r : Slot} {as : List (Pid × Call Pid)}
  {a : View Pid}

theorem Between.step {x : Pid × Call Pid} (h : Between s a) (ht : Fs.step s x = some t) :
    ∃ b, Between t b := by
  have hallows : Allows (fun _ => False) a := ⟨fun _ _ => id, False.elim⟩
  obtain ⟨b, -, hb⟩ := h.call_ok hallows (Prog.meets_of_forall Cond.any_K _ _)
    (Effect.toOption_eq_some.mp ht)
  exact ⟨b, hb⟩

/-- **Every state between two system calls**, but for what the first process starts
with. -/
theorem Booted.between_of_run (h : Booted s p r) (hstart : Starts p as)
    (hrun : run Fs.step s as = some t) : (∃ a, Between t a) ∨ as = [] ∧ t = s := by
  cases as with
  | nil => exact .inr ⟨rfl, (Option.some.inj hrun).symm⟩
  | cons x as =>
    obtain ⟨vm, rfl⟩ := hstart x rfl
    obtain ⟨u, hu, hrest⟩ := run_cons.mp hrun
    rw [Fs.step, h.call_first] at hu
    refine .inl (run_invariant (P := fun s => ∃ a, Between s a) ?_ (h.between.step hu) hrest)
    rintro s t x ⟨a, ha⟩ hst
    exact ha.step hst

/-! ### Inodes -/

/-- **The reference counts of the inode cache are right**: no inode is locked and no
transaction is open, an entry has as many references as there are open files and
working directories that refer to it, and no inode has two entries. -/
structure InodesBalanced (s : State Pid) : Prop where
  unlocked : ∀ i, (s.inode i).lock = none
  outstanding : s.outstanding = 0
  refs : ∀ i, ∃ n, Counts (fun q => (s.proc q).cwd = some i) n ∧
    (s.inode i).ref = (Finset.univ.filter fun f =>
      (s.file f).type = .inode ∧ 0 < (s.file f).ref ∧ (s.file f).ip = i).card + n
  distinct : ∀ i j, 0 < (s.inode i).ref → 0 < (s.inode j).ref →
    (s.inode i).dev = (s.inode j).dev → (s.inode i).inum = (s.inode j).inum → i = j

section

omit [DecidableEq Pid]

/-- The references are those of processes and those of open files. -/
theorem counts_holds {T : Tables Pid} {i : Slot} {n : ℤ}
    (h : Counts (fun x => T.holds x = some i) n) (hT : T.Ok) : ∃ m, Counts (fun q => (T.proc q).cwd = some i) m ∧
      n = (Finset.univ.filter fun f =>
        (T.file f).type = .inode ∧ 0 < (T.file f).ref ∧ (T.file f).ip = i).card + m := by
  obtain ⟨F, hF, rfl⟩ := h
  refine ⟨F.toLeft.card, ⟨F.toLeft, fun q => ?_, rfl⟩, ?_⟩
  · rw [Finset.mem_toLeft, hF]
    exact Iff.rfl
  · have hright : F.toRight = Finset.univ.filter fun f =>
        (T.file f).type = .inode ∧ 0 < (T.file f).ref ∧ (T.file f).ip = i := by
      ext f
      rw [Finset.mem_toRight, hF, Finset.mem_filter]
      refine File.holds_eq_some.trans
        ⟨fun hf => ⟨Finset.mem_univ f, hf.1, ?_, hf.2⟩, fun hf => ⟨hf.2.1, hf.2.2.2⟩⟩
      exact hT.ref_of_type (by rw [hf.1]; decide)
    rw [← hright, ← F.card_toLeft_add_card_toRight]
    push_cast
    ring

theorem Between.inodesBalanced (h : Between s a) : InodesBalanced s := by
  have hentry : ∀ i, 0 < (s.inode i).ref → ∃ e, a.inode i = some e := by
    intro i hi
    cases he : a.inode i with
    | some e => exact ⟨e, rfl⟩
    | none =>
      rw [(h.rel.empty i he).1] at hi
      exact absurd hi (lt_irrefl 0)
  refine ⟨fun i => ?_, h.rel.outstanding.trans h.outstanding, fun i => ?_,
    fun i j hi hj _ hinum => ?_⟩
  · cases he : a.inode i with
    | none => exact (h.rel.empty i he).2
    | some e =>
      rw [h.rel.entry he]
      exact h.wf.lock i e he
  · have href : (s.inode i).ref = a.refs i := by
      cases he : a.inode i with
      | none => rw [(h.rel.empty i he).1, refs_none he]
      | some e => rw [h.rel.entry he, refs_some he]
    rw [href, h.rel.tables]
    exact counts_holds (h.wf.balanced i) h.wf.files.ok
  · obtain ⟨e, he⟩ := hentry i hi
    obtain ⟨e', he'⟩ := hentry j hj
    rw [h.rel.entry he, h.rel.entry he'] at hinum
    exact h.wf.uniq i j e e' he he' hinum

/-- Reading an inode into the cache has nothing to do with the references to it. -/
theorem inodesBalanced_of_read (h : InodesBalanced (s.read r)) : InodesBalanced s := by
  have hfields : ∀ i, ((s.read r).inode i).lock = (s.inode i).lock ∧
      ((s.read r).inode i).ref = (s.inode i).ref ∧ ((s.read r).inode i).dev = (s.inode i).dev ∧
      ((s.read r).inode i).inum = (s.inode i).inum := by
    intro i
    by_cases hi : i = r
    · subst hi
      rw [State.read, State.set_inode]
      exact ⟨rfl, rfl, rfl, rfl⟩
    · rw [State.read, State.set_inode_of_ne hi]
      exact ⟨rfl, rfl, rfl, rfl⟩
  refine ⟨fun i => ?_, h.outstanding, fun i => ?_, fun i j hi hj hdev hinum => ?_⟩
  · rw [← (hfields i).1]
    exact h.unlocked i
  · rw [← (hfields i).2.1]
    exact h.refs i
  · obtain ⟨-, hri, hdi, hni⟩ := hfields i
    obtain ⟨-, hrj, hdj, hnj⟩ := hfields j
    exact h.distinct i j (by rw [hri]; exact hi) (by rw [hrj]; exact hj)
      (by rw [hdi, hdj]; exact hdev) (by rw [hni, hnj]; exact hinum)

end

/-- **Inode references balance on every path.** -/
theorem inode_references_balance (h : Booted s p r) (hstart : Starts p as)
    (hrun : run Fs.step s as = some t) : InodesBalanced t := by
  rcases h.between_of_run hstart hrun with ⟨a, ha⟩ | ⟨-, rfl⟩
  · exact ha.inodesBalanced
  · exact inodesBalanced_of_read h.between.inodesBalanced

/-- A directory is made, opened, entered and removed by two processes, the first of
which exits. -/
def removeEntered : List (ℕ × Call ℕ) :=
  [(0, .exec initPath ⟨true, fun _ => true⟩), (0, .mkdir [47, 97]), (0, .open [47, 97] O_RDONLY),
   (0, .fork (some 1)), (1, .chdir [47, 97]), (1, .close 0), (1, .unlink [47, 97]), (0, .exit)]

theorem inode_references_balance_removeEntered :
    ∃ t, run Fs.step bootState removeEntered = some t ∧ InodesBalanced t := by
  have hsome : (run Fs.step bootState removeEntered).isSome = true := by decide +kernel
  obtain ⟨t, ht⟩ := Option.isSome_iff_exists.mp hsome
  refine ⟨t, ht, inode_references_balance booted_bootState (fun x hx => ?_) ht⟩
  exact ⟨_, (Option.some.inj hx).symm⟩

/-! ### Open files and pipes -/

/-- **The reference counts of open files are right, and so is the life of a pipe.** -/
structure FilesBalanced (s : State Pid) : Prop where
  refs : ∀ f, Counts (fun x : Pid × Fd => (s.proc x.1).ofile x.2 = some f) (s.file f).ref
  unset : ∀ f, (s.file f).ref = 0 → (s.file f).type = .none
  readopen : ∀ q, (s.pipe q).readopen = true ↔
    ∃ f, 0 < (s.file f).ref ∧ (s.file f).type = .pipe ∧ (s.file f).pipe = q ∧
      (s.file f).readable = true
  writeopen : ∀ q, (s.pipe q).writeopen = true ↔
    ∃ f, 0 < (s.file f).ref ∧ (s.file f).type = .pipe ∧ (s.file f).pipe = q ∧
      (s.file f).writable = true
  owned : ∀ q, (s.pipe q).owned =
    if (s.pipe q).readopen = true ∨ (s.pipe q).writeopen = true then 1 else 0
  live : ∀ p fd f, (s.proc p).ofile fd = some f → (s.file f).type = .pipe →
    (s.pipe (s.file f).pipe).owned = 1

section

omit [DecidableEq Pid]

theorem Tables.Ok.isEnd_iff {T : Tables Pid} (h : T.Ok) (q : PipeId) (f : FileId) :
    (T.IsEnd q false f ↔ 0 < (T.file f).ref ∧ (T.file f).type = .pipe ∧ (T.file f).pipe = q ∧
      (T.file f).readable = true) ∧
    (T.IsEnd q true f ↔ 0 < (T.file f).ref ∧ (T.file f).type = .pipe ∧ (T.file f).pipe = q ∧
      (T.file f).writable = true) := by
  have hpos : (T.file f).type = .pipe → 0 < (T.file f).ref := fun hty =>
    h.ref_of_type (by rw [hty]; decide)
  constructor
  · refine ⟨fun hf => ⟨hpos hf.1, hf.1, hf.2.1, ?_⟩, fun hf => ⟨hf.2.1, hf.2.2.1, ?_⟩⟩
    · rw [(h.files f).ends hf.1, hf.2.2]
      rfl
    · have := (h.files f).ends hf.2.1
      rw [hf.2.2.2] at this
      cases hw : (T.file f).writable with
      | false => rfl
      | true =>
        rw [hw] at this
        cases this
  · exact ⟨fun hf => ⟨hpos hf.1, hf⟩, fun hf => hf.2⟩

theorem Between.filesBalanced (h : Between s a) : FilesBalanced s := by
  have hok := h.wf.files.ok
  rw [← h.rel.tables] at hok
  exact ⟨fun f => (hok.files f).refs, hok.idle,
    fun q => ((hok.pipes q).isOpen false).trans (exists_congr fun f => (hok.isEnd_iff q f).1),
    fun q => ((hok.pipes q).isOpen true).trans (exists_congr fun f => (hok.isEnd_iff q f).2),
    fun q => (hok.pipes q).owned, fun _ _ _ _ hty => (hok.pipes _).owned_of_end ⟨hty, rfl, rfl⟩⟩

theorem filesBalanced_of_read (h : FilesBalanced (s.read r)) : FilesBalanced s :=
  ⟨h.refs, h.unset, h.readopen, h.writeopen, h.owned, h.live⟩

end

theorem Between.no_file_panic (h : Between s a) (x : Pid × Call Pid) :
    call s x ≠ .panic "filedup" ∧ call s x ≠ .panic "fileclose" := by
  have hallows : Allows (fun msg => msg = "filedup" ∨ msg = "fileclose") a :=
    ⟨by decide, fun hc => absurd hc (by decide)⟩
  have hall : ∀ msg, call s x = .panic msg → ¬(msg = "filedup" ∨ msg = "fileclose") := fun msg =>
    h.call_panic hallows (Prog.meets_of_forall Cond.any_K _ _)
  exact ⟨fun hc => hall _ hc (.inl rfl), fun hc => hall _ hc (.inr rfl)⟩

/-- **Open-file references and the life of pipes**: between two system calls the counts
are right, and no system call stops the system in `filedup` or in `fileclose`. -/
theorem file_references_balance (h : Booted s p r) (hstart : Starts p as)
    (hrun : run Fs.step s as = some t) : FilesBalanced t ∧
      ∀ x, Starts p (as ++ [x]) → call t x ≠ .panic "filedup" ∧ call t x ≠ .panic "fileclose" := by
  rcases h.between_of_run hstart hrun with ⟨a, ha⟩ | ⟨rfl, rfl⟩
  · exact ⟨ha.filesBalanced, fun x _ => ha.no_file_panic x⟩
  · refine ⟨filesBalanced_of_read h.between.filesBalanced, fun x hx => ?_⟩
    obtain ⟨vm, rfl⟩ := hx x rfl
    rw [h.call_first]
    exact h.between.no_file_panic _

/-- A pipe is made, and its ends are shared with a child and closed in turn. -/
def sharePipe : List (ℕ × Call ℕ) :=
  [(0, .exec initPath ⟨true, fun _ => true⟩), (0, .pipe (some 7)), (0, .dup 0),
   (0, .fork (some 1)), (0, .close 0), (0, .close 1), (0, .close 2), (1, .close 0), (1, .exit)]

theorem file_references_balance_sharePipe :
    ∃ t, run Fs.step bootState sharePipe = some t ∧ FilesBalanced t := by
  have hsome : (run Fs.step bootState sharePipe).isSome = true := by decide +kernel
  obtain ⟨t, ht⟩ := Option.isSome_iff_exists.mp hsome
  refine ⟨t, ht, (file_references_balance booted_bootState (fun x hx => ?_) ht).1⟩
  exact ⟨_, (Option.some.inj hx).symm⟩

end Runs

end Xv6.Fs
