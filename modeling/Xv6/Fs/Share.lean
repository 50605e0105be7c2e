import Mathlib.Algebra.BigOperators.Group.Finset.Piecewise
import Mathlib.Algebra.Order.BigOperators.Group.Finset
import Xv6.Fs.Contents
import Xv6.Lib.Labels

/-!
# A shared file offset

Processes that have inherited or duplicated a descriptor share the `struct file`, and so
its offset. `f->off` is read, used and moved while the inode is locked, so that of each
call to `fileread` and each round of the loop of `filewrite` the locked section matters,
and these sections come one after the other, in any order (`Xv6.Fs.Sharing.step`).

Whatever the order, each section has the bytes that follow those of the section before
(`Xv6.Fs.Sharing.shared_offset`): nothing is overwritten, left out or read twice.
-/

namespace Xv6.Fs

open Lib Function List

variable {Pid : Type}

/-- The processes that share an open file. -/
structure Sharing (Pid : Type) where
  fs : State Pid
  /-- What a process that is in `filewrite` has left to write. -/
  left : Pid → Option Str

/-- What a process does next. -/
inductive ShareAct (Pid : Type) where
  /-- It calls `filewrite`. -/
  | write (p : Pid) (src : Str)
  /-- It goes once round the loop of `filewrite`. -/
  | piece (p : Pid)
  /-- It returns from `filewrite`. -/
  | done (p : Pid)
  /-- It calls `fileread`, which has one locked section. -/
  | read (p : Pid) (n : UInt32)

/-- What a locked section of a process has read or written. -/
inductive Section (Pid : Type) where
  | wrote (p : Pid) (q : Str)
  | read (p : Pid) (q : Str)

/-- The bytes of a locked section. -/
def Section.bytes : Section Pid → Str
  | .wrote _ q => q
  | .read _ q => q

/-- What has been written. -/
def Section.written : Section Pid → Option Str
  | .wrote _ q => some q
  | .read _ _ => none

/-- The pieces in which `filewrite` writes a string. -/
def pieces (src : Str) : List Str :=
  if _h : src = [] then [] else src.take filewriteMax :: pieces (src.drop filewriteMax)
termination_by src.length
decreasing_by
  have hpos := length_pos_iff.mpr _h
  have hmax : 0 < filewriteMax := by decide
  rw [length_drop]
  omega

namespace Sharing

variable [DecidableEq Pid]

def setLeft (σ : Sharing Pid) (p : Pid) (x : Option Str) : Sharing Pid :=
  { σ with left := update σ.left p x }

/-- What a process does to the file `f`, and the bytes it has read or written. -/
def act (f : FileId) (σ : Sharing Pid) : ShareAct Pid →
    Effect (Option (Section Pid) × Sharing Pid)
  | .write p src =>
    if σ.left p = none ∧ (σ.fs.file f).writable = true ∧ (σ.fs.file f).type = .inode then
      .ok (none, σ.setLeft p (some src))
    else
      .disabled
  | .piece p => match σ.left p with
    | none => .disabled
    | some src =>
      if src = [] then .disabled
      else
        ((writePiece p f (σ.fs.file f).ip (src.take filewriteMax) >>=
            afterPiece (src.take filewriteMax) (return true)).exec handle σ.fs).map fun x =>
          if x.1 then (some (.wrote p (src.take filewriteMax)),
            setLeft { σ with fs := x.2 } p (some (src.drop filewriteMax)))
          else (none, setLeft { σ with fs := x.2 } p none)
  | .done p => if σ.left p = some [] then .ok (none, σ.setLeft p none) else .disabled
  | .read p n =>
    if σ.left p = none then
      ((fileread p f n).exec handle σ.fs).map fun x =>
        (some (.read p (x.1.getD [])), { σ with fs := x.2 })
    else
      .disabled

def step (f : FileId) (σ : Sharing Pid) (a : ShareAct Pid) : Option (Sharing Pid) :=
  ((act f σ a).map Prod.snd).toOption

/-- The locked sections of a run, in order. -/
def sections (f : FileId) (σ : Sharing Pid) (as : List (ShareAct Pid)) : List (Section Pid) :=
  labels (step f) (fun σ a => (act f σ a).toOption.bind Prod.fst) σ as

end Sharing

/-- The string a process asks to be written. -/
def ShareAct.asked (a : ShareAct Pid) : Option Str :=
  match a with
  | .write _ src => some src
  | _ => none

variable [DecidableEq Pid]

/-- The string a given process asks to be written. -/
def ShareAct.askedBy (p : Pid) : ShareAct Pid → Option Str
  | .write q src => if q = p then some src else none
  | _ => none

/-- What a given process has written. -/
def Section.writtenBy (p : Pid) : Section Pid → Option Str
  | .wrote q c => if q = p then some c else none
  | .read _ _ => none

/-! ### One section -/

theorem pieces_nil : pieces [] = [] := by
  rw [pieces, dif_pos rfl]

theorem pieces_of_ne_nil {src : Str} (h : src ≠ []) :
    pieces src = src.take filewriteMax :: pieces (src.drop filewriteMax) := by
  rw [pieces, dif_neg h]

namespace Sharing

/-- What a process has left to write. -/
def rest (σ : Sharing Pid) (p : Pid) : Str := (σ.left p).getD []

/-- The file is open for writing, and its offset is in the file. -/
structure Good (f : FileId) (σ : Sharing Pid) : Prop where
  ready : Ready σ.fs f
  writable : (σ.fs.file f).writable = true
  off : (σ.fs.file f).off.toNat ≤ (σ.fs.contents f).length

/-- There is room for what the processes have left to write, and for `n` bytes more. -/
def Room (f : FileId) (σ : Sharing Pid) (n : ℕ) : Prop :=
  ∀ F : Finset Pid,
    (σ.fs.contents f).length + ∑ p ∈ F, (σ.rest p).length + n ≤ MAXFILE * BSIZE

variable {f : FileId} {σ τ : Sharing Pid} {a : ShareAct Pid} {l : Option (Section Pid)} {p : Pid}
  {s : State Pid} {q : Str} {n : ℕ} {as : List (ShareAct Pid)}

omit [DecidableEq Pid] in
theorem Good.of_written (h : Good f σ) (hs : Written σ.fs s f q) {left : Pid → Option Str} :
    Good f ⟨s, left⟩ := by
  refine ⟨hs.ready, (congrArg File.writable hs.file).trans h.writable, ?_⟩
  rw [hs.off, hs.contents, length_splice h.off]
  exact le_max_right ..

theorem rest_setLeft (σ : Sharing Pid) (p : Pid) (x : Option Str) :
    (σ.setLeft p x).rest = update σ.rest p (x.getD []) := by
  funext q
  change (update σ.left p x q).getD [] = _
  by_cases hq : q = p
  · rw [hq, update_self, update_self]
  · rw [update_of_ne hq, update_of_ne hq]
    rfl

/-- What a process does in one step. -/
structure Does (f : FileId) (σ τ : Sharing Pid) (a : ShareAct Pid) (l : Option (Section Pid)) :
    Prop where
  written : Written σ.fs τ.fs f (l.toList.map Section.bytes).flatten
  pieces : ∀ p, l.toList.filterMap (Section.writtenBy p) ++ pieces (τ.rest p) =
    pieces (σ.rest p) ++ (a.askedBy p).toList.flatMap pieces
  room : ∀ n, Room f σ (n + (a.asked.getD []).length) → Room f τ n
  short : ∀ q ∈ l.toList.filterMap Section.written, q.length ≤ filewriteMax
  read : ∀ p q, l = some (.read p q) → ∃ k, q =
    ((σ.fs.contents f).drop (σ.fs.file f).off.toNat).take k

omit [DecidableEq Pid] in
/-- Room for the rest of one process. -/
theorem Room.fits (hroom : Room f σ n) (h : Good f σ) (p : Pid) {m : ℕ}
    (hm : m ≤ (σ.rest p).length) : Fits σ.fs f m := by
  have hp := hroom {p}
  rw [Finset.sum_singleton] at hp
  refine ⟨h.off, ?_⟩
  have := h.off
  omega

/-- One more string is to be written. -/
theorem Room.write {src : Str} (hroom : Room f σ (n + src.length)) :
    Room f (σ.setLeft p (some src)) n := by
  intro F
  have hle : ∑ q ∈ F, ((σ.setLeft p (some src)).rest q).length ≤
      ∑ q ∈ F, (σ.rest q).length + src.length := by
    calc ∑ q ∈ F, ((σ.setLeft p (some src)).rest q).length
        ≤ ∑ q ∈ F, ((σ.rest q).length + if q = p then src.length else 0) := by
          refine Finset.sum_le_sum fun q _ => ?_
          rw [rest_setLeft]
          by_cases hq : q = p
          · rw [hq, update_self, if_pos rfl]
            exact Nat.le_add_left ..
          · rw [update_of_ne hq]
            exact Nat.le_add_right ..
      _ ≤ ∑ q ∈ F, (σ.rest q).length + src.length := by
          rw [Finset.sum_add_distrib, Finset.sum_ite_eq']
          refine Nat.add_le_add_left ?_ _
          split
          · exact le_rfl
          · exact Nat.zero_le _
  have := hroom F
  change (σ.fs.contents f).length + _ + n ≤ _
  omega

/-- A piece has been written. -/
theorem Room.piece {r : Str} (hroom : Room f σ n) (h : Good f σ) (hrest : σ.rest p = q ++ r)
    (hs : Written σ.fs s f q) :
    Room f (setLeft { σ with fs := s } p (some r)) n := by
  intro F
  have hsum : ∑ u ∈ insert p F, (σ.rest u).length =
      ∑ u ∈ insert p F, ((setLeft { σ with fs := s } p (some r)).rest u).length + q.length := by
    have hone : ∀ u ∈ insert p F, (σ.rest u).length =
        ((setLeft { σ with fs := s } p (some r)).rest u).length +
          if u = p then q.length else 0 := by
      intro u _
      rw [rest_setLeft]
      by_cases hu : u = p
      · rw [hu, update_self, if_pos rfl, hrest, length_append, Nat.add_comm]
        rfl
      · rw [update_of_ne hu, if_neg hu]
        rfl
    rw [Finset.sum_congr rfl hone, Finset.sum_add_distrib, Finset.sum_ite_eq',
      if_pos (Finset.mem_insert_self ..)]
  have hmono : ∑ u ∈ F, ((setLeft { σ with fs := s } p (some r)).rest u).length ≤
      ∑ u ∈ insert p F, ((setLeft { σ with fs := s } p (some r)).rest u).length :=
    Finset.sum_le_sum_of_subset (Finset.subset_insert ..)
  have hsize : (s.contents f).length ≤ (σ.fs.contents f).length + q.length := by
    rw [hs.contents, length_splice h.off]
    have := h.off
    omega
  have := hroom (insert p F)
  change (s.contents f).length + _ + n ≤ _
  omega

/-- A process that has nothing to do with a change of what is left. -/
theorem rest_setLeft_of_ne {q : Pid} (hq : q ≠ p) (x : Option Str) :
    (σ.setLeft p x).rest q = σ.rest q := by
  rw [rest_setLeft, update_of_ne hq]

theorem rest_setLeft_self (p : Pid) (x : Option Str) : (σ.setLeft p x).rest p = x.getD [] := by
  rw [rest_setLeft, update_self]

/-- `filewrite` is called. -/
theorem does_write (h : Good f σ) (hidle : σ.left p = none) (src : Str) :
    Does f σ (σ.setLeft p (some src)) (.write p src) none := by
  refine ⟨h.ready.written_refl, fun q => ?_, fun n hn => hn.write, fun q hq => ?_,
    fun p q hpq => ?_⟩
  · by_cases hq : q = p
    · have hp : σ.rest p = [] := by rw [rest, hidle]; rfl
      rw [hq, rest_setLeft_self, hp, pieces_nil, ShareAct.askedBy, if_pos rfl]
      exact (append_nil _).symm
    · rw [rest_setLeft_of_ne hq, ShareAct.askedBy, if_neg (Ne.symm hq)]
      exact (append_nil _).symm
  · cases hq
  · cases hpq

/-- `filewrite` returns. -/
theorem does_done (h : Good f σ) (hp : σ.left p = some []) :
    Does f σ (σ.setLeft p none) (.done p) none := by
  have hrest : (σ.setLeft p none).rest = σ.rest := by
    rw [rest_setLeft]
    exact update_eq_self_iff.mpr (by rw [rest, hp]; rfl)
  refine ⟨h.ready.written_refl, fun q => ?_, fun n hn F => ?_, fun q hq => ?_, fun p q hpq => ?_⟩
  · rw [hrest]
    exact (append_nil _).symm
  · rw [hrest]
    exact hn F
  · cases hq
  · cases hpq

/-- A piece is written. -/
theorem does_piece {src : Str} (h : Good f σ) (hp : σ.left p = some src) (hne : src ≠ [])
    (hs : Written σ.fs s f (src.take filewriteMax)) :
    Does f σ (setLeft { σ with fs := s } p (some (src.drop filewriteMax))) (.piece p)
      (some (.wrote p (src.take filewriteMax))) := by
  have hrest : σ.rest p = src := by rw [rest, hp]; rfl
  refine ⟨?_, fun q => ?_, fun n hn => ?_, fun q hq => ?_, fun p q hpq => ?_⟩
  · change Written σ.fs s f (src.take filewriteMax ++ [])
    rwa [append_nil]
  · by_cases hq : q = p
    · rw [hq, rest_setLeft_self, hrest, pieces_of_ne_nil hne]
      simp [Section.writtenBy, ShareAct.askedBy]
    · rw [rest_setLeft_of_ne hq]
      simp [Section.writtenBy, ShareAct.askedBy, Ne.symm hq]
      rfl
  · exact Room.piece hn h (by rw [hrest, take_append_drop]) hs
  · obtain rfl := mem_singleton.mp hq
    exact length_take_le ..
  · cases hpq

/-- `fileread` is called. -/
theorem does_read {m : UInt32} (hs : Written σ.fs s f q)
    (hq : ∃ k, q = ((σ.fs.contents f).drop (σ.fs.file f).off.toNat).take k) :
    Does f σ { σ with fs := s } (.read p m) (some (.read p q)) := by
  refine ⟨?_, fun q => ?_, fun n hn F => ?_, fun q hq => ?_, fun p q hpq => ?_⟩
  · change Written σ.fs s f (q ++ [])
    rwa [append_nil]
  · exact (append_nil _).symm
  · obtain ⟨k, hk⟩ := hq
    have hc : s.contents f = σ.fs.contents f := by rw [hs.contents, hk, splice_self]
    rw [hc]
    exact hn F
  · cases hq
  · cases hpq
    exact hq

/-- **One step of a process.** It does not panic, and if there is room it does not
fail. -/
theorem act_spec (h : Good f σ) (a : ShareAct Pid) : act f σ a = .disabled ∨
    ∃ l τ, act f σ a = .ok (l, τ) ∧ ∀ n, Room f σ n → Does f σ τ a l := by
  cases a with
  | write p src =>
    rw [act]
    split
    · rename_i hidle
      exact .inr ⟨_, _, rfl, fun _ _ => does_write h hidle.1 src⟩
    · exact .inl rfl
  | piece p =>
    rw [act]
    split
    · exact .inl rfl
    rename_i src hp
    split
    · exact .inl rfl
    rename_i hne
    have hlen : (src.take filewriteMax).length < 2 ^ 32 :=
      lt_of_le_of_lt (length_take_le ..) (by decide)
    refine .inr ?_
    have hpiece := h.ready.exec_writePiece rfl p (src.take filewriteMax)
    by_cases hfits : Fits σ.fs f (src.take filewriteMax).length
    · obtain ⟨s, hwrite, hs⟩ := h.ready.write_some hlen hfits
      rw [hwrite] at hpiece
      rw [Prog.exec_bind_ok hpiece, afterPiece, panicIf,
        if_neg (not_not_intro (UInt32.toNat_ofNat_of_lt' hlen))]
      exact ⟨_, _, rfl, fun _ _ => does_piece h hp hne hs⟩
    · rw [State.write_none hlen hfits] at hpiece
      rw [Prog.exec_bind_ok hpiece]
      refine ⟨_, _, rfl, fun n hroom => absurd (hroom.fits h p ?_) hfits⟩
      rw [rest, hp]
      exact length_take_le' ..
  | done p =>
    rw [act]
    split
    · rename_i hp
      exact .inr ⟨_, _, rfl, fun _ _ => does_done h hp⟩
    · exact .inl rfl
  | read p m =>
    rw [act]
    split
    · refine .inr ?_
      by_cases hr : (σ.fs.file f).readable = true
      · rw [h.ready.exec_fileread hr]
        exact ⟨_, _, rfl, fun _ _ =>
          does_read (h.ready.written_fetch h.off) (σ.fs.fetch_fst f m)⟩
      · have hexec : (fileread p f m).exec handle σ.fs = .ok (none, σ.fs) := by
          unfold fileread
          rw [exec_op (o := .file f) rfl, if_pos ((Bool.not_eq_true _).mp hr)]
          rfl
        rw [hexec]
        exact ⟨_, _, rfl, fun _ _ => does_read h.ready.written_refl ⟨0, rfl⟩⟩
    · exact .inl rfl

/-! ### All sections -/

/-- What happens in a run. -/
structure Ran (f : FileId) (σ τ : Sharing Pid) (as : List (ShareAct Pid))
    (ls : List (Section Pid)) : Prop where
  written : Written σ.fs τ.fs f (ls.map Section.bytes).flatten
  pieces : ∀ p, ls.filterMap (Section.writtenBy p) ++ pieces (τ.rest p) =
    pieces (σ.rest p) ++ (as.filterMap (ShareAct.askedBy p)).flatMap pieces
  short : ∀ q ∈ ls.filterMap Section.written, q.length ≤ filewriteMax
  /-- At the end of the file there is nothing to be read. -/
  unread : (σ.fs.file f).off.toNat = (σ.fs.contents f).length → ∀ p q, .read p q ∈ ls → q = []

/-- The number of bytes that are to be written. -/
def asked (as : List (ShareAct Pid)) : ℕ := ((as.filterMap ShareAct.asked).map List.length).sum

omit [DecidableEq Pid] in
theorem asked_cons (a : ShareAct Pid) (as : List (ShareAct Pid)) :
    asked (a :: as) = asked as + (a.asked.getD []).length := by
  rw [asked, asked]
  cases h : a.asked with
  | none => rw [filterMap_cons_none h]; rfl
  | some src => rw [filterMap_cons_some h, map_cons, sum_cons, Nat.add_comm]; rfl

/-- At the end of the file there is nothing to be read, and what is written is
appended. -/
theorem Does.unread (hd : Does f σ τ a l)
    (hend : (σ.fs.file f).off.toNat = (σ.fs.contents f).length) :
    (τ.fs.file f).off.toNat = (τ.fs.contents f).length ∧ ∀ p q, l = some (.read p q) → q = [] := by
  refine ⟨?_, fun p q hl => ?_⟩
  · rw [hd.written.off, hd.written.contents, length_splice hend.le, hend]
    exact (max_eq_right (Nat.le_add_right ..)).symm
  · obtain ⟨k, hk⟩ := hd.read p q hl
    rw [hk, hend, drop_length, take_nil]

theorem Does.ran (hd : Does f σ τ a l) (h : Good f σ) {υ : Sharing Pid} {ls : List (Section Pid)}
    (hr : Ran f τ υ as ls) : Ran f σ υ (a :: as) (l.toList ++ ls) := by
  refine ⟨?_, fun p => ?_, fun q hq => ?_, fun hend p q hpq => ?_⟩
  · rw [map_append, flatten_append]
    exact hd.written.trans hr.written h.off
  · have hcons : (a :: as).filterMap (ShareAct.askedBy p) =
        (a.askedBy p).toList ++ as.filterMap (ShareAct.askedBy p) := by
      cases ha : a.askedBy p with
      | none => exact filterMap_cons_none ha
      | some src => exact filterMap_cons_some ha
    rw [filterMap_append, append_assoc, hr.pieces p, ← append_assoc, hd.pieces p,
      hcons, flatMap_append, append_assoc]
  · rw [filterMap_append, mem_append] at hq
    exact hq.elim (hd.short q) (hr.short q)
  · obtain ⟨hend', hread⟩ := hd.unread hend
    rcases mem_append.mp hpq with hl | hls
    · exact hread p q (Option.mem_toList.mp hl)
    · exact hr.unread hend' p q hls

/-- **A run of the processes.** -/
theorem run_ran : ∀ {σ τ : Sharing Pid}, Good f σ →
    Room f σ (asked as) → run (step f) σ as = some τ →
    Good f τ ∧ Ran f σ τ as (sections f σ as) := by
  induction as with
  | nil =>
    intro σ τ h _ hrun
    obtain rfl := Option.some.inj hrun
    refine ⟨h, h.ready.written_refl, fun p => ?_, fun q hq => ?_, fun _ p q hpq => ?_⟩
    · exact (append_nil _).symm
    · cases hq
    · cases hpq
  | cons a as ih =>
    intro σ τ h hroom hrun
    obtain ⟨υ, hstep, hrest⟩ := run_cons.mp hrun
    rw [asked_cons] at hroom
    rcases act_spec h a with hdis | ⟨l, υ', hact, hdoes⟩
    · rw [step, hdis] at hstep
      cases hstep
    · have hυ : υ' = υ := by
        rw [step, hact] at hstep
        exact Option.some.inj hstep
      subst hυ
      have hd := hdoes _ hroom
      obtain ⟨hgood, hran⟩ := ih (h.of_written hd.written) (hd.room _ hroom) hrest
      refine ⟨hgood, ?_⟩
      have hsec : sections f σ (a :: as) = l.toList ++ sections f υ' as := by
        rw [sections, labels_cons hstep, hact]
        rfl
      rw [hsec]
      exact hd.ran h hran

omit [DecidableEq Pid] in
/-- If nothing has been read, what the sections have is what has been written. -/
theorem flatten_bytes {ls : List (Section Pid)} (h : ∀ p q, .read p q ∈ ls → q = []) :
    (ls.map Section.bytes).flatten = (ls.filterMap Section.written).flatten := by
  induction ls with
  | nil => rfl
  | cons l ls ih =>
    have hls := ih fun p q hpq => h p q (mem_cons_of_mem _ hpq)
    cases l with
    | wrote p q =>
      rw [map_cons, flatten_cons, hls]
      rfl
    | read p q =>
      rw [map_cons, flatten_cons, hls]
      exact congrArg (· ++ _) (h p q mem_cons_self)

/-- **A shared offset.** In every run of processes that read and write an open file, each
locked section has the bytes that follow those of the section before. If the offset is at
the end of the file to begin with, the file is in the end what it was, followed by the
pieces in the order in which they were written; the pieces a process has written, with
those it has still to write, are those of the strings it has been given. -/
theorem shared_offset (h : Ready σ.fs f) (hw : (σ.fs.file f).writable = true)
    (hidle : ∀ p, σ.left p = none) (hoff : (σ.fs.file f).off.toNat ≤ (σ.fs.contents f).length)
    (htotal : (σ.fs.contents f).length + asked as ≤ MAXFILE * BSIZE)
    (hrun : run (step f) σ as = some τ) :
    (τ.fs.contents f = splice (σ.fs.contents f) (σ.fs.file f).off.toNat
        ((sections f σ as).map Section.bytes).flatten ∧
      (τ.fs.file f).off.toNat = (σ.fs.file f).off.toNat +
        ((sections f σ as).map Section.bytes).flatten.length) ∧
    ((σ.fs.file f).off.toNat = (σ.fs.contents f).length →
      τ.fs.contents f =
        σ.fs.contents f ++ ((sections f σ as).filterMap Section.written).flatten ∧
      (τ.fs.file f).off.toNat = (τ.fs.contents f).length) ∧
    (∀ q ∈ (sections f σ as).filterMap Section.written, q.length ≤ filewriteMax) ∧
    (∀ p, (sections f σ as).filterMap (Section.writtenBy p) ++ pieces (τ.rest p) =
      (as.filterMap (ShareAct.askedBy p)).flatMap pieces) ∧
    ∀ a msg, act f τ a ≠ .panic msg := by
  have hrest : ∀ p, σ.rest p = [] := fun p => by rw [rest, hidle]; rfl
  have hroom : Room f σ (asked as) := by
    intro F
    rwa [Finset.sum_eq_zero fun p _ => by rw [hrest]; rfl]
  obtain ⟨hgood, hran⟩ := run_ran ⟨h, hw, hoff⟩ hroom hrun
  refine ⟨⟨hran.written.contents, hran.written.off⟩, fun hend => ?_, hran.short, fun p => ?_,
    fun a msg hact => ?_⟩
  · have hc := hran.written.contents
    have ho := hran.written.off
    rw [flatten_bytes (hran.unread hend)] at hc ho
    have happ : τ.fs.contents f =
        σ.fs.contents f ++ ((sections f σ as).filterMap Section.written).flatten := by
      rw [hc, hend, splice, take_length, drop_eq_nil_of_le (Nat.le_add_right ..),
        append_nil]
    refine ⟨happ, ?_⟩
    rw [happ, ho, hend, length_append]
  · rw [hran.pieces p, hrest, pieces_nil, nil_append]
  · rcases act_spec hgood a with hdis | ⟨l, υ, hok, -⟩
    · rw [hdis] at hact
      cases hact
    · rw [hok] at hact
      cases hact

/-- Two processes with an empty file. -/
def twoWriters : Sharing ℕ := ⟨fileAtEnd 0, fun _ => none⟩

/-- Each of them writes a string of two pieces. -/
def twoWrites : List (ShareAct ℕ) :=
  [.write 0 (replicate 2000 1), .write 1 (replicate 1600 3), .piece 1, .read 2 5, .piece 0, .piece 1,
    .piece 0, .done 0, .done 1]

theorem shared_offset_two : ∃ τ, run (step 0) twoWriters twoWrites = some τ ∧
    τ.fs.contents 0 =
      replicate 1536 3 ++ (replicate 1536 1 ++ (replicate 64 3 ++ replicate 464 1)) ∧
    (sections 0 twoWriters twoWrites).filterMap (Section.writtenBy 0) ++ pieces (τ.rest 0) =
      pieces (replicate 2000 1) ∧ (τ.fs.file 0).off.toNat = 3600 := by
  have hsome : (run (step 0) twoWriters twoWrites).isSome = true := by decide +kernel
  obtain ⟨τ, hτ⟩ := Option.isSome_iff_exists.mp hsome
  have hend : ((twoWriters.fs.file 0).off.toNat = (twoWriters.fs.contents 0).length) := by
    decide +kernel
  have hsec : (sections 0 twoWriters twoWrites).filterMap Section.written =
      [replicate 1536 3, replicate 1536 1, replicate 64 3, replicate 464 1] := by decide +kernel
  obtain ⟨-, happ, -, hpieces, -⟩ := shared_offset (ready_fileAtEnd 0) rfl (fun _ => rfl) hend.le
    (by decide +kernel) hτ
  obtain ⟨hcontents, hoff⟩ := happ hend
  have hnil : twoWriters.fs.contents 0 = [] := rfl
  rw [hsec, hnil, nil_append, flatten_cons, flatten_cons, flatten_cons, flatten_singleton] at hcontents
  refine ⟨τ, hτ, hcontents, ?_, ?_⟩
  · rw [hpieces 0]
    exact flatMap_singleton ..
  · rw [hoff, hcontents]
    simp only [length_append, length_replicate]

end Sharing

end Xv6.Fs
