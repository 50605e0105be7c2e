import Mathlib.Data.List.Induction
import Xv6.Param
import Xv6.Sh.Print

/-!
# Redirections when a command is run

The case of `runcmd` for a redirection closes the descriptor, opens the file, which gets the lowest
descriptor that is free, and goes on with the command inside. The last redirection of the
source text is the outermost one, since `parseredirs` puts each of them round the command so far. So
**the files are opened from right to left**, and a descriptor is attached to the file of the first
redirection for it (`Xv6.Sh.runcmd_wrap`). The order is that of the source text just if the names of
the files and the modes are the same when they are read backwards (`Xv6.Sh.redirections_iff`).
-/

namespace Xv6.Sh

open Lib Function List

variable {W N : Type}

/-! ### The case of `runcmd` -/

/-- What a descriptor is attached to: nothing, something from before, or a file that has been
opened. -/
inductive Desc (W : Type) where
  | closed
  | other
  | file (w : W)
  deriving DecidableEq

/-- A process in `runcmd`: the command, its descriptors, and the files that it has opened so
far, with the modes. -/
structure Proc (W : Type) where
  cmd : Cmd W
  ofile : ℕ → Desc W
  opened : List (W × ℕ)

/-- The same with the names of the files. -/
def Desc.map (f : W → N) : Desc W → Desc N
  | .closed => .closed
  | .other => .other
  | .file w => .file (f w)

def Desc.isClosed : Desc W → Bool
  | .closed => true
  | _ => false

/-- The lowest descriptor that is free. -/
def fdalloc (ofile : ℕ → Desc W) : Option ℕ :=
  (List.range NOFILE).find? fun fd => (ofile fd).isClosed

/-- **`runcmd`**, the case of a redirection. -/
def Proc.redir (p : Proc W) : Option (Proc W) :=
  match p.cmd with
  | .redir cmd file mode fd =>
    let ofile := update p.ofile fd .closed
    (fdalloc ofile).map fun fd =>
      ⟨cmd, update ofile fd (.file file), p.opened ++ [(file, mode)]⟩
  | _ => none

/-- A number of redirections. -/
def runcmd : ℕ → Proc W → Option (Proc W)
  | 0, p => some p
  | k + 1, p => p.redir.bind (runcmd k)

/-- Descriptors 0, 1 and 2 are open. -/
def Std (ofile : ℕ → Desc W) : Prop := ∀ fd < 3, (ofile fd).isClosed = false

/-! ### The order of the redirections -/

/-- A redirection has been made. -/
def attach (r : Redir W) (ofile : ℕ → Desc W) : ℕ → Desc W :=
  update ofile r.dir.fd (.file r.file)

/-- What is opened for a redirection, with the name of the file. -/
def Redir.key (f : W → N) (r : Redir W) : N × ℕ := (f r.file, r.dir.mode)

variable {f : W → N} {ofile : ℕ → Desc W} {r : Redir W} {rs : List (Redir W)} {c₀ : Cmd W}
  {opened : List (W × ℕ)}

theorem Direction.fd_lt (d : Direction) : d.fd < 2 := by
  cases d <;> decide

theorem Std.attach (h : Std ofile) : Std (attach r ofile) := by
  intro fd hfd
  by_cases hc : fd = r.dir.fd
  · rw [Sh.attach, hc, update_self]
    rfl
  · rw [Sh.attach, update_of_ne hc]
    exact h fd hfd

/-- The descriptor that has been closed is the lowest one that is free. -/
theorem fdalloc_close (h : Std ofile) (d : Direction) :
    fdalloc (update ofile d.fd .closed) = some d.fd := by
  have hclosed : (update ofile d.fd .closed d.fd).isClosed = true := by
    rw [update_self]
    rfl
  refine find?_eq_some_iff_getElem.mpr ⟨hclosed, d.fd, ?_, ?_, fun j hj => ?_⟩
  · rw [length_range]
    exact d.fd_lt.trans (by decide)
  · rw [List.getElem_range]
  · rw [List.getElem_range, update_of_ne hj.ne, h j (hj.trans (d.fd_lt.trans (by decide)))]
    rfl

theorem redir_wrap (h : Std ofile) :
    Proc.redir ⟨.redir c₀ r.file r.dir.mode r.dir.fd, ofile, opened⟩ =
      some ⟨c₀, attach r ofile, opened ++ [r.key id]⟩ := by
  simp only [Proc.redir, fdalloc_close h, Option.map_some, update_idem]
  rfl

/-- **The redirections are made from right to left.** -/
theorem runcmd_wrap (h : Std ofile) :
    runcmd rs.length ⟨wrap c₀ rs, ofile, opened⟩ =
      some ⟨c₀, rs.foldr attach ofile, opened ++ (rs.map (Redir.key id)).reverse⟩ := by
  induction rs using List.reverseRecOn generalizing ofile opened with
  | nil => rw [map_nil, reverse_nil, append_nil]; rfl
  | append_singleton rs r ih =>
    rw [length_append, wrap_append, foldr_append, map_append, reverse_append]
    change (Proc.redir ⟨.redir (wrap c₀ rs) r.file r.dir.mode r.dir.fd, ofile, opened⟩).bind
      (runcmd rs.length) = _
    rw [redir_wrap h, Option.bind_some, ih h.attach, append_assoc]
    rfl

/-- A descriptor is attached to the file of the first redirection for it. -/
theorem foldr_attach (rs : List (Redir W)) (fd : ℕ) :
    rs.foldr attach ofile fd =
      ((rs.find? fun r => r.dir.fd = fd).map fun r => Desc.file r.file).getD (ofile fd) := by
  induction rs with
  | nil => rfl
  | cons r rs ih =>
    rw [foldr_cons, attach]
    by_cases hc : fd = r.dir.fd
    · rw [hc, update_self, find?_cons_of_pos (by simp)]
      rfl
    · rw [update_of_ne hc, ih, find?_cons_of_neg (by simpa using Ne.symm hc)]

/-- The redirections `rs` have been made in the order of the source text: the files have been opened
in it, and descriptors 0 and 1 are attached to the file of the last redirection for them. Files are
told apart by their names. -/
structure LeftToRight (f : W → N) (ofile : ℕ → Desc W) (rs : List (Redir W)) (p : Proc W) :
    Prop where
  opened : p.opened.map (Prod.map f id) = rs.map (Redir.key f)
  attached : ∀ fd < 2, (p.ofile fd).map f = ((rs.reverse.find? fun r => r.dir.fd = fd).map
    fun r => Desc.file (f r.file)).getD ((ofile fd).map f)

/-- The redirections are the same when they are read backwards. -/
def Palindrome (f : W → N) (rs : List (Redir W)) : Prop :=
  (rs.map (Redir.key f)).reverse = rs.map (Redir.key f)

instance [DecidableEq N] (f : W → N) (rs : List (Redir W)) : Decidable (Palindrome f rs) :=
  inferInstanceAs (Decidable (_ = _))

/-- The first and the last redirection for a descriptor. -/
theorem Palindrome.find_eq (h : Palindrome f rs) (fd : ℕ) :
    (rs.find? fun r => r.dir.fd = fd).map (Redir.key f) =
      (rs.reverse.find? fun r => r.dir.fd = fd).map (Redir.key f) := by
  have hkey : (fun r : Redir W => decide (r.dir.fd = fd)) =
      (fun k : N × ℕ => decide ((Direction.ofMode k.2).fd = fd)) ∘ Redir.key f := by
    funext r
    rw [Function.comp, Redir.key, r.dir.ofMode_mode.2]
  rw [hkey, ← find?_map, ← find?_map, map_reverse, h]

theorem leftToRight_iff (f : W → N) (ofile : ℕ → Desc W) (rs : List (Redir W)) (c₀ : Cmd W) :
    LeftToRight f ofile rs ⟨c₀, rs.foldr attach ofile, (rs.map (Redir.key id)).reverse⟩ ↔
      Palindrome f rs := by
  have hopened : (rs.map (Redir.key id)).reverse.map (Prod.map f id) =
      (rs.map (Redir.key f)).reverse := by
    rw [map_reverse, map_map]
    rfl
  refine ⟨fun h => hopened.symm.trans h.opened, fun h => ⟨hopened.trans h, fun fd _ => ?_⟩⟩
  have hfile := congrArg (Option.map fun k : N × ℕ => Desc.file k.1) (h.find_eq fd)
  rw [Option.map_map, Option.map_map] at hfile
  change (rs.foldr attach ofile fd).map f = _
  rw [foldr_attach]
  refine Eq.trans ?_ (congrArg (Option.getD · ((ofile fd).map f)) hfile)
  cases rs.find? fun r => r.dir.fd = fd with
  | none => rfl
  | some r => rfl

/-! ### Commands with redirections -/

/-- The redirections of a command, in the order of the source text. -/
def Exec.redirs : Exec W → List (Redir W)
  | .block _ rs => rs
  | .simple rs args => rs ++ args.flatMap Prod.snd

/-- The command without them. -/
def Exec.base : Exec W → Cmd W
  | .block l _ => l.cmd
  | .simple _ args => .exec (args.map Prod.fst)

theorem Exec.cmd_eq (e : Exec W) : e.cmd = wrap e.base e.redirs := by
  cases e with
  | block l rs => rw [Exec.cmd]; rfl
  | simple rs args => rw [Exec.cmd]; rfl

/-- **When the redirections are made from left to right**: the command is one of the grammar, and for
such a command the names of the files with the modes are the same when they are read backwards. -/
theorem redirections_iff {s s' : CStr} {n : ℕ} {c : Cmd Slice} {ofile : ℕ → Desc Slice}
    (hn : 4 * s.chars.length + 4 ≤ n) (hc : parseexec n s = .ok (c, s')) (hstd : Std ofile) :
    (∃ e : Exec Slice, tokens s = e.tokens ++ tokens s' ∧ c = e.cmd) ∧
    ∀ e : Exec Slice, c = e.cmd → ∃ p, runcmd e.redirs.length ⟨c, ofile, []⟩ = some p ∧
      p.cmd = e.base ∧
        (LeftToRight Slice.text ofile e.redirs p ↔ Palindrome Slice.text e.redirs) := by
  have hspec := (spec id n).2.2.1 s (by have := length_view id s hn; omega)
  rw [hc] at hspec
  obtain ⟨e, -, hcmd, htok⟩ := hspec
  rw [Cmd.map_id] at hcmd
  rw [view_id, view_id] at htok
  refine ⟨⟨e, htok, hcmd⟩, fun e hcmd => ?_⟩
  have hrun : runcmd e.redirs.length ⟨wrap e.base e.redirs, ofile, []⟩ = _ := runcmd_wrap hstd
  rw [← Exec.cmd_eq, ← hcmd] at hrun
  exact ⟨_, hrun, rfl, leftToRight_iff Slice.text ofile e.redirs e.base⟩

/-- The line `x>a>b` -/
def twiceLine : CStr := ⟨['x', '>', 'a', '>', 'b'].map Char.toUInt8, by decide⟩

/-- The line `x>a>a` -/
def sameLine : CStr := ⟨['x', '>', 'a', '>', 'a'].map Char.toUInt8, by decide⟩

/-- A word of one byte. -/
def wordAt (s : CStr) (k : ℕ) : Slice := ⟨CStr.tail^[k] s, CStr.tail^[k + 1] s⟩

/-- The command of such a line. -/
def twiceExec (s : CStr) : Exec Slice :=
  .simple [] [(wordAt s 0, [⟨.gt, wordAt s 2⟩, ⟨.gt, wordAt s 4⟩])]

/-- The redirections of `x>a>a` are made from left to right, and those of `x>a>b` are not. -/
theorem redirections_lines :
    (∃ c s' p, parseexec 30 sameLine = .ok (c, s') ∧
      runcmd 2 ⟨c, fun _ => .other, []⟩ = some p ∧
      LeftToRight Slice.text (fun _ => .other) (twiceExec sameLine).redirs p) ∧
    ∃ c s' p, parseexec 30 twiceLine = .ok (c, s') ∧
      runcmd 2 ⟨c, fun _ => .other, []⟩ = some p ∧
      ¬LeftToRight Slice.text (fun _ => .other) (twiceExec twiceLine).redirs p := by
  have hstd : Std (fun _ => .other : ℕ → Desc Slice) := fun _ _ => rfl
  constructor
  · have hok : (parseexec 30 sameLine).toOption.map Prod.fst = some (twiceExec sameLine).cmd := by
      decide +kernel
    obtain ⟨⟨c, s'⟩, hc, hcmd⟩ := Option.map_eq_some_iff.mp hok
    have hc := eq_ok_of_toOption hc
    obtain ⟨p, hp, -, hiff⟩ := (redirections_iff (by decide) hc hstd).2 _ hcmd
    exact ⟨c, s', p, hc, hp, hiff.mpr (by decide +kernel)⟩
  · have hok : (parseexec 30 twiceLine).toOption.map Prod.fst = some (twiceExec twiceLine).cmd := by
      decide +kernel
    obtain ⟨⟨c, s'⟩, hc, hcmd⟩ := Option.map_eq_some_iff.mp hok
    have hc := eq_ok_of_toOption hc
    obtain ⟨p, hp, -, hiff⟩ := (redirections_iff (by decide) hc hstd).2 _ hcmd
    exact ⟨c, s', p, hc, hp, mt hiff.mp (by decide +kernel)⟩

/-- The bytes of the name of a file. -/
def Desc.text : Desc Slice → List UInt8
  | .file w => w.text
  | _ => []

/-- The file `b` is opened first, and descriptor 1 is attached to `a` in the end. -/
theorem redirections_reversed :
    ((parseexec 30 twiceLine).toOption.bind fun x =>
        (runcmd 2 ⟨x.1, fun _ => .other, []⟩).map fun p =>
          (p.opened.map fun k => k.1.text, (p.ofile 1).text, p.cmd.words.map Slice.text)) =
      some ([['b'.toUInt8], ['a'.toUInt8]], ['a'.toUInt8], [['x'.toUInt8]]) := by
  decide +kernel

end Xv6.Sh
