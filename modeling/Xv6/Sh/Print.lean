import Xv6.Sh.Accept

/-!
# Commands as lines

A command can be written as a line again. Its words and symbols are separated by
blanks, and a part is put in parentheses where the grammar has no other place for it: a
list in a pipeline, a pipeline on the left of another one, and so on. For each command there are
four parts of a line that stand for it, from a whole line to a single command (`Forms`).

The parser **reads the command back** (`Xv6.Sh.parsecmd_print`). Together with what the parser
accepts this is `Xv6.Sh.parser_accepts`.
-/

namespace Xv6.Sh

open Lib List

variable {W V : Type} {w : W}

/-! ### Words -/

/-- The words of a command. -/
def Cmd.words : Cmd W → List W
  | .exec argv => argv
  | .redir cmd file _ _ => cmd.words ++ [file]
  | .pipe left right => left.words ++ right.words
  | .list left right => left.words ++ right.words
  | .back cmd => cmd.words

theorem Cmd.words_map (f : W → V) : ∀ c : Cmd W, (c.map f).words = c.words.map f
  | .exec argv => rfl
  | .redir cmd file _ _ => by
    rw [Cmd.map, Cmd.words, Cmd.words, cmd.words_map f, map_append]
    rfl
  | .pipe left right => by
    rw [Cmd.map, Cmd.words, Cmd.words, left.words_map f, right.words_map f, map_append]
  | .list left right => by
    rw [Cmd.map, Cmd.words, Cmd.words, left.words_map f, right.words_map f, map_append]
  | .back cmd => cmd.words_map f

theorem words_wrap (c : Cmd W) (rs : List (Redir W)) :
    (wrap c rs).words = c.words ++ rs.map Redir.file := by
  induction rs generalizing c with
  | nil => exact (append_nil _).symm
  | cons r rs ih =>
    rw [wrap, ih, Cmd.words, map_cons, append_assoc]
    rfl

theorem words_backs (c : Cmd W) (k : ℕ) : (Cmd.back^[k] c).words = c.words := by
  induction k with
  | zero => rfl
  | succ k ih => rw [Function.iterate_succ_apply', Cmd.words, ih]

/-- A symbol is not a word. -/
theorem word_mem_cons {t : Token W} {ts : List (Token W)} {c : UInt8} (ht : t.symbol = some c) :
    .word w ∈ t :: ts ↔ .word w ∈ ts := by
  refine mem_cons.trans (or_iff_right ?_)
  rintro rfl
  cases ht

theorem mem_redirTokens {rs : List (Redir W)} :
    .word w ∈ redirTokens rs ↔ w ∈ rs.map Redir.file := by
  induction rs with
  | nil => exact iff_of_false not_mem_nil not_mem_nil
  | cons r rs ih =>
    obtain ⟨c, hc⟩ : ∃ c, (r.dir.token : Token W).symbol = some c := by
      cases r.dir <;> exact ⟨_, rfl⟩
    rw [redirTokens, word_mem_cons hc, mem_cons, map_cons, mem_cons, ih,
      Token.word.injEq]

theorem mem_argTokens {args : List (W × List (Redir W))} :
    .word w ∈ argTokens args ↔
      w ∈ args.map Prod.fst ∨ w ∈ (args.flatMap Prod.snd).map Redir.file := by
  induction args with
  | nil => exact (or_self_iff.trans (iff_of_false not_mem_nil not_mem_nil)).symm
  | cons x args ih =>
    rw [argTokens, mem_cons, mem_append, mem_redirTokens, ih, map_cons,
      mem_cons, flatMap_cons, map_append, mem_append, Token.word.injEq]
    tauto

theorem mem_amps {k : ℕ} {ts : List (Token W)} :
    .word w ∈ List.replicate k .amp ++ ts ↔ .word w ∈ ts := by
  refine mem_append.trans (or_iff_right fun h => ?_)
  cases eq_of_mem_replicate h

mutual

/-- The words of a derivation are those of its command. -/
theorem Line.mem_tokens : ∀ {l : Line W}, .word w ∈ l.tokens ↔ w ∈ l.cmd.words
  | .last p k => by
    rw [Line.tokens, Line.cmd, words_backs, mem_append, Pipe.mem_tokens,
      ← append_nil (List.replicate _ _), mem_amps]
    exact or_iff_left not_mem_nil
  | .semi p k l => by
    rw [Line.tokens, Line.cmd, Cmd.words, words_backs, mem_append, mem_amps, mem_append,
      word_mem_cons rfl, Pipe.mem_tokens, Line.mem_tokens]

theorem Pipe.mem_tokens : ∀ {p : Pipe W}, .word w ∈ p.tokens ↔ w ∈ p.cmd.words
  | .last e => Exec.mem_tokens
  | .bar e p => by
    rw [Pipe.tokens, Pipe.cmd, Cmd.words, mem_append, mem_append, word_mem_cons rfl,
      Exec.mem_tokens, Pipe.mem_tokens]

theorem Exec.mem_tokens : ∀ {e : Exec W}, .word w ∈ e.tokens ↔ w ∈ e.cmd.words
  | .block l rs => by
    rw [Exec.tokens, Exec.cmd, words_wrap, word_mem_cons rfl, mem_append, mem_append,
      word_mem_cons rfl, Line.mem_tokens, mem_redirTokens]
  | .simple rs args => by
    rw [Exec.tokens, Exec.cmd, words_wrap, Cmd.words, mem_append, mem_append,
      map_append, mem_append, mem_redirTokens, mem_argTokens]
    tauto

end

/-! ### Derivations for a command -/

/-- A command that the parser may return. -/
def Cmd.Ok : Cmd W → Prop
  | .exec argv => argv.length < maxargs
  | .redir cmd _ mode fd => cmd.Ok ∧ ∃ d : Direction, mode = d.mode ∧ fd = d.fd
  | .pipe left right => left.Ok ∧ right.Ok
  | .list left right => left.Ok ∧ right.Ok
  | .back cmd => cmd.Ok

theorem Cmd.ok_map (f : W → V) {c : Cmd W} (h : c.Ok) : (c.map f).Ok := by
  induction c with
  | exec argv => exact (length_map f).trans_lt h
  | redir cmd file mode fd ih => exact ⟨ih h.1, h.2⟩
  | pipe left right ihl ihr => exact ⟨ihl h.1, ihr h.2⟩
  | list left right ihl ihr => exact ⟨ihl h.1, ihr h.2⟩
  | back cmd ih => exact ih h

theorem ok_wrap {c : Cmd W} (h : c.Ok) (rs : List (Redir W)) : (wrap c rs).Ok := by
  induction rs generalizing c with
  | nil => exact h
  | cons r rs ih => exact ih ⟨h, r.dir, rfl, rfl⟩

theorem ok_backs {c : Cmd W} (h : c.Ok) (k : ℕ) : (Cmd.back^[k] c).Ok := by
  induction k with
  | zero => exact h
  | succ k ih =>
    rwa [Function.iterate_succ_apply']

mutual

theorem Line.cmd_ok : ∀ {l : Line W}, l.Ok → l.cmd.Ok
  | .last _ k, h => ok_backs (Pipe.cmd_ok h) k
  | .semi _ k _, h => ⟨ok_backs (Pipe.cmd_ok h.1) k, Line.cmd_ok h.2⟩

theorem Pipe.cmd_ok : ∀ {p : Pipe W}, p.Ok → p.cmd.Ok
  | .last _, h => Exec.cmd_ok h
  | .bar _ _, h => ⟨Exec.cmd_ok h.1, Pipe.cmd_ok h.2⟩

theorem Exec.cmd_ok : ∀ {e : Exec W}, e.Ok → e.cmd.Ok
  | .block _ rs, h => ok_wrap (Line.cmd_ok h) rs
  | .simple _ _, h => ok_wrap (c := .exec _) ((length_map Prod.fst).trans_lt h) _

end

/-- The ways to write a command: as a line, as a pipeline and a number of `&`, as a pipeline and
as a single command. -/
structure Forms (W : Type) where
  line : Line W
  back : Pipe W × ℕ
  pipe : Pipe W
  exec : Exec W

namespace Forms

def ofExec (e : Exec W) : Forms W := ⟨.last (.last e) 0, (.last e, 0), .last e, e⟩

def ofPipe (p : Pipe W) : Forms W := ⟨.last p 0, (p, 0), p, .block (.last p 0) []⟩

def ofBack (p : Pipe W) (k : ℕ) : Forms W :=
  ⟨.last p k, (p, k), .last (.block (.last p k) []), .block (.last p k) []⟩

def ofLine (l : Line W) : Forms W :=
  ⟨l, (.last (.block l []), 0), .last (.block l []), .block l []⟩

/-- They are right for a command. -/
structure For (F : Forms W) (c : Cmd W) : Prop where
  line : F.line.Ok ∧ F.line.cmd = c
  back : F.back.1.Ok ∧ Cmd.back^[F.back.2] F.back.1.cmd = c
  pipe : F.pipe.Ok ∧ F.pipe.cmd = c
  exec : F.exec.Ok ∧ F.exec.cmd = c

variable {e : Exec W} {p : Pipe W} {l : Line W}

theorem for_ofExec (h : e.Ok) : (ofExec e).For e.cmd := ⟨⟨h, rfl⟩, ⟨h, rfl⟩, ⟨h, rfl⟩, ⟨h, rfl⟩⟩

theorem for_ofPipe (h : p.Ok) : (ofPipe p).For p.cmd := ⟨⟨h, rfl⟩, ⟨h, rfl⟩, ⟨h, rfl⟩, ⟨h, rfl⟩⟩

theorem for_ofBack (h : p.Ok) (k : ℕ) : (ofBack p k).For (Cmd.back^[k] p.cmd) :=
  ⟨⟨h, rfl⟩, ⟨h, rfl⟩, ⟨h, rfl⟩, ⟨h, rfl⟩⟩

theorem for_ofLine (h : l.Ok) : (ofLine l).For l.cmd := ⟨⟨h, rfl⟩, ⟨h, rfl⟩, ⟨h, rfl⟩, ⟨h, rfl⟩⟩

end Forms

/-- The symbol for the mode of a redirection. -/
def Direction.ofMode (mode : ℕ) : Direction := if mode = rdonly then .lt else .gt

theorem Direction.ofMode_mode (d : Direction) :
    (Direction.ofMode d.mode).mode = d.mode ∧ (Direction.ofMode d.mode).fd = d.fd := by
  cases d <;> exact ⟨rfl, rfl⟩

/-- A redirection after the last word. -/
def addLast (r : Redir W) : W × List (Redir W) → List (W × List (Redir W)) →
    List (W × List (Redir W))
  | x, [] => [(x.1, x.2 ++ [r])]
  | x, y :: args => x :: addLast r y args

/-- A redirection after a command. -/
def Exec.addRedir (r : Redir W) : Exec W → Exec W
  | .block l rs => .block l (rs ++ [r])
  | .simple rs [] => .simple (rs ++ [r]) []
  | .simple rs (x :: args) => .simple rs (addLast r x args)

theorem addLast_eq (r : Redir W) (x : W × List (Redir W)) (args : List (W × List (Redir W))) :
    (addLast r x args).map Prod.fst = (x :: args).map Prod.fst ∧
      (addLast r x args).flatMap Prod.snd = (x :: args).flatMap Prod.snd ++ [r] := by
  induction args generalizing x with
  | nil => exact ⟨rfl, by simp [addLast]⟩
  | cons y args ih =>
    obtain ⟨h1, h2⟩ := ih y
    refine ⟨?_, ?_⟩
    · rw [addLast, map_cons, h1]
      rfl
    · rw [addLast, flatMap_cons, h2, ← append_assoc]
      rfl

theorem Exec.addRedir_spec (r : Redir W) {e : Exec W} (h : e.Ok) :
    (e.addRedir r).Ok ∧ (e.addRedir r).cmd = .redir e.cmd r.file r.dir.mode r.dir.fd := by
  obtain ⟨l, rs⟩ | ⟨rs, _ | ⟨x, args⟩⟩ := e
  · exact ⟨h, wrap_append rs [r] l.cmd⟩
  · have hcmd : ∀ rs : List (Redir W), (Exec.simple rs []).cmd = wrap (.exec []) rs := fun rs => by
      rw [Exec.cmd, flatMap_nil, append_nil, map_nil]
    refine ⟨h, ?_⟩
    rw [Exec.addRedir, hcmd, hcmd, wrap_append]
    rfl
  · obtain ⟨h1, h2⟩ := addLast_eq r x args
    refine ⟨?_, ?_⟩
    · have hlen := congrArg List.length h1
      rw [length_map, length_map] at hlen
      exact hlen.trans_lt h
    · rw [Exec.addRedir, Exec.cmd, h1, h2, ← append_assoc, wrap_append]
      rfl

/-- **The ways to write a command.** -/
def Cmd.forms : Cmd W → Forms W
  | .exec argv => .ofExec (.simple [] (argv.map fun w => (w, [])))
  | .redir cmd file mode _ => .ofExec (cmd.forms.exec.addRedir ⟨.ofMode mode, file⟩)
  | .pipe left right => .ofPipe (.bar left.forms.exec right.forms.pipe)
  | .list left right => .ofLine (.semi left.forms.back.1 left.forms.back.2 right.forms.line)
  | .back cmd => .ofBack cmd.forms.back.1 (cmd.forms.back.2 + 1)

theorem Cmd.forms_for {c : Cmd W} (h : c.Ok) : c.forms.For c := by
  induction c with
  | exec argv =>
    have hok : (Exec.simple [] (argv.map fun w => (w, [])) : Exec W).Ok :=
      (length_map _).trans_lt h
    have hcmd : (Exec.simple [] (argv.map fun w => (w, [])) : Exec W).cmd = .exec argv := by
      have hnil : (argv.map fun w => (w, ([] : List (Redir W)))).flatMap Prod.snd = [] := by
        rw [flatMap_map]
        exact flatMap_eq_nil_iff.mpr fun _ _ => rfl
      rw [Exec.cmd, hnil, map_map]
      exact congrArg Cmd.exec (map_id argv)
    have hfor := Forms.for_ofExec hok
    rwa [hcmd] at hfor
  | redir cmd file mode fd ih =>
    obtain ⟨hok, d, rfl, rfl⟩ := h
    obtain ⟨he, hcmd⟩ := (ih hok).exec
    obtain ⟨hm, hf⟩ := d.ofMode_mode
    obtain ⟨hr, hrc⟩ := Exec.addRedir_spec ⟨.ofMode d.mode, file⟩ he
    have hfor := Forms.for_ofExec hr
    rwa [hrc, hcmd, hm, hf] at hfor
  | pipe left right ihl ihr =>
    obtain ⟨hl, hlc⟩ := (ihl h.1).exec
    obtain ⟨hr, hrc⟩ := (ihr h.2).pipe
    have hfor := Forms.for_ofPipe (p := .bar left.forms.exec right.forms.pipe) ⟨hl, hr⟩
    rwa [Pipe.cmd, hlc, hrc] at hfor
  | list left right ihl ihr =>
    obtain ⟨hl, hlc⟩ := (ihl h.1).back
    obtain ⟨hr, hrc⟩ := (ihr h.2).line
    have hfor := Forms.for_ofLine
      (l := .semi left.forms.back.1 left.forms.back.2 right.forms.line) ⟨hl, hr⟩
    rwa [Line.cmd, hlc, hrc] at hfor
  | back cmd ih =>
    obtain ⟨hb, hbc⟩ := (ih h).back
    have hfor := Forms.for_ofBack hb (cmd.forms.back.2 + 1)
    rwa [Function.iterate_succ_apply', hbc] at hfor

/-! ### Lines for derivations -/

/-- The bytes of a token. -/
def Token.bytes : Token (List UInt8) → List UInt8
  | word w => w
  | app => ['>'.toUInt8, '>'.toUInt8]
  | t => t.symbol.toList

/-- The line with these tokens, each with a blank after it. -/
def render : List (Token (List UInt8)) → List UInt8
  | [] => []
  | t :: ts => t.bytes ++ ' '.toUInt8 :: render ts

/-- **A command as a line.** -/
def print (c : Cmd (List UInt8)) : List UInt8 := render c.forms.line.tokens

/-- The bytes can be a word. -/
def Good (w : List UInt8) : Prop := w ≠ [] ∧ ∀ c ∈ w, c ≠ 0 ∧ isWord c

theorem Token.bytes_noNul {t : Token (List UInt8)} (ht : ∀ w, t = .word w → Good w) :
    0 ∉ t.bytes := by
  cases t with
  | word w => exact fun h => (ht w rfl).2 0 h |>.1 rfl
  | _ => decide

theorem render_noNul {ts : List (Token (List UInt8))} (hts : ∀ w, .word w ∈ ts → Good w) :
    0 ∉ render ts := by
  induction ts with
  | nil => exact not_mem_nil
  | cons t ts ih =>
    rw [render, mem_append, mem_cons]
    rintro (h | h | h)
    · exact Token.bytes_noNul (fun w hw => hts w (hw ▸ mem_cons_self)) h
    · exact absurd h (by decide)
    · exact ih (fun w hw => hts w (mem_cons_of_mem _ hw)) h

theorem of_single {s : CStr} {t : Token Slice} {c : UInt8} {l : List UInt8} (hs : s.chars = c :: l)
    (hc : strchr ['|', '(', ')', ';', '&', '<'] c) (ht : Token.single c = some t) :
    tokens s = t :: tokens s.tail := by
  obtain ⟨hhead, -⟩ := CStr.head_tail_of_eq hs
  rw [tokens_single (by rw [hhead]; exact hc), hhead, ht]
  rfl

/-- The first token of a line that is written so. -/
theorem reads_bytes {s : CStr} {t : Token (List UInt8)} {l : List UInt8}
    (ht : ∀ w, t = .word w → Good w) (hs : s.chars = t.bytes ++ ' '.toUInt8 :: l) :
    ∃ t' r, tokens s = t' :: tokens r ∧ t'.map Slice.text = t ∧ r.chars = ' '.toUInt8 :: l := by
  cases t with
  | word w =>
    obtain ⟨hne, hw⟩ := ht w rfl
    have hs : s.chars = w ++ ' '.toUInt8 :: l := hs
    obtain ⟨c, w, rfl⟩ := exists_cons_of_ne_nil hne
    have hhead : s.head = c := by rw [CStr.head, hs]; rfl
    have hnil : s.chars ≠ [] := by rw [hs]; exact cons_ne_nil _ _
    have hc : isWord s.head := hhead ▸ (hw c mem_cons_self).2
    have hskip : (s.skip isWord).chars = ' '.toUInt8 :: l := by
      change s.chars.dropWhile isWord = _
      rw [hs, dropWhile_append_of_pos fun x hx => (hw x hx).2]
      rfl
    refine ⟨_, _, tokens_word hnil hc, ?_, hskip⟩
    rw [Token.map, text_mk (hskip ▸ hs)]
  | app =>
    obtain ⟨hhead, htail⟩ := CStr.head_tail_of_eq hs
    obtain ⟨hhead', htail'⟩ := CStr.head_tail_of_eq htail
    exact ⟨.app, s.tail.tail, by rw [tokens_gt hhead, if_pos hhead'], rfl, htail'⟩
  | gt =>
    obtain ⟨hhead, htail⟩ := CStr.head_tail_of_eq hs
    obtain ⟨hhead', -⟩ := CStr.head_tail_of_eq htail
    have hne : ¬s.tail.head = '>'.toUInt8 := by rw [hhead']; decide
    exact ⟨.gt, s.tail, by rw [tokens_gt hhead, if_neg hne], rfl, htail⟩
  | bar | lpar | rpar | semi | amp | lt =>
    exact ⟨_, s.tail, of_single hs (by decide) rfl, rfl, (CStr.head_tail_of_eq hs).2⟩

/-- **The line has the tokens.** -/
theorem view_render {s : CStr} {ts : List (Token (List UInt8))} (hts : ∀ w, .word w ∈ ts → Good w)
    (hs : s.chars = render ts) : view Slice.text s = ts := by
  induction ts generalizing s with
  | nil => rw [view, tokens_nil hs, map_nil]
  | cons t ts ih =>
    obtain ⟨t', r, ht', hmap, hr⟩ :=
      reads_bytes (fun w hw => hts w (hw ▸ mem_cons_self)) hs
    obtain ⟨hhead, htail⟩ := CStr.head_tail_of_eq hr
    have hb : isBlank r.head := by rw [hhead]; decide
    have hne : r.chars ≠ [] := by rw [hr]; exact cons_ne_nil _ _
    rw [view, ht', tokens_blank hne hb, map_cons, hmap]
    exact congrArg (t :: ·) (ih (fun w hw => hts w (mem_cons_of_mem _ hw)) htail)

/-! ### The whole parser -/

variable {s : CStr} {n : ℕ} {f : Slice → W}

theorem parsecmd_eq (n : ℕ) (s : CStr) :
    parsecmd n s = (parseline n s).bind fun x =>
      if (x.2.skip isBlank).chars ≠ [] then .error (.panic "syntax") else .ok x.1 := rfl

/-- **The parser accepts what the grammar derives.** -/
theorem parsecmd_complete {l : Line W} (hok : l.Ok) (hv : view f s = l.tokens)
    (hn : 4 * (view f s).length + 4 ≤ n) : ∃ c, parsecmd n s = .ok c ∧ c.map f = l.cmd := by
  have hv' : view f s = l.tokens ++ [] := by rw [hv, append_nil]
  obtain ⟨c, s', hc, hmap, hs'⟩ := line_complete hok hv' ends_nil (hv ▸ hn)
  refine ⟨c, ?_, hmap⟩
  have hend : ¬(s'.skip isBlank).chars ≠ [] := not_not.mpr (view_eq_nil.mp hs')
  rw [parsecmd_eq, hc]
  exact if_neg hend

/-- **The parser returns what the grammar derives, or it stops with a message.** -/
theorem parsecmd_spec (hn : 4 * (view f s).length + 4 ≤ n) :
    (∃ c, parsecmd n s = .ok c ∧ ∃ l : Line W, l.Ok ∧ l.tokens = view f s ∧ l.cmd = c.map f) ∨
      ∃ msg ∈ panics, parsecmd n s = .error (.panic msg) := by
  have hspec := line_spec hn
  rw [parsecmd_eq]
  match hp : parseline n s, hspec with
  | .ok (c, s'), ⟨l, hok, hmap, hv⟩ =>
    by_cases hend : (s'.skip isBlank).chars ≠ []
    · exact .inr ⟨"syntax", mem_cons_self, if_pos hend⟩
    · refine .inl ⟨c, if_neg hend, l, hok, ?_, hmap.symm⟩
      rw [hv, view_eq_nil.mpr (not_not.mp hend), append_nil]
  | .error (.panic msg), hmsg => exact .inr ⟨msg, hmsg, rfl⟩

theorem Cmd.map_id : ∀ c : Cmd W, c.map id = c
  | .exec argv => congrArg Cmd.exec (List.map_id argv)
  | .redir cmd file mode fd => congrArg (Cmd.redir · file mode fd) cmd.map_id
  | .pipe left right => congrArg₂ Cmd.pipe left.map_id right.map_id
  | .list left right => congrArg₂ Cmd.list left.map_id right.map_id
  | .back cmd => congrArg Cmd.back cmd.map_id

theorem length_view (f : Slice → W) (s : CStr) (hn : 4 * s.chars.length + 4 ≤ n) :
    4 * (view f s).length + 4 ≤ n := by
  have := length_tokens_le s
  rw [view, length_map]
  omega

/-- **A command that is written as a line is read back.** -/
theorem parsecmd_print {c : Cmd (List UInt8)} (hok : c.Ok) (hc : ∀ w ∈ c.words, Good w)
    (hs : s.chars = print c) (hn : 4 * s.chars.length + 4 ≤ n) :
    ∃ t, parsecmd n s = .ok t ∧ t.map Slice.text = c := by
  obtain ⟨hl, hlc⟩ := (Cmd.forms_for hok).line
  have hgood : ∀ w, .word w ∈ c.forms.line.tokens → Good w := by
    intro w hw
    rw [Line.mem_tokens, hlc] at hw
    exact hc w hw
  obtain ⟨t, ht, hmap⟩ := parsecmd_complete hl (view_render hgood hs) (length_view _ s hn)
  exact ⟨t, ht, hmap.trans hlc⟩

theorem print_noNul {c : Cmd (List UInt8)} (hok : c.Ok) (hc : ∀ w ∈ c.words, Good w) :
    0 ∉ print c := by
  refine render_noNul fun w hw => hc w ?_
  rwa [Line.mem_tokens, (Cmd.forms_for hok).line.2] at hw

theorem parsecmd_iff (hn : 4 * s.chars.length + 4 ≤ n) (c : Cmd Slice) :
    parsecmd n s = .ok c ↔ ∃ l : Line Slice, l.Ok ∧ l.tokens = tokens s ∧ l.cmd = c := by
  have hn' := length_view id s hn
  constructor
  · intro h
    rcases parsecmd_spec hn' with ⟨c', hc', l, hok, hl, hcmd⟩ | ⟨msg, -, hmsg⟩
    · obtain rfl := Except.ok.inj (h.symm.trans hc')
      rw [view_id] at hl
      rw [Cmd.map_id] at hcmd
      exact ⟨l, hok, hl, hcmd⟩
    · cases h.symm.trans hmsg
  · rintro ⟨l, hok, hl, rfl⟩
    obtain ⟨c, hc, hmap⟩ := parsecmd_complete hok (view_id.trans hl.symm) hn'
    rw [Cmd.map_id] at hmap
    rw [hc, hmap]

/-- The words of a command are parts of the line. -/
theorem words_of (hn : 4 * s.chars.length + 4 ≤ n) {c : Cmd Slice} (h : parsecmd n s = .ok c)
    {w : Slice} (hw : w ∈ c.words) : w.Of s := by
  obtain ⟨l, -, hl, rfl⟩ := (parsecmd_iff hn c).mp h
  rw [← Line.mem_tokens, hl] at hw
  exact of_mem_tokens hw

theorem Slice.Of.good {w : Slice} (h : w.Of s) : Good w.text := by
  refine ⟨h.ne_nil, fun c hc => ⟨?_, h.isWord c hc⟩⟩
  rintro rfl
  refine w.q.noNul ?_
  rw [h.eq]
  exact mem_append_left _ hc

/-- **The parser accepts its grammar**, it returns the command of the derivation, and the
command can be written as a line and read back. -/
theorem parser_accepts (line : CStr) (n : ℕ) (hn : 4 * line.chars.length + 4 ≤ n) :
    (∀ c, parsecmd n line = .ok c ↔ ∃ l : Line Slice, l.Ok ∧ l.tokens = tokens line ∧ l.cmd = c) ∧
      (∀ l l' : Line Slice, l.tokens = tokens line → l'.tokens = tokens line → l = l') ∧
      ((¬∃ l : Line Slice, l.Ok ∧ l.tokens = tokens line) →
        ∃ msg ∈ panics, parsecmd n line = .error (.panic msg)) ∧
      ∀ c, parsecmd n line = .ok c → (∀ w ∈ c.words, w.Of line) ∧
        0 ∉ print (c.map Slice.text) ∧
          ∀ (s : CStr) (k : ℕ), s.chars = print (c.map Slice.text) → 4 * s.chars.length + 4 ≤ k →
            ∃ c', parsecmd k s = .ok c' ∧ c'.map Slice.text = c.map Slice.text := by
  refine ⟨parsecmd_iff hn, fun l l' h h' => Line.tokens_injective (h.trans h'.symm), fun hno => ?_,
    fun c hc => ?_⟩
  · rcases parsecmd_spec (length_view id line hn) with ⟨c, hc, -⟩ | hmsg
    · exact absurd (((parsecmd_iff hn c).mp hc).imp fun l h => ⟨h.1, h.2.1⟩) hno
    · exact hmsg
  · have hwords : ∀ w ∈ (c.map Slice.text).words, Good w := by
      rw [Cmd.words_map]
      intro w hw
      obtain ⟨v, hv, rfl⟩ := mem_map.mp hw
      exact (words_of hn hc hv).good
    have hok : (c.map Slice.text).Ok := by
      obtain ⟨l, hl, -, rfl⟩ := (parsecmd_iff hn c).mp hc
      exact Cmd.ok_map _ (Line.cmd_ok hl)
    exact ⟨fun w hw => words_of hn hc hw, print_noNul hok hwords,
      fun s k hs hk => parsecmd_print hok hwords hs hk⟩

theorem eq_ok_of_toOption {α : Type} {x : Except Fail α} {a : α} (h : x.toOption = some a) :
    x = .ok a := by
  cases x with
  | ok b => rw [Option.some.inj h]
  | error e => cases h

/-- The line `(a<b)|c &;` -/
def blockLine : CStr :=
  ⟨['(', 'a', '<', 'b', ')', '|', 'c', ' ', '&', ';'].map Char.toUInt8, by decide⟩

/-- It is written back as `a < b | c & ; `. -/
theorem parser_accepts_blockLine : ∃ c, parsecmd 50 blockLine = .ok c ∧
    (∀ w ∈ c.words, w.Of blockLine) ∧ print (c.map Slice.text) =
      ['a', ' ', '<', ' ', 'b', ' ', '|', ' ', 'c', ' ', '&', ' ', ';', ' '].map Char.toUInt8 := by
  have hprint : ((parsecmd 50 blockLine).toOption.map fun c => print (c.map Slice.text)) =
      some (['a', ' ', '<', ' ', 'b', ' ', '|', ' ', 'c', ' ', '&', ' ', ';', ' '].map
        Char.toUInt8) := by
    decide +kernel
  obtain ⟨c, hc, hp⟩ := Option.map_eq_some_iff.mp hprint
  have hc := eq_ok_of_toOption hc
  obtain ⟨-, -, -, haccept⟩ := parser_accepts blockLine 50 (by decide)
  exact ⟨c, hc, (haccept c hc).1, hp⟩

end Xv6.Sh
