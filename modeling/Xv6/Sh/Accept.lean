import Xv6.Sh.Grammar

/-!
# The parser accepts its grammar

A parser that has enough rounds **either returns the command of a derivation**, for the tokens that
it has read, **or stops with a message** (`Xv6.Sh.line_spec`), and it does return the command of a
derivation if there is one for the line (`Xv6.Sh.line_complete`). Both follow the functions
from the inside to the outside: redirections, words, commands in parentheses, pipelines, lines.
-/

namespace Xv6.Sh

open Lib List

variable {W V : Type} {f : Slice → W} {s : CStr} {n : ℕ} {ts : List (Token W)}

/-! ### The functions on tokens -/

theorem parseredirs_succ (f : Slice → W) (n : ℕ) (cmd : Cmd Slice) (s : CStr) :
    parseredirs (n + 1) cmd s =
      if starts ['<', '>'] (view f s) then
        if (gettoken (gettoken s).next).ret ≠ 'a'.toUInt8 then
          .error (.panic "missing file for redirection")
        else parseredirs n (redirect cmd (gettoken s).ret (gettoken (gettoken s).next).word)
          (gettoken (gettoken s).next).next
      else .ok (cmd, s.skip isBlank) := by
  rw [parseredirs, peek_eq (f := f) (by decide)]
  simp only [gettoken_skip]

theorem parseargs_succ (f : Slice → W) (n : ℕ) (ret : Cmd Slice) (argc : ℕ) (s : CStr) :
    parseargs (n + 1) ret argc s =
      if starts ['|', ')', '&', ';'] (view f s) then .ok (ret, s.skip isBlank)
      else if (gettoken s).ret = 0 then .ok (ret, (gettoken s).next)
      else if (gettoken s).ret ≠ 'a'.toUInt8 then .error (.panic "syntax")
      else if argc + 1 ≥ maxargs then .error (.panic "too many args")
      else (parseredirs n (ret.push (gettoken s).word) (gettoken s).next).bind fun x =>
        parseargs n x.1 (argc + 1) x.2 := by
  rw [parseargs, peek_eq (f := f) (by decide)]
  simp only [gettoken_skip]

theorem parsebacks_succ (f : Slice → W) (n : ℕ) (cmd : Cmd Slice) (s : CStr) :
    parsebacks (n + 1) cmd s =
      if starts ['&'] (view f s) then parsebacks n (.back cmd) (gettoken s).next
      else .ok (cmd, s.skip isBlank) := by
  rw [parsebacks, peek_eq (f := f) (by decide)]
  simp only [gettoken_skip]

theorem parseline_succ (f : Slice → W) (n : ℕ) (s : CStr) :
    parseline (n + 1) s = (parsepipe n s).bind fun x => (parsebacks n x.1 x.2).bind fun y =>
      if starts [';'] (view f y.2) then
        (parseline n (gettoken y.2).next).bind fun z => .ok (.list y.1 z.1, z.2)
      else .ok (y.1, y.2.skip isBlank) := by
  rw [parseline]
  simp only [peek_eq (f := f) (by decide : [';'].all symbols.contains), gettoken_skip]

theorem parsepipe_succ (f : Slice → W) (n : ℕ) (s : CStr) :
    parsepipe (n + 1) s = (parseexec n s).bind fun x =>
      if starts ['|'] (view f x.2) then
        (parsepipe n (gettoken x.2).next).bind fun y => .ok (.pipe x.1 y.1, y.2)
      else .ok (x.1, x.2.skip isBlank) := by
  rw [parsepipe]
  simp only [peek_eq (f := f) (by decide : ['|'].all symbols.contains), gettoken_skip]

theorem parseexec_succ (f : Slice → W) (n : ℕ) (s : CStr) :
    parseexec (n + 1) s =
      if starts ['('] (view f s) then parseblock n (s.skip isBlank)
      else (parseredirs n (.exec []) (s.skip isBlank)).bind fun x => parseargs n x.1 0 x.2 := by
  rw [parseexec]
  simp only [peek_eq (f := f) (by decide : ['('].all symbols.contains)]

theorem parseblock_succ (f : Slice → W) (n : ℕ) (s : CStr) :
    parseblock (n + 1) s =
      if starts ['('] (view f s) then
        (parseline n (gettoken s).next).bind fun x =>
          if starts [')'] (view f x.2) then parseredirs n x.1 (gettoken x.2).next
          else .error (.panic "syntax - missing )")
      else .error (.panic "parseblock") := by
  rw [parseblock]
  simp only [peek_eq (f := f) (by decide : ['('].all symbols.contains),
    peek_eq (f := f) (by decide : [')'].all symbols.contains), gettoken_skip]

/-- A word is what `gettoken` returns as such. -/
theorem ret_eq_word (f : Slice → W) (h : (gettoken s).ret = 'a'.toUInt8) :
    ∃ w ts, view f s = .word w :: ts := by
  rcases hv : view f s with _ | ⟨t, ts⟩
  · rw [(gettoken_nil hv).1] at h
    exact absurd h (by decide)
  · rw [(gettoken_cons hv).1] at h
    obtain ⟨w, rfl⟩ := Token.code_eq_word h
    exact ⟨w, ts, rfl⟩

theorem ret_eq_zero (f : Slice → W) (h : (gettoken s).ret = 0) : view f s = [] := by
  rcases hv : view f s with _ | ⟨t, ts⟩
  · rfl
  · rw [(gettoken_cons hv).1] at h
    exact absurd h t.code_ne_zero

/-- The token of a symbol that begins nothing else. -/
theorem eq_of_starts {c : Char} (t : Token W) (hs : starts [c] ts)
    (ht : t.symbol = some c.toUInt8) (hgt : '>'.toUInt8 ≠ c.toUInt8) : ∃ ts', ts = t :: ts' := by
  obtain _ | ⟨t', ts⟩ := ts
  · cases hs
  · obtain ⟨x, hx, hsx⟩ := Token.symbol_any.mp hs
    obtain rfl := mem_singleton.mp hx
    rw [← ht] at hsx
    refine ⟨ts, ?_⟩
    cases t <;> cases t' <;>
      first | rfl | (cases hsx; done) | exact absurd (Option.some.inj ht) hgt | cases ht

theorem starts_redir (hs : starts ['<', '>'] ts) :
    ∃ (d : Direction) (ts' : List (Token W)), ts = d.token :: ts' := by
  obtain _ | ⟨t, ts⟩ := ts
  · cases hs
  · cases t with
    | lt => exact ⟨.lt, ts, rfl⟩
    | gt => exact ⟨.gt, ts, rfl⟩
    | app => exact ⟨.app, ts, rfl⟩
    | _ => cases hs

theorem redirect_token (cmd : Cmd Slice) (d : Direction) (w : Slice) :
    redirect cmd (d.token : Token W).code w = .redir cmd w d.mode d.fd := by
  cases d <;> rfl

/-! ### Commands -/

/-- The command with the words read in some way. -/
def Cmd.map (f : W → V) : Cmd W → Cmd V
  | .exec argv => .exec (argv.map f)
  | .redir cmd file mode fd => .redir (cmd.map f) (f file) mode fd
  | .pipe left right => .pipe (left.map f) (right.map f)
  | .list left right => .list (left.map f) (right.map f)
  | .back cmd => .back (cmd.map f)

theorem Cmd.map_push (f : W → V) (w : W) : ∀ c : Cmd W, (c.push w).map f = (c.map f).push (f w)
  | .exec _ => congrArg Cmd.exec map_append
  | .redir cmd file mode fd => congrArg (Cmd.redir · (f file) mode fd) (cmd.map_push f w)
  | .pipe .. => rfl
  | .list .. => rfl
  | .back .. => rfl

theorem push_wrap (w : W) (rs : List (Redir W)) (c : Cmd W) :
    (wrap c rs).push w = wrap (c.push w) rs := by
  induction rs generalizing c with
  | nil => rfl
  | cons r rs ih => exact ih _

theorem wrap_append (rs rs' : List (Redir W)) (c : Cmd W) :
    wrap c (rs ++ rs') = wrap (wrap c rs) rs' := by
  induction rs generalizing c with
  | nil => rfl
  | cons r rs ih => exact ih _

/-- A word and the redirections after it. -/
theorem map_push_wrap {f : W → V} {ret c : Cmd W} {w : W} {v : V} {ws : List V}
    {rs rs₁ : List (Redir V)} (hret : ret.map f = wrap (.exec ws) rs) (hw : f w = v)
    (hc : c.map f = wrap ((ret.push w).map f) rs₁) :
    c.map f = wrap (.exec (ws ++ [v])) (rs ++ rs₁) := by
  rw [hc, Cmd.map_push, hret, push_wrap, hw, wrap_append, Cmd.push]

/-! ### What the parser returns -/

/-- The messages that the parser stops with. -/
def panics : List String :=
  ["syntax", "missing file for redirection", "too many args", "syntax - missing )"]

/-- The parser returns something such that `P`, or it stops with a message. -/
def Gives (P : Cmd Slice → CStr → Prop) : Parsed → Prop
  | .ok x => P x.1 x.2
  | .error (.panic msg) => msg ∈ panics
  | .error .rounds => False

theorem Gives.bind {P Q : Cmd Slice → CStr → Prop} {x : Parsed} {g : Cmd Slice × CStr → Parsed}
    (hx : Gives P x) (hg : ∀ c s, P c s → Gives Q (g (c, s))) : Gives Q (x.bind g) := by
  match x with
  | .ok (c, s) => exact hg c s hx
  | .error (.panic _) => exact hx
  | .error .rounds => exact hx

theorem Gives.mono {P Q : Cmd Slice → CStr → Prop} {x : Parsed} (hx : Gives P x)
    (h : ∀ c s, P c s → Q c s) : Gives Q x := by
  match x with
  | .ok (c, s) => exact h c s hx
  | .error (.panic _) => exact hx
  | .error .rounds => exact hx

theorem redirs_spec (cmd : Cmd Slice) (hn : (view f s).length < n) :
    Gives (fun c s' => ∃ rs, c.map f = wrap (cmd.map f) rs ∧
      view f s = redirTokens rs ++ view f s') (parseredirs n cmd s) := by
  induction n generalizing cmd s with
  | zero => exact absurd hn (Nat.not_lt_zero _)
  | succ n ih =>
    rw [parseredirs_succ f]
    split_ifs with hs hw
    · exact mem_of_elem_eq_true rfl
    · obtain ⟨d, ts, hv⟩ := starts_redir hs
      obtain ⟨hret, hnext, -⟩ := gettoken_cons hv
      obtain ⟨w, ts', hv'⟩ := ret_eq_word f (not_not.mp hw)
      obtain ⟨-, hnext', hfile⟩ := gettoken_cons hv'
      rw [hnext] at hv'
      have hlen : (view f (gettoken (gettoken s).next).next).length < n := by
        rw [hv, hv', length_cons, length_cons] at hn
        rw [hnext']
        omega
      refine (ih _ hlen).mono fun c s' ⟨rs, hc, hrs⟩ => ?_
      refine ⟨⟨d, w⟩ :: rs, ?_, ?_⟩
      · rw [hc, hret, redirect_token, Cmd.map, hfile w rfl, wrap]
      · rw [hv, hv', redirTokens, ← hnext', hrs]
        rfl
    · exact ⟨[], rfl, by rw [view_skip]; rfl⟩

theorem args_spec {argc : ℕ} {ret : Cmd Slice} {ws : List W} {rs : List (Redir W)}
    (hn : (view f s).length < n) (hargc : argc < maxargs) (hret : ret.map f = wrap (.exec ws) rs) :
    Gives (fun c s' => ∃ args : List (W × List (Redir W)),
      c.map f = wrap (.exec (ws ++ args.map Prod.fst)) (rs ++ args.flatMap Prod.snd) ∧
        argc + args.length < maxargs ∧ view f s = argTokens args ++ view f s')
      (parseargs n ret argc s) := by
  induction n generalizing ret argc s ws rs with
  | zero => exact absurd hn (Nat.not_lt_zero _)
  | succ n ih =>
    rw [parseargs_succ f]
    split_ifs with hs hz hw hmax
    · exact ⟨[], by simpa using hret, hargc, by rw [view_skip]; rfl⟩
    · have hv := ret_eq_zero f hz
      exact ⟨[], by simpa using hret, hargc, by rw [hv, (gettoken_nil hv).2]; rfl⟩
    · exact mem_of_elem_eq_true rfl
    · exact mem_of_elem_eq_true rfl
    · obtain ⟨w, ts, hv⟩ := ret_eq_word f (not_not.mp hw)
      obtain ⟨-, hnext, hword⟩ := gettoken_cons hv
      rw [hv, length_cons] at hn
      have hlen : (view f (gettoken s).next).length < n := by rw [hnext]; omega
      refine (redirs_spec _ hlen).bind fun c s₁ ⟨rs₁, hc, hrs₁⟩ => ?_
      rw [hnext] at hrs₁
      have hlen : (view f s₁).length < n := by
        rw [hrs₁, length_append] at hn
        omega
      refine (ih hlen (by omega) (map_push_wrap hret (hword w rfl) hc)).mono
        fun c' s' ⟨args, hc', hargs, hrest⟩ => ?_
      refine ⟨(w, rs₁) :: args, ?_, ?_, ?_⟩
      · rw [hc', map_cons, flatMap_cons, append_assoc, append_assoc]
        rfl
      · rw [length_cons]
        omega
      · rw [hv, hrs₁, hrest, argTokens, cons_append, append_assoc]

theorem backs_spec (cmd : Cmd Slice) (hn : (view f s).length < n) :
    Gives (fun c s' => ∃ k, c.map f = Cmd.back^[k] (cmd.map f) ∧
      view f s = List.replicate k .amp ++ view f s') (parsebacks n cmd s) := by
  induction n generalizing cmd s with
  | zero => exact absurd hn (Nat.not_lt_zero _)
  | succ n ih =>
    rw [parsebacks_succ f]
    split_ifs with hs
    · obtain ⟨ts, hv⟩ := eq_of_starts .amp hs rfl (by decide)
      obtain ⟨-, hnext, -⟩ := gettoken_cons hv
      rw [hv, length_cons] at hn
      refine (ih _ (by rw [hnext]; omega)).mono fun c s' ⟨k, hc, hk⟩ => ?_
      refine ⟨k + 1, by rw [hc, Function.iterate_succ_apply]; rfl, ?_⟩
      rw [hv, ← hnext, hk]
      rfl
    · exact ⟨0, rfl, by rw [view_skip]; rfl⟩

/-- The command `c` is one for the tokens between `s` and `s'`. -/
def IsLine (f : Slice → W) (s : CStr) (c : Cmd Slice) (s' : CStr) : Prop :=
  ∃ l : Line W, l.Ok ∧ c.map f = l.cmd ∧ view f s = l.tokens ++ view f s'

def IsPipe (f : Slice → W) (s : CStr) (c : Cmd Slice) (s' : CStr) : Prop :=
  ∃ p : Pipe W, p.Ok ∧ c.map f = p.cmd ∧ view f s = p.tokens ++ view f s'

def IsExec (f : Slice → W) (s : CStr) (c : Cmd Slice) (s' : CStr) : Prop :=
  ∃ e : Exec W, e.Ok ∧ c.map f = e.cmd ∧ view f s = e.tokens ++ view f s'

/-- `parseline`, when the functions that it calls are right. -/
theorem parseline_spec (hpipe : ∀ s, 4 * (view f s).length + 3 ≤ n →
      Gives (IsPipe f s) (parsepipe n s))
    (hline : ∀ s, 4 * (view f s).length + 4 ≤ n → Gives (IsLine f s) (parseline n s))
    (hn : 4 * (view f s).length + 4 ≤ n + 1) : Gives (IsLine f s) (parseline (n + 1) s) := by
  rw [parseline_succ f]
  refine (hpipe s (by omega)).bind fun c s₁ ⟨p, hp, hc, hs₁⟩ => ?_
  have hlen₁ : (view f s).length = p.tokens.length + (view f s₁).length := by
    rw [hs₁, length_append]
  have hn₁ : (view f s₁).length < n := by omega
  refine (backs_spec c hn₁).bind fun c₂ s₂ ⟨k, hc₂, hs₂⟩ => ?_
  rw [hc] at hc₂
  split_ifs with hs
  · obtain ⟨ts, hv⟩ := eq_of_starts .semi hs rfl (by decide)
    obtain ⟨-, hnext, -⟩ := gettoken_cons hv
    have hlen₂ : (view f s₁).length = k + (ts.length + 1) := by
      rw [hs₂, length_append, length_replicate, hv, length_cons]
    refine (hline _ (by rw [hnext]; omega)).bind fun c₃ s₃ ⟨l, hl, hc₃, hs₃⟩ => ?_
    refine ⟨.semi p k l, ⟨hp, hl⟩, ?_, ?_⟩
    · rw [Cmd.map, hc₂, hc₃, Line.cmd]
    · rw [hs₁, hs₂, hv, Line.tokens, append_assoc, append_assoc, cons_append, ← hs₃,
        hnext]
  · refine ⟨.last p k, hp, hc₂, ?_⟩
    rw [hs₁, hs₂, view_skip, Line.tokens, append_assoc]

theorem parsepipe_spec (hexec : ∀ s, 4 * (view f s).length + 2 ≤ n →
      Gives (IsExec f s) (parseexec n s))
    (hpipe : ∀ s, 4 * (view f s).length + 3 ≤ n → Gives (IsPipe f s) (parsepipe n s))
    (hn : 4 * (view f s).length + 3 ≤ n + 1) : Gives (IsPipe f s) (parsepipe (n + 1) s) := by
  rw [parsepipe_succ f]
  refine (hexec s (by omega)).bind fun c s₁ ⟨e, he, hc, hs₁⟩ => ?_
  split_ifs with hs
  · obtain ⟨ts, hv⟩ := eq_of_starts .bar hs rfl (by decide)
    obtain ⟨-, hnext, -⟩ := gettoken_cons hv
    have hlen : (view f s).length = e.tokens.length + (ts.length + 1) := by
      rw [hs₁, length_append, hv, length_cons]
    refine (hpipe _ (by rw [hnext]; omega)).bind fun c₂ s₂ ⟨p, hp, hc₂, hs₂⟩ => ?_
    refine ⟨.bar e p, ⟨he, hp⟩, ?_, ?_⟩
    · rw [Cmd.map, hc, hc₂, Pipe.cmd]
    · rw [hs₁, hv, Pipe.tokens, append_assoc, cons_append, ← hs₂, hnext]
  · refine ⟨.last e, he, hc, ?_⟩
    rw [hs₁, view_skip, Pipe.tokens]

theorem parseexec_spec (hblock : ∀ s, starts ['('] (view f s) → 4 * (view f s).length + 1 ≤ n →
      Gives (IsExec f s) (parseblock n s))
    (hn : 4 * (view f s).length + 2 ≤ n + 1) : Gives (IsExec f s) (parseexec (n + 1) s) := by
  have hskip : view f (s.skip isBlank) = view f s := view_skip
  rw [parseexec_succ f]
  split_ifs with hs
  · refine (hblock _ (by rw [hskip]; exact hs) (by rw [hskip]; omega)).mono fun c s' h => ?_
    rwa [IsExec, hskip] at h
  · have hlen : (view f (s.skip isBlank)).length < n := by rw [hskip]; omega
    refine (redirs_spec _ hlen).bind fun c s₁ ⟨rs, hc, hs₁⟩ => ?_
    rw [hskip] at hs₁
    have hlen₁ : (view f s₁).length < n := by
      rw [hs₁, length_append] at hn
      omega
    refine (args_spec hlen₁ (by decide) hc).mono fun c' s' ⟨args, hc', hargs, hs'⟩ => ?_
    refine ⟨.simple rs args, ?_, hc', ?_⟩
    · rwa [Nat.zero_add] at hargs
    · rw [hs₁, hs', Exec.tokens, append_assoc]

theorem parseblock_spec (hline : ∀ s, 4 * (view f s).length + 4 ≤ n →
      Gives (IsLine f s) (parseline n s))
    (hs : starts ['('] (view f s)) (hn : 4 * (view f s).length + 1 ≤ n + 1) :
    Gives (IsExec f s) (parseblock (n + 1) s) := by
  obtain ⟨ts, hv⟩ := eq_of_starts .lpar hs rfl (by decide)
  obtain ⟨-, hnext, -⟩ := gettoken_cons hv
  rw [parseblock_succ f, if_pos hs]
  rw [hv, length_cons] at hn
  refine (hline _ (by rw [hnext]; omega)).bind fun c s₁ ⟨l, hl, hc, hs₁⟩ => ?_
  rw [hnext] at hs₁
  split_ifs with hs
  · obtain ⟨ts', hv'⟩ := eq_of_starts .rpar hs rfl (by decide)
    obtain ⟨-, hnext', -⟩ := gettoken_cons hv'
    have hlen : ts.length = l.tokens.length + (ts'.length + 1) := by
      rw [hs₁, length_append, hv', length_cons]
    have hlen' : (view f (gettoken s₁).next).length < n := by rw [hnext']; omega
    refine (redirs_spec c hlen').mono fun c' s' ⟨rs, hc', hrs⟩ => ?_
    refine ⟨.block l rs, hl, ?_, ?_⟩
    · rw [hc', hc, Exec.cmd]
    · rw [hv, hs₁, hv', ← hnext', hrs, Exec.tokens, cons_append, append_assoc,
        cons_append]
  · exact mem_of_elem_eq_true rfl

theorem spec (f : Slice → W) (n : ℕ) :
    (∀ s, 4 * (view f s).length + 4 ≤ n → Gives (IsLine f s) (parseline n s)) ∧
      (∀ s, 4 * (view f s).length + 3 ≤ n → Gives (IsPipe f s) (parsepipe n s)) ∧
        (∀ s, 4 * (view f s).length + 2 ≤ n → Gives (IsExec f s) (parseexec n s)) ∧
          ∀ s, starts ['('] (view f s) → 4 * (view f s).length + 1 ≤ n →
            Gives (IsExec f s) (parseblock n s) := by
  induction n with
  | zero =>
    refine ⟨fun s h => ?_, fun s h => ?_, fun s h => ?_, fun s _ h => ?_⟩ <;> omega
  | succ n ih =>
    obtain ⟨hline, hpipe, hexec, hblock⟩ := ih
    exact ⟨fun s h => parseline_spec hpipe hline h, fun s h => parsepipe_spec hexec hpipe h,
      fun s h => parseexec_spec hblock h, fun s hs h => parseblock_spec hline hs h⟩

/-- **The parser returns the command of a derivation, or it stops with a message.** -/
theorem line_spec (hn : 4 * (view f s).length + 4 ≤ n) : Gives (IsLine f s) (parseline n s) :=
  (spec f n).1 s hn

/-! ### What the parser accepts -/

variable {r r' : List (Token W)}

/-- The parser returns the command, and these tokens are left. -/
def Yields (f : Slice → W) (x : Parsed) (c : Cmd W) (r : List (Token W)) : Prop :=
  ∃ c' s', x = .ok (c', s') ∧ c'.map f = c ∧ view f s' = r

section

variable {x : Parsed} {g : Cmd Slice × CStr → Parsed} {c d : Cmd W} {c' : Cmd Slice}

theorem Yields.ok (hc : c'.map f = c) (hs : view f s = r) : Yields f (.ok (c', s)) c r :=
  ⟨c', s, rfl, hc, hs⟩

theorem Yields.of_eq (h : Yields f x c r) (hc : c = d) : Yields f x d r := hc ▸ h

theorem Yields.bind (hx : Yields f x c r)
    (hg : ∀ c' s', c'.map f = c → view f s' = r → Yields f (g (c', s')) d r') :
    Yields f (x.bind g) d r' := by
  obtain ⟨c', s', rfl, hc, hs⟩ := hx
  exact hg c' s' hc hs

end

theorem redirs_complete {rs : List (Redir W)} (cmd : Cmd Slice)
    (hv : view f s = redirTokens rs ++ r) (hr : starts ['<', '>'] r = false) (hn : rs.length < n) :
    Yields f (parseredirs n cmd s) (wrap (cmd.map f) rs) r := by
  induction rs generalizing n cmd s with
  | nil =>
    obtain _ | n := n
    · cases hn
    rw [parseredirs_succ f, show view f s = r from hv, hr, if_neg Bool.false_ne_true]
    exact .ok rfl (view_skip.trans hv)
  | cons x rs ih =>
    obtain ⟨d, w⟩ := x
    obtain _ | n := n
    · cases hn
    obtain ⟨hret, hnext, -⟩ := gettoken_cons hv
    obtain ⟨hret', hnext', hword⟩ := gettoken_cons hnext
    rw [parseredirs_succ f, if_pos (by rw [hv]; exact d.starts_token),
      if_neg (by exact not_not.mpr hret')]
    refine (ih _ hnext' (Nat.lt_of_succ_lt_succ hn)).of_eq ?_
    rw [hret, redirect_token, Cmd.map, hword w rfl, wrap]

theorem args_complete {args : List (W × List (Redir W))} {argc : ℕ} {ret : Cmd Slice} {ws : List W}
    {rs : List (Redir W)} (hv : view f s = argTokens args ++ r) (hr : Ends ['|', ')', '&', ';'] r)
    (hargs : argc + args.length < maxargs) (hn : (argTokens args).length < n)
    (hret : ret.map f = wrap (.exec ws) rs) :
    Yields f (parseargs n ret argc s)
      (wrap (.exec (ws ++ args.map Prod.fst)) (rs ++ args.flatMap Prod.snd)) r := by
  induction args generalizing n ret argc s ws rs with
  | nil =>
    obtain _ | n := n
    · cases hn
    rw [parseargs_succ f, map_nil, flatMap_nil, append_nil, append_nil]
    obtain _ | ⟨t, r⟩ := r
    · rw [hv, if_neg (by exact Bool.noConfusion), if_pos (gettoken_nil hv).1]
      exact .ok hret (gettoken_nil hv).2
    · rw [if_pos (by rw [hv]; exact ends_cons.mp hr)]
      exact .ok hret (view_skip.trans hv)
  | cons x args ih =>
    obtain ⟨w, rs₁⟩ := x
    obtain _ | n := n
    · cases hn
    rw [argTokens, length_cons, length_append, length_redirTokens] at hn
    have hn : 2 * rs₁.length + (argTokens args).length + 1 < n + 1 := hn
    rw [length_cons] at hargs
    have hv : view f s = .word w :: (redirTokens rs₁ ++ (argTokens args ++ r)) := by
      rw [hv, argTokens, cons_append, append_assoc]
    obtain ⟨hword, hnext, hw⟩ := gettoken_cons hv
    rw [parseargs_succ f, if_neg (by rw [hv]; exact Bool.noConfusion),
      if_neg (hword ▸ Token.code_ne_zero _), if_neg (by exact not_not.mpr hword), if_neg (by omega)]
    refine (redirs_complete _ hnext (argTokens_starts (hr.starts (by decide))) (by omega)).bind
      fun c s₁ hc hs₁ => ?_
    refine (ih hs₁ (by omega) (by omega) (map_push_wrap hret (hw w rfl) hc)).of_eq ?_
    rw [map_cons, flatMap_cons, append_assoc, append_assoc]
    rfl

theorem backs_complete {k : ℕ} (cmd : Cmd Slice) (hv : view f s = List.replicate k .amp ++ r)
    (hr : starts ['&'] r = false) (hn : k < n) :
    Yields f (parsebacks n cmd s) (Cmd.back^[k] (cmd.map f)) r := by
  induction k generalizing n cmd s with
  | zero =>
    obtain _ | n := n
    · cases hn
    rw [parsebacks_succ f, show view f s = r from hv, hr, if_neg Bool.false_ne_true]
    exact .ok rfl (view_skip.trans hv)
  | succ k ih =>
    obtain _ | n := n
    · cases hn
    rw [parsebacks_succ f, if_pos (by rw [hv]; rfl)]
    exact ih (.back cmd) (gettoken_cons hv).2.1 (Nat.lt_of_succ_lt_succ hn)

mutual

/-- **The parser returns the command of a derivation for the line.** -/
theorem line_complete : ∀ {l : Line W} {s : CStr} {r : List (Token W)} {n : ℕ}, l.Ok →
    view f s = l.tokens ++ r → Ends [')'] r → 4 * l.tokens.length + 4 ≤ n →
      Yields f (parseline n s) l.cmd r
  | .last p k, s, r, n + 1, hok, hv, hr, hn => by
    rw [Line.tokens, append_assoc] at hv
    rw [Line.tokens, length_append, length_replicate] at hn
    rw [parseline_succ f, Line.cmd]
    refine (pipe_complete hok hv (ends_amps (hr.mono (by decide))) (by omega)).bind
      fun c s₁ hc hs₁ => ?_
    refine (backs_complete c hs₁ (hr.starts (by decide)) (by omega)).bind fun c₂ s₂ hc₂ hs₂ => ?_
    rw [hs₂, hr.starts (by decide), if_neg Bool.false_ne_true]
    exact .ok (by rw [hc₂, hc]) (view_skip.trans hs₂)
  | .semi p k l, s, r, n + 1, hok, hv, hr, hn => by
    rw [Line.tokens, append_assoc, append_assoc] at hv
    rw [Line.tokens, length_append, length_append, length_replicate, length_cons] at hn
    rw [parseline_succ f, Line.cmd]
    refine (pipe_complete hok.1 hv (ends_amps (ends_cons.mpr rfl)) (by omega)).bind
      fun c s₁ hc hs₁ => ?_
    refine (backs_complete c hs₁ rfl (by omega)).bind fun c₂ s₂ hc₂ hs₂ => ?_
    rw [if_pos (by rw [hs₂]; rfl)]
    refine (line_complete hok.2 (gettoken_cons hs₂).2.1 hr (by omega)).bind fun c₃ s₃ hc₃ hs₃ => ?_
    exact .ok (by rw [Cmd.map, hc₂, hc, hc₃]) hs₃

theorem pipe_complete : ∀ {p : Pipe W} {s : CStr} {r : List (Token W)} {n : ℕ}, p.Ok →
    view f s = p.tokens ++ r → Ends [')', '&', ';'] r → 4 * p.tokens.length + 3 ≤ n →
      Yields f (parsepipe n s) p.cmd r
  | .last e, s, r, n + 1, hok, hv, hr, hn => by
    rw [Pipe.tokens] at hv hn
    rw [parsepipe_succ f, Pipe.cmd]
    refine (exec_complete hok hv (hr.mono (by decide)) (by omega)).bind fun c s₁ hc hs₁ => ?_
    rw [hs₁, hr.starts (by decide), if_neg Bool.false_ne_true]
    exact .ok hc (view_skip.trans hs₁)
  | .bar e p, s, r, n + 1, hok, hv, hr, hn => by
    rw [Pipe.tokens, append_assoc] at hv
    rw [Pipe.tokens, length_append, length_cons] at hn
    rw [parsepipe_succ f, Pipe.cmd]
    refine (exec_complete hok.1 hv (ends_cons.mpr rfl) (by omega)).bind fun c s₁ hc hs₁ => ?_
    rw [if_pos (by rw [hs₁]; rfl)]
    refine (pipe_complete hok.2 (gettoken_cons hs₁).2.1 hr (by omega)).bind fun c₂ s₂ hc₂ hs₂ => ?_
    exact .ok (by rw [Cmd.map, hc, hc₂]) hs₂

theorem exec_complete : ∀ {e : Exec W} {s : CStr} {r : List (Token W)} {n : ℕ}, e.Ok →
    view f s = e.tokens ++ r → Ends ['|', ')', '&', ';'] r → 4 * e.tokens.length + 2 ≤ n →
      Yields f (parseexec n s) e.cmd r
  | .block l rs, s, r, n + 2, hok, hv, hr, hn => by
    rw [Exec.tokens, length_cons, length_append, length_cons, length_redirTokens] at hn
    have hv : view f s = .lpar :: (l.tokens ++ (.rpar :: (redirTokens rs ++ r))) := by
      rw [hv, Exec.tokens, cons_append, append_assoc, cons_append]
    have hlpar : starts ['('] (view f s) := by rw [hv]; rfl
    have hv' : view f (s.skip isBlank) = _ := view_skip.trans hv
    rw [parseexec_succ f, if_pos hlpar, parseblock_succ f, view_skip, if_pos hlpar, Exec.cmd]
    refine (line_complete hok (gettoken_cons hv').2.1 (ends_cons.mpr rfl) (by omega)).bind
      fun c s₁ hc hs₁ => ?_
    rw [if_pos (by rw [hs₁]; rfl), ← hc]
    exact redirs_complete c (gettoken_cons hs₁).2.1 (hr.starts (by decide)) (by omega)
  | .simple rs args, s, r, n + 1, hok, hv, hr, hn => by
    rw [Exec.tokens, length_append, length_redirTokens] at hn
    rw [parseexec_succ f, if_neg (by
      rw [hv, Exec.tokens, simple_starts (hr.starts (by decide))]
      exact Bool.noConfusion), Exec.cmd]
    rw [Exec.tokens, append_assoc] at hv
    refine (redirs_complete (.exec []) (view_skip.trans hv)
      (argTokens_starts (hr.starts (by decide))) (by omega)).bind fun c s₁ hc hs₁ => ?_
    exact args_complete hs₁ hr ((Nat.zero_add _).trans_lt hok) (by omega) hc

end

end Xv6.Sh
