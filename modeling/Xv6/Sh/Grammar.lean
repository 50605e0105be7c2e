import Xv6.Sh.Token

/-!
# The grammar of the shell

A line is a pipeline, any number of `&`, and another line after a `;`; a pipeline is a
command, and another pipeline after a `|`; and a command is a line in parentheses with
redirections after it, or words with redirections anywhere between them. A
derivation of such a line is a tree (`Line`, `Pipe`, `Exec`). It has tokens and it stands for a
command, in which `|` and `;` are nested to the right, each `&` is put round the pipeline before it
and each redirection round the command so far.

**The grammar is unambiguous** (`Xv6.Sh.Line.tokens_injective`): a derivation is given by its tokens.
-/

namespace Xv6.Sh

open Lib List

/-! ### Derivations -/

/-- The symbols of redirections. -/
inductive Direction where
  | lt
  | gt
  | app
  deriving DecidableEq

/-- A redirection. -/
structure Redir (W : Type) where
  dir : Direction
  file : W

mutual

/-- A line: a pipeline and how many `&` there are after it. -/
inductive Line (W : Type) where
  | last (p : Pipe W) (amps : ℕ)
  | semi (p : Pipe W) (amps : ℕ) (l : Line W)

/-- A pipeline. -/
inductive Pipe (W : Type) where
  | last (e : Exec W)
  | bar (e : Exec W) (p : Pipe W)

/-- A command. The redirections of a simple one come before its words or after one of them. -/
inductive Exec (W : Type) where
  | block (l : Line W) (rs : List (Redir W))
  | simple (rs : List (Redir W)) (args : List (W × List (Redir W)))

end

variable {W V : Type}

/-! ### Tokens -/

def Direction.token : Direction → Token W
  | lt => .lt
  | gt => .gt
  | app => .app

/-- The tokens of redirections. -/
def redirTokens : List (Redir W) → List (Token W)
  | [] => []
  | r :: rs => r.dir.token :: .word r.file :: redirTokens rs

theorem length_redirTokens (rs : List (Redir W)) : (redirTokens rs).length = 2 * rs.length := by
  induction rs with
  | nil => rfl
  | cons r rs ih =>
    rw [redirTokens, length_cons, length_cons, ih, length_cons]
    omega

/-- The tokens of words and redirections. -/
def argTokens : List (W × List (Redir W)) → List (Token W)
  | [] => []
  | x :: args => .word x.1 :: (redirTokens x.2 ++ argTokens args)

mutual

/-- **The tokens of a line.** -/
def Line.tokens : Line W → List (Token W)
  | .last p k => p.tokens ++ List.replicate k .amp
  | .semi p k l => p.tokens ++ (List.replicate k .amp ++ .semi :: l.tokens)

def Pipe.tokens : Pipe W → List (Token W)
  | .last e => e.tokens
  | .bar e p => e.tokens ++ .bar :: p.tokens

def Exec.tokens : Exec W → List (Token W)
  | .block l rs => .lpar :: (l.tokens ++ .rpar :: redirTokens rs)
  | .simple rs args => redirTokens rs ++ argTokens args

end

/-! ### Commands -/

def Direction.mode : Direction → ℕ
  | lt => rdonly
  | gt => wronlyCreate
  | app => wronlyCreate

def Direction.fd : Direction → ℕ
  | lt => 0
  | gt => 1
  | app => 1

/-- Redirections round a command. -/
def wrap (c : Cmd W) : List (Redir W) → Cmd W
  | [] => c
  | r :: rs => wrap (.redir c r.file r.dir.mode r.dir.fd) rs

mutual

/-- **The command of a line.** -/
def Line.cmd : Line W → Cmd W
  | .last p k => Cmd.back^[k] p.cmd
  | .semi p k l => .list (Cmd.back^[k] p.cmd) l.cmd

def Pipe.cmd : Pipe W → Cmd W
  | .last e => e.cmd
  | .bar e p => .pipe e.cmd p.cmd

def Exec.cmd : Exec W → Cmd W
  | .block l rs => wrap l.cmd rs
  | .simple rs args => wrap (.exec (args.map Prod.fst)) (rs ++ args.flatMap Prod.snd)

end

mutual

/-- There are less than `MAXARGS` words in each simple command. -/
def Line.Ok : Line W → Prop
  | .last p _ => p.Ok
  | .semi p _ l => p.Ok ∧ l.Ok

def Pipe.Ok : Pipe W → Prop
  | .last e => e.Ok
  | .bar e p => e.Ok ∧ p.Ok

def Exec.Ok : Exec W → Prop
  | .block l _ => l.Ok
  | .simple _ args => args.length < maxargs

end

/-! ### What comes after a part of a line -/

variable {toks toks' : List Char} {t : Token W} {ts r r' : List (Token W)}

/-- The tokens are at the end, or they begin with one of the symbols. -/
def Ends (toks : List Char) (ts : List (Token W)) : Prop :=
  ∀ t ∈ ts.head?, t.symbol.any (strchr toks)

theorem ends_nil : Ends toks ([] : List (Token W)) := fun _ h => by cases h

theorem ends_cons : Ends toks (t :: ts) ↔ t.symbol.any (strchr toks) :=
  ⟨fun h => h t rfl, fun h _ ht => Option.some.inj ht ▸ h⟩

theorem starts_cons : starts toks (t :: ts) = t.symbol.any (strchr toks) := rfl

/-- What ends a part does not begin something else. -/
theorem Ends.starts (h : Ends toks ts) (hne : toks.all fun x => !strchr toks' x.toUInt8) :
    starts toks' ts = false := by
  obtain _ | ⟨t, ts⟩ := ts
  · rfl
  · obtain ⟨x, hx, hs⟩ := Token.symbol_any.mp (ends_cons.mp h)
    rw [starts_cons, hs]
    exact Bool.not_eq_true' _ ▸ all_eq_true.mp hne x hx

theorem Ends.mono (h : Ends toks ts) (hsub : toks.all fun x => strchr toks' x.toUInt8) :
    Ends toks' ts := by
  obtain _ | ⟨t, ts⟩ := ts
  · exact ends_nil
  · obtain ⟨x, hx, hs⟩ := Token.symbol_any.mp (ends_cons.mp h)
    rw [ends_cons, hs]
    exact all_eq_true.mp hsub x hx

/-! ### The grammar is unambiguous -/

/-- A redirection begins with its symbol. -/
theorem Direction.starts_token (d : Direction) : Sh.starts ['<', '>'] (d.token :: ts) = true := by
  cases d <;> rfl

theorem Direction.token_inj {d d' : Direction} (h : (d.token : Token W) = d'.token) : d = d' := by
  cases d <;> cases d' <;> first | rfl | cases h

theorem redirTokens_inj {rs rs' : List (Redir W)} (h : redirTokens rs ++ r = redirTokens rs' ++ r')
    (hr : starts ['<', '>'] r = false) (hr' : starts ['<', '>'] r' = false) :
    rs = rs' ∧ r = r' := by
  induction rs generalizing rs' with
  | nil =>
    obtain _ | ⟨x, rs'⟩ := rs'
    · exact ⟨rfl, h⟩
    · rw [show r = _ from h] at hr
      exact absurd (x.dir.starts_token.symm.trans hr) Bool.noConfusion
  | cons x rs ih =>
    obtain _ | ⟨x', rs'⟩ := rs'
    · rw [show r' = _ from h.symm] at hr'
      exact absurd (x.dir.starts_token.symm.trans hr') Bool.noConfusion
    · obtain ⟨hd, h⟩ := cons_eq_cons.mp h
      obtain ⟨hw, h⟩ := cons_eq_cons.mp h
      obtain ⟨rfl, rfl⟩ := ih h
      obtain ⟨d', w'⟩ := x'
      obtain rfl := Direction.token_inj hd
      obtain rfl := Token.word.inj hw
      exact ⟨rfl, rfl⟩

/-- Words do not begin with a symbol. -/
theorem argTokens_starts {args : List (W × List (Redir W))}
    (hr : starts toks r = false) : starts toks (argTokens args ++ r) = false := by
  obtain _ | ⟨x, args⟩ := args
  · exact hr
  · rfl

theorem argTokens_inj {args args' : List (W × List (Redir W))}
    (h : argTokens args ++ r = argTokens args' ++ r') (hr : Ends ['|', ')', '&', ';'] r)
    (hr' : Ends ['|', ')', '&', ';'] r') : args = args' ∧ r = r' := by
  have hs : starts ['<', '>'] r = false := hr.starts (by decide)
  have hs' : starts ['<', '>'] r' = false := hr'.starts (by decide)
  induction args generalizing args' with
  | nil =>
    obtain _ | ⟨x, args'⟩ := args'
    · exact ⟨rfl, h⟩
    · rw [show r = _ from h] at hr
      exact absurd (ends_cons.mp hr) Bool.noConfusion
  | cons x args ih =>
    obtain _ | ⟨x', args'⟩ := args'
    · rw [show r' = _ from h.symm] at hr'
      exact absurd (ends_cons.mp hr') Bool.noConfusion
    · rw [argTokens, argTokens, cons_append, cons_append, cons_eq_cons,
        append_assoc, append_assoc] at h
      obtain ⟨hw, h⟩ := h
      obtain ⟨hx, h⟩ := redirTokens_inj h (argTokens_starts hs) (argTokens_starts hs')
      obtain ⟨rfl, rfl⟩ := ih h
      obtain ⟨w, rs⟩ := x
      obtain ⟨w', rs'⟩ := x'
      obtain rfl := Token.word.inj hw
      obtain rfl : rs = rs' := hx
      exact ⟨rfl, rfl⟩

theorem amps_inj {k k' : ℕ} (h : List.replicate k .amp ++ r = List.replicate k' .amp ++ r')
    (hr : starts ['&'] r = false) (hr' : starts ['&'] r' = false) : k = k' ∧ r = r' := by
  induction k generalizing k' with
  | zero =>
    obtain _ | k' := k'
    · exact ⟨rfl, h⟩
    · rw [show r = _ from h] at hr
      cases hr
  | succ k ih =>
    obtain _ | k' := k'
    · rw [show r' = _ from h.symm] at hr'
      cases hr'
    · obtain ⟨rfl, rfl⟩ := ih (cons_eq_cons.mp h).2
      exact ⟨rfl, rfl⟩

/-- What comes after the pipeline of a line. -/
theorem ends_amps {k : ℕ} (hr : Ends [')', ';'] r) :
    Ends [')', '&', ';'] (List.replicate k .amp ++ r) := by
  obtain _ | k := k
  · exact hr.mono (by decide)
  · exact ends_cons.mpr rfl

/-- A simple command does not begin with a parenthesis. -/
theorem simple_starts {rs : List (Redir W)} {args : List (W × List (Redir W))}
    (hr : starts ['('] r = false) : starts ['('] (redirTokens rs ++ argTokens args ++ r) = false := by
  obtain _ | ⟨⟨d, w⟩, rs⟩ := rs
  · exact argTokens_starts hr
  · cases d <;> rfl

mutual

theorem Line.tokens_inj : ∀ {l l' : Line W} {r r' : List (Token W)},
    l.tokens ++ r = l'.tokens ++ r' → Ends [')'] r → Ends [')'] r' → l = l' ∧ r = r'
  | .last p k, .last p' k', r, r', h, hr, hr' => by
    rw [Line.tokens, Line.tokens, append_assoc, append_assoc] at h
    obtain ⟨rfl, h₁⟩ := Pipe.tokens_inj h (ends_amps (hr.mono (by decide)))
      (ends_amps (hr'.mono (by decide)))
    obtain ⟨rfl, rfl⟩ := amps_inj h₁ (hr.starts (by decide)) (hr'.starts (by decide))
    exact ⟨rfl, rfl⟩
  | .last p k, .semi p' k' l', r, r', h, hr, hr' => by
    rw [Line.tokens, Line.tokens, append_assoc, append_assoc, append_assoc] at h
    obtain ⟨rfl, h₁⟩ := Pipe.tokens_inj h (ends_amps (hr.mono (by decide)))
      (ends_amps (ends_cons.mpr rfl))
    obtain ⟨rfl, rfl⟩ := amps_inj h₁ (hr.starts (by decide)) rfl
    exact absurd (ends_cons.mp hr) Bool.noConfusion
  | .semi p k l, .last p' k', r, r', h, hr, hr' => by
    rw [Line.tokens, Line.tokens, append_assoc, append_assoc, append_assoc] at h
    obtain ⟨rfl, h₁⟩ := Pipe.tokens_inj h (ends_amps (ends_cons.mpr rfl))
      (ends_amps (hr'.mono (by decide)))
    obtain ⟨rfl, rfl⟩ := amps_inj h₁ rfl (hr'.starts (by decide))
    exact absurd (ends_cons.mp hr') Bool.noConfusion
  | .semi p k l, .semi p' k' l', r, r', h, hr, hr' => by
    rw [Line.tokens, Line.tokens, append_assoc, append_assoc, append_assoc,
      append_assoc] at h
    obtain ⟨rfl, h₁⟩ := Pipe.tokens_inj h (ends_amps (ends_cons.mpr rfl))
      (ends_amps (ends_cons.mpr rfl))
    obtain ⟨rfl, h₂⟩ := amps_inj h₁ rfl rfl
    obtain ⟨rfl, rfl⟩ := Line.tokens_inj (cons_eq_cons.mp h₂).2 hr hr'
    exact ⟨rfl, rfl⟩

theorem Pipe.tokens_inj : ∀ {p p' : Pipe W} {r r' : List (Token W)},
    p.tokens ++ r = p'.tokens ++ r' → Ends [')', '&', ';'] r → Ends [')', '&', ';'] r' →
      p = p' ∧ r = r'
  | .last e, .last e', r, r', h, hr, hr' => by
    obtain ⟨rfl, rfl⟩ := Exec.tokens_inj h (hr.mono (by decide)) (hr'.mono (by decide))
    exact ⟨rfl, rfl⟩
  | .last e, .bar e' p', r, r', h, hr, hr' => by
    rw [Pipe.tokens, Pipe.tokens, append_assoc] at h
    obtain ⟨rfl, rfl⟩ := Exec.tokens_inj h (hr.mono (by decide)) (ends_cons.mpr rfl)
    exact absurd (ends_cons.mp hr) Bool.noConfusion
  | .bar e p, .last e', r, r', h, hr, hr' => by
    rw [Pipe.tokens, Pipe.tokens, append_assoc] at h
    obtain ⟨rfl, rfl⟩ := Exec.tokens_inj h (ends_cons.mpr rfl) (hr'.mono (by decide))
    exact absurd (ends_cons.mp hr') Bool.noConfusion
  | .bar e p, .bar e' p', r, r', h, hr, hr' => by
    rw [Pipe.tokens, Pipe.tokens, append_assoc, append_assoc] at h
    obtain ⟨rfl, h₁⟩ := Exec.tokens_inj h (ends_cons.mpr rfl) (ends_cons.mpr rfl)
    obtain ⟨rfl, rfl⟩ := Pipe.tokens_inj (cons_eq_cons.mp h₁).2 hr hr'
    exact ⟨rfl, rfl⟩

theorem Exec.tokens_inj : ∀ {e e' : Exec W} {r r' : List (Token W)},
    e.tokens ++ r = e'.tokens ++ r' → Ends ['|', ')', '&', ';'] r → Ends ['|', ')', '&', ';'] r' →
      e = e' ∧ r = r'
  | .block l rs, .block l' rs', r, r', h, hr, hr' => by
    rw [Exec.tokens, Exec.tokens, cons_append, cons_append, cons_eq_cons,
      append_assoc, append_assoc] at h
    obtain ⟨rfl, h₁⟩ := Line.tokens_inj h.2 (ends_cons.mpr rfl) (ends_cons.mpr rfl)
    obtain ⟨rfl, rfl⟩ := redirTokens_inj (cons_eq_cons.mp h₁).2 (hr.starts (by decide))
      (hr'.starts (by decide))
    exact ⟨rfl, rfl⟩
  | .block l rs, .simple rs' args', r, r', h, hr, hr' => by
    have hs : starts ['('] (redirTokens rs' ++ argTokens args' ++ r') = false :=
      simple_starts (hr'.starts (by decide))
    rw [Exec.tokens, Exec.tokens] at h
    rw [← h] at hs
    cases hs
  | .simple rs args, .block l' rs', r, r', h, hr, hr' => by
    have hs : starts ['('] (redirTokens rs ++ argTokens args ++ r) = false :=
      simple_starts (hr.starts (by decide))
    rw [Exec.tokens, Exec.tokens] at h
    rw [h] at hs
    cases hs
  | .simple rs args, .simple rs' args', r, r', h, hr, hr' => by
    rw [Exec.tokens, Exec.tokens, append_assoc, append_assoc] at h
    obtain ⟨rfl, h₁⟩ := redirTokens_inj h (argTokens_starts (hr.starts (by decide)))
      (argTokens_starts (hr'.starts (by decide)))
    obtain ⟨rfl, rfl⟩ := argTokens_inj h₁ hr hr'
    exact ⟨rfl, rfl⟩

end

/-- **The grammar is unambiguous.** -/
theorem Line.tokens_injective {l l' : Line W} (h : l.tokens = l'.tokens) : l = l' := by
  have happ : l.tokens ++ [] = l'.tokens ++ [] := by rw [h]
  exact (Line.tokens_inj happ ends_nil ends_nil).1

end Xv6.Sh
