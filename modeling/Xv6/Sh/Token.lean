import Mathlib.Data.List.TakeWhile
import Xv6.Sh.Parse

/-!
# The tokens of a line

What a line consists of, apart from blanks: the symbols and, between them, the words, as long as
they can be. The parser reads a line through `peek` and `gettoken` only, and
these two see of a line its tokens (`Xv6.Sh.peek_eq`, `Xv6.Sh.gettoken_nil`,
`Xv6.Sh.gettoken_cons`).
-/

namespace Xv6.Sh

open Lib List

/-- The tokens, with words of any kind. -/
inductive Token (W : Type) where
  | word (w : W)
  | bar
  | lpar
  | rpar
  | semi
  | amp
  | lt
  | gt
  /-- `>>` -/
  | app
  deriving DecidableEq

namespace Token

variable {W V : Type}

/-- The symbol that a token begins with. -/
def symbol : Token W → Option UInt8
  | word _ => none
  | bar => some '|'.toUInt8
  | lpar => some '('.toUInt8
  | rpar => some ')'.toUInt8
  | semi => some ';'.toUInt8
  | amp => some '&'.toUInt8
  | lt => some '<'.toUInt8
  | gt => some '>'.toUInt8
  | app => some '>'.toUInt8

/-- What `gettoken` returns for it. -/
def code : Token W → UInt8
  | word _ => 'a'.toUInt8
  | app => '+'.toUInt8
  | t => t.symbol.getD 0

/-- The same token with another word. -/
def map (f : W → V) : Token W → Token V
  | word w => word (f w)
  | bar => bar
  | lpar => lpar
  | rpar => rpar
  | semi => semi
  | amp => amp
  | lt => lt
  | gt => gt
  | app => app

theorem symbol_map (f : W → V) (t : Token W) : (t.map f).symbol = t.symbol := by
  cases t <;> rfl

theorem code_map (f : W → V) (t : Token W) : (t.map f).code = t.code := by
  cases t <;> rfl

theorem code_eq_word {t : Token W} (h : t.code = 'a'.toUInt8) : ∃ w, t = .word w := by
  have hunit : ∀ u : Token Unit, u.code = 'a'.toUInt8 → u = .word () := by
    rintro (⟨⟨⟩⟩ | _) <;> decide
  have hu := hunit (t.map fun _ => ()) (by rw [code_map, h])
  cases t with
  | word w => exact ⟨w, rfl⟩
  | _ => cases hu

theorem code_ne_zero (t : Token W) : t.code ≠ 0 := by
  have hunit : ∀ u : Token Unit, u.code ≠ 0 := by
    rintro (⟨⟨⟩⟩ | _) <;> decide
  rw [← code_map fun _ => ()]
  exact hunit _

/-- The token for a symbol of its own. -/
def single (c : UInt8) : Option (Token W) :=
  if c = '|'.toUInt8 then some bar
  else if c = '('.toUInt8 then some lpar
  else if c = ')'.toUInt8 then some rpar
  else if c = ';'.toUInt8 then some semi
  else if c = '&'.toUInt8 then some amp
  else if c = '<'.toUInt8 then some lt
  else none

end Token

/-- The blanks. -/
abbrev isBlank : UInt8 → Bool := strchr whitespace

theorem isWord_iff {c : UInt8} : isWord c ↔ ¬isBlank c ∧ ¬strchr symbols c := by
  rw [isWord, Bool.and_eq_true, Bool.not_eq_true', Bool.not_eq_true', Bool.not_eq_true,
    Bool.not_eq_true]

/-- A word is not empty. -/
theorem length_skip_lt {s : CStr} (h : isWord s.head) (hs : s.chars ≠ []) :
    (s.skip isWord).chars.length < s.chars.length := by
  rw [CStr.skip_of_pos hs h]
  exact Nat.lt_of_le_of_lt CStr.length_skip_le (CStr.length_tail_lt hs)

/-- **The tokens of a line.** -/
def tokens (s : CStr) : List (Token Slice) :=
  if hs : s.chars = [] then []
  else if isBlank s.head then tokens s.tail
  else if hw : isWord s.head then .word ⟨s, s.skip isWord⟩ :: tokens (s.skip isWord)
  else if s.head = '>'.toUInt8 then
    if s.tail.head = '>'.toUInt8 then .app :: tokens s.tail.tail else .gt :: tokens s.tail
  else (Token.single s.head).toList ++ tokens s.tail
termination_by s.chars.length
decreasing_by
  · exact CStr.length_tail_lt hs
  · exact length_skip_lt hw hs
  · exact Nat.lt_of_le_of_lt CStr.length_tail_le (CStr.length_tail_lt hs)
  · exact CStr.length_tail_lt hs
  · exact CStr.length_tail_lt hs

/-- A token has at least one byte. -/
theorem length_tokens_le (s : CStr) : (tokens s).length ≤ s.chars.length := by
  have htail : ∀ s : CStr, s.chars ≠ [] → s.tail.chars.length + 1 ≤ s.chars.length :=
    fun s hs => CStr.length_tail_lt hs
  fun_induction tokens s with
  | case1 => exact Nat.zero_le _
  | case2 s hs _ ih =>
    have := htail s hs
    omega
  | case3 s hs _ hw ih =>
    have := length_skip_lt hw hs
    rw [length_cons]
    omega
  | case4 s hs _ _ _ h ih =>
    have := htail s hs
    have hle : s.tail.tail.chars.length ≤ s.tail.chars.length := CStr.length_tail_le
    rw [length_cons]
    omega
  | case5 s hs _ _ _ _ ih =>
    have := htail s hs
    rw [length_cons]
    omega
  | case6 s hs _ _ _ ih =>
    have := htail s hs
    have hle : ∀ o : Option (Token Slice), o.toList.length ≤ 1 := fun o => by cases o <;> simp
    have := hle (Token.single s.head)
    rw [length_append]
    omega

/-! ### The line as the parser sees it -/

variable {s : CStr}

theorem tokens_nil (hs : s.chars = []) : tokens s = [] := by
  rw [tokens, dif_pos hs]

theorem tokens_blank (hs : s.chars ≠ []) (hb : isBlank s.head) : tokens s = tokens s.tail := by
  rw [tokens, dif_neg hs, if_pos hb]

theorem tokens_word (hs : s.chars ≠ []) (hw : isWord s.head) :
    tokens s = .word ⟨s, s.skip isWord⟩ :: tokens (s.skip isWord) := by
  rw [tokens, dif_neg hs, if_neg (isWord_iff.mp hw).1, dif_pos hw]

theorem tokens_gt (hs : s.head = '>'.toUInt8) :
    tokens s = if s.tail.head = '>'.toUInt8 then .app :: tokens s.tail.tail
      else .gt :: tokens s.tail := by
  have hz : ¬s.head = 0 := by rw [hs]; decide
  have hb : ¬isBlank s.head := by rw [hs]; decide
  have hw : ¬isWord s.head := by rw [hs]; decide
  rw [tokens, dif_neg (mt CStr.head_eq_zero.mpr hz), if_neg hb, dif_neg hw, if_pos hs]

/-- Blanks do not matter. -/
theorem tokens_skip : tokens (s.skip isBlank) = tokens s := by
  obtain ⟨l, hn⟩ := s
  induction l with
  | nil => rfl
  | cons c r ih =>
    by_cases hc : isBlank c
    · have hs : (⟨c :: r, hn⟩ : CStr).chars ≠ [] := cons_ne_nil c r
      rw [CStr.skip_of_pos hs hc, tokens_blank hs hc]
      exact ih _
    · rw [CStr.skip_of_neg hc]

theorem strchr_iff {toks : List Char} {c : UInt8} : strchr toks c ↔ ∃ x ∈ toks, x.toUInt8 = c := by
  rw [strchr, any_eq_true]
  exact exists_congr fun x => and_congr_right fun _ => beq_iff_eq

theorem Token.symbol_any {W : Type} {toks : List Char} {t : Token W} :
    t.symbol.any (strchr toks) ↔ ∃ x ∈ toks, t.symbol = some x.toUInt8 := by
  cases t.symbol with
  | none => exact ⟨(fun h => by cases h), fun ⟨x, _, h⟩ => by cases h⟩
  | some c =>
    refine strchr_iff.trans (exists_congr fun x => and_congr_right fun _ => ?_)
    exact ⟨fun h => congrArg some h.symm, fun h => (Option.some.inj h).symm⟩

/-- The kinds of bytes that a token may begin with. -/
theorem head_cases {c : UInt8} (hb : ¬isBlank c) :
    isWord c ∨ c = '>'.toUInt8 ∨ strchr ['|', '(', ')', ';', '&', '<'] c := by
  by_cases hs : strchr symbols c
  · obtain ⟨x, hx, rfl⟩ := strchr_iff.mp hs
    have hall : symbols.all fun x => x.toUInt8 = '>'.toUInt8 ∨
      strchr ['|', '(', ')', ';', '&', '<'] x.toUInt8 := by decide
    exact .inr (of_decide_eq_true (all_eq_true.mp hall x hx))
  · exact .inl (isWord_iff.mpr ⟨hb, hs⟩)

theorem single_eq {W : Type} {c : UInt8} (h : strchr ['|', '(', ')', ';', '&', '<'] c) :
    ∃ t : Token W, Token.single c = some t ∧ t.code = c ∧ t.symbol = some c := by
  obtain ⟨x, hx, rfl⟩ := strchr_iff.mp h
  simp only [mem_cons, not_mem_nil, or_false] at hx
  rcases hx with rfl | rfl | rfl | rfl | rfl | rfl
  · exact ⟨.bar, rfl, rfl, rfl⟩
  · exact ⟨.lpar, rfl, rfl, rfl⟩
  · exact ⟨.rpar, rfl, rfl, rfl⟩
  · exact ⟨.semi, rfl, rfl, rfl⟩
  · exact ⟨.amp, rfl, rfl, rfl⟩
  · exact ⟨.lt, rfl, rfl, rfl⟩

/-- The line begins with the token `t`, and `r` is the rest. -/
structure Reads (s : CStr) (t : Token Slice) (r : CStr) : Prop where
  gettoken_eq : gettoken s = ⟨t.code, ⟨s, r⟩, r.skip isBlank⟩
  tokens_eq : tokens s = t :: tokens r
  word : ∀ w, t = .word w → ⟨s, r⟩ = w

theorem reads_word (hs : s.chars ≠ []) (hw : isWord s.head) :
    Reads s (.word ⟨s, s.skip isWord⟩) (s.skip isWord) := by
  obtain ⟨hb, hsym⟩ := isWord_iff.mp hw
  have hq : s.skip (strchr whitespace) = s := CStr.skip_of_neg hb
  have hz : ¬s.head = 0 := mt CStr.head_eq_zero.mp hs
  have h1 : ¬strchr ['|', '(', ')', ';', '&', '<'] s.head := by
    intro hc
    obtain ⟨x, hx, hxc⟩ := strchr_iff.mp hc
    have hall : ['|', '(', ')', ';', '&', '<'].all symbols.contains := by decide
    exact hsym (strchr_iff.mpr ⟨x, contains_iff_mem.mp (all_eq_true.mp hall x hx), hxc⟩)
  have h2 : ¬s.head = '>'.toUInt8 := by
    intro hc
    exact hsym (strchr_iff.mpr ⟨'>', by decide, hc.symm⟩)
  refine ⟨?_, ?_, fun w hw => Token.word.inj hw⟩
  · simp only [gettoken, hq, if_neg hz, if_neg h1, if_neg h2]
    rfl
  · exact tokens_word hs hw

theorem reads_gt (hs : s.head = '>'.toUInt8) : Reads s .gt s.tail ∨ Reads s .app s.tail.tail := by
  have hb : ¬isBlank s.head := by rw [hs]; decide
  have hq : s.skip (strchr whitespace) = s := CStr.skip_of_neg hb
  have hz : ¬s.head = 0 := by rw [hs]; decide
  have h1 : ¬strchr ['|', '(', ')', ';', '&', '<'] s.head := by rw [hs]; decide
  by_cases hgt : s.tail.head = '>'.toUInt8
  · refine .inr ⟨?_, ?_, fun w hw => by cases hw⟩
    · simp only [gettoken, hq, if_neg hz, if_neg h1, if_pos hs, if_pos hgt]
      rfl
    · rw [tokens_gt hs, if_pos hgt]
  · refine .inl ⟨?_, ?_, fun w hw => by cases hw⟩
    · simp only [gettoken, hq, hs, if_neg hgt]
      rfl
    · rw [tokens_gt hs, if_neg hgt]

theorem tokens_single (hs : strchr ['|', '(', ')', ';', '&', '<'] s.head) :
    tokens s = (Token.single s.head).toList ++ tokens s.tail := by
  have hall : ['|', '(', ')', ';', '&', '<'].all fun x => ¬isBlank x.toUInt8 ∧
      ¬isWord x.toUInt8 ∧ ¬x.toUInt8 = 0 ∧ ¬x.toUInt8 = '>'.toUInt8 := by decide
  obtain ⟨x, hx, hxc⟩ := strchr_iff.mp hs
  obtain ⟨hb, hw, hz, hgt⟩ := hxc ▸ of_decide_eq_true (all_eq_true.mp hall x hx)
  rw [tokens, dif_neg (mt CStr.head_eq_zero.mpr hz), if_neg hb, dif_neg hw, if_neg hgt]

theorem reads_single (hs : strchr ['|', '(', ')', ';', '&', '<'] s.head) :
    ∃ t, Reads s t s.tail ∧ t.symbol = some s.head := by
  obtain ⟨t, ht, hcode, hsym⟩ : ∃ t : Token Slice, _ := single_eq hs
  have hall : ['|', '(', ')', ';', '&', '<'].all fun x =>
      ¬isBlank x.toUInt8 ∧ ¬x.toUInt8 = 0 := by decide
  obtain ⟨x, hx, hxc⟩ := strchr_iff.mp hs
  obtain ⟨hb, hz⟩ := hxc ▸ of_decide_eq_true (all_eq_true.mp hall x hx)
  have hq : s.skip (strchr whitespace) = s := CStr.skip_of_neg hb
  refine ⟨t, ⟨?_, ?_, ?_⟩, hsym⟩
  · simp only [gettoken, hq, if_neg hz, if_pos hs, hcode]
  · rw [tokens_single hs, ht]
    rfl
  · rintro w rfl
    cases hsym

/-- The line ends, or it begins with a token. -/
theorem exists_reads (s : CStr) (hb : s.chars = [] ∨ ¬isBlank s.head) :
    s.chars = [] ∨ ∃ t r, Reads s t r ∧
      ∀ toks : List Char, (∀ x ∈ toks, x ∈ symbols) →
        strchr toks s.head = t.symbol.any (strchr toks) := by
  by_cases hs : s.chars = []
  · exact .inl hs
  have hb := hb.resolve_left hs
  refine .inr ?_
  rcases head_cases hb with hw | hgt | h1
  · refine ⟨_, _, reads_word hs hw, fun toks ht => ?_⟩
    refine Bool.eq_false_iff.mpr fun hc => ?_
    obtain ⟨x, hx, hxc⟩ := strchr_iff.mp hc
    exact (isWord_iff.mp hw).2 (strchr_iff.mpr ⟨x, ht x hx, hxc⟩)
  · rcases reads_gt hgt with hr | hr
    · exact ⟨_, _, hr, fun toks _ => by rw [hgt]; rfl⟩
    · exact ⟨_, _, hr, fun toks _ => by rw [hgt]; rfl⟩
  · obtain ⟨t, hr, hsym⟩ := reads_single h1
    exact ⟨t, _, hr, fun toks _ => by rw [hsym]; rfl⟩

/-- The tokens of a line, with the words read in some way. -/
def view {W : Type} (f : Slice → W) (s : CStr) : List (Token W) := (tokens s).map (Token.map f)

theorem view_id : view id s = tokens s := by
  refine (map_congr_left fun t _ => ?_).trans (map_id _)
  cases t <;> rfl

/-- A list of tokens begins with one of the symbols. -/
def starts {W : Type} (toks : List Char) (ts : List (Token W)) : Bool :=
  (ts.head?.bind Token.symbol).any (strchr toks)

section View

variable {W : Type} {f : Slice → W} {t : Token W} {ts : List (Token W)}

theorem view_skip : view f (s.skip isBlank) = view f s := by
  rw [view, tokens_skip, view]

/-- **`peek` looks at the first token.** -/
theorem peek_eq {toks : List Char} (htoks : toks.all symbols.contains) :
    peek s toks = (s.skip isBlank, starts toks (view f s)) := by
  refine Prod.ext rfl ?_
  rw [← view_skip]
  rcases exists_reads (s.skip isBlank) CStr.head_skip with hs | ⟨t, r, hr, hsym⟩
  · rw [view, tokens_nil hs]
    exact decide_eq_false fun h => h.1 (CStr.head_eq_zero.mpr hs)
  · have hz : (s.skip isBlank).head ≠ 0 := by
      intro hz
      have := tokens_nil (CStr.head_eq_zero.mp hz)
      rw [hr.tokens_eq] at this
      cases this
    rw [view, hr.tokens_eq, starts, map_cons, head?_cons, Option.bind_some,
      Token.symbol_map, ← hsym toks fun x hx =>
        contains_iff_mem.mp (all_eq_true.mp htoks x hx)]
    exact Bool.eq_iff_iff.mpr (decide_eq_true_iff.trans (and_iff_right hz))

theorem gettoken_skip : gettoken (s.skip isBlank) = gettoken s := by
  have hq : (s.skip (strchr whitespace)).skip (strchr whitespace) = s.skip (strchr whitespace) := by
    rcases CStr.head_skip (s := s) (p := strchr whitespace) with hs | hb
    · refine CStr.ext ?_
      change (s.skip (strchr whitespace)).chars.dropWhile (strchr whitespace) = _
      rw [hs]
      rfl
    · exact CStr.skip_of_neg hb
  simp only [gettoken, isBlank, hq]

/-- The end of the line. -/
theorem view_eq_nil : view f s = [] ↔ (s.skip isBlank).chars = [] := by
  rw [← view_skip, view, map_eq_nil_iff]
  refine ⟨fun h => ?_, tokens_nil⟩
  rcases exists_reads (s.skip isBlank) CStr.head_skip with hs | ⟨t, r, hr, -⟩
  · exact hs
  · rw [hr.tokens_eq] at h
    cases h

/-- **`gettoken` at the end of the line.** -/
theorem gettoken_nil (h : view f s = []) :
    (gettoken s).ret = 0 ∧ view f (gettoken s).next = [] := by
  have hs := view_eq_nil.mp h
  have hz := CStr.head_eq_zero.mpr hs
  simp only [gettoken, if_pos hz]
  exact ⟨trivial, by rw [view_skip, view_skip, h]⟩

/-- **`gettoken` returns the first token.** -/
theorem gettoken_cons (h : view f s = t :: ts) :
    (gettoken s).ret = t.code ∧ view f (gettoken s).next = ts ∧
      ∀ w, t = .word w → f (gettoken s).word = w := by
  rcases exists_reads (s.skip isBlank) CStr.head_skip with hs | ⟨t, r, hr, -⟩
  · rw [view_eq_nil.mpr hs] at h
    cases h
  · rw [← view_skip, view, hr.tokens_eq, map_cons] at h
    obtain ⟨rfl, rfl⟩ := cons_eq_cons.mp h
    rw [← gettoken_skip, hr.gettoken_eq, Token.code_map]
    refine ⟨rfl, view_skip, fun w hw => ?_⟩
    cases t with
    | word v =>
      rw [hr.word v rfl]
      exact Token.word.inj hw
    | _ => cases hw

end View

/-! ### Words -/

/-- The bytes of a word. -/
def Slice.text (w : Slice) : List UInt8 := w.q.chars.take (w.q.chars.length - w.eq.chars.length)

/-- A word is a part of the line. Its bytes are neither blanks nor symbols, and it is as long as
it can be. -/
structure Slice.Of (w : Slice) (s : CStr) : Prop where
  ne_nil : w.text ≠ []
  isWord : ∀ c ∈ w.text, isWord c
  eq : w.q.chars = w.text ++ w.eq.chars
  ends : w.eq.chars = [] ∨ ¬Sh.isWord w.eq.head
  suffix : w.q.chars <:+ s.chars

theorem Slice.Of.trans {w : Slice} {s' : CStr} (h : w.Of s) (hs : s.chars <:+ s'.chars) : w.Of s' :=
  ⟨h.ne_nil, h.isWord, h.eq, h.ends, h.suffix.trans hs⟩

theorem text_mk {q eq : CStr} {l : List UInt8} (h : q.chars = l ++ eq.chars) :
    (⟨q, eq⟩ : Slice).text = l := by
  rw [Slice.text, h, length_append, Nat.add_sub_cancel, take_left]

theorem slice_of (hs : s.chars ≠ []) (hw : isWord s.head) : (⟨s, s.skip isWord⟩ : Slice).Of s := by
  have heq : s.chars = s.chars.takeWhile isWord ++ (s.skip isWord).chars :=
    takeWhile_append_dropWhile.symm
  have htext := text_mk heq
  refine ⟨?_, ?_, ?_, CStr.head_skip, suffix_refl _⟩
  · rw [htext]
    obtain ⟨_ | ⟨c, r⟩, hn⟩ := s
    · exact absurd rfl hs
    · have hc : isWord c := hw
      rw [takeWhile_cons_of_pos hc]
      exact cons_ne_nil _ _
  · rw [htext]
    exact fun c hc => mem_takeWhile_imp hc
  · rwa [htext]

/-- **The words of a line are parts of it.** -/
theorem of_mem_tokens {w : Slice} (h : .word w ∈ tokens s) : w.Of s := by
  have htail : ∀ s : CStr, s.tail.chars <:+ s.chars := fun s => tail_suffix _
  fun_induction tokens s with
  | case1 => cases h
  | case2 s _ _ ih => exact (ih h).trans (htail s)
  | case3 s hs _ hw ih =>
    rcases mem_cons.mp h with hc | h
    · obtain rfl := Token.word.inj hc
      exact slice_of hs hw
    · exact (ih h).trans (dropWhile_suffix _)
  | case4 s _ _ _ _ _ ih =>
    rcases mem_cons.mp h with hc | h
    · cases hc
    · exact (ih h).trans ((htail _).trans (htail s))
  | case5 s _ _ _ _ _ ih =>
    rcases mem_cons.mp h with hc | h
    · cases hc
    · exact (ih h).trans (htail s)
  | case6 s hs hb hw hgt ih =>
    rcases mem_append.mp h with hc | h
    · rcases head_cases hb with h1 | h1 | h1
      · exact absurd h1 hw
      · exact absurd h1 hgt
      · obtain ⟨t, ht, -, hsym⟩ := single_eq (W := Slice) h1
        rw [ht, Option.toList_some, mem_singleton] at hc
        rw [← hc] at hsym
        cases hsym
    · exact (ih h).trans (htail s)

end Xv6.Sh
