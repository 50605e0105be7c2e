import Mathlib.Computability.Language
import Xv6.Lib.Str

/-!
# The matcher of `grep`

`match`, `matchhere` and `matchstar` of `grep.c`: two functions that call each other go through the
pattern and through the text, and try all ways for a `*` to be followed. The recursion goes to a
shorter pattern, or to a shorter text, so that the functions end on all inputs.

A pattern is read from left to right. A `^` at its beginning and a `$` at its end are anchors, and
what is between them is a list of items: a character with a `*` after it, or a character alone, where
a dot stands for every one (`Item`, `body`). The items denote a language. **The matcher finds out
whether some part of the text is in it**, at the beginning or at the end of the text if there are
anchors (`Xv6.Grep.matcher_iff`).
-/

namespace Xv6.Grep

open Lib Computability List

mutual

/-- **`matchhere`** -/
def matchhere (re text : CStr) : Bool :=
  if _ : re.head = 0 then true
  else if re.tail.head = '*'.toUInt8 then matchstar re.head re.tail.tail text
  else if re.head = '$'.toUInt8 ∧ re.tail.head = 0 then text.head = 0
  else if text.head ≠ 0 ∧ (re.head = '.'.toUInt8 ∨ re.head = text.head) then
    matchhere re.tail text.tail
  else false
termination_by (re.chars.length, text.chars.length, 0)
decreasing_by
  · have hre : re.chars ≠ [] := mt CStr.head_eq_zero.mpr ‹_›
    exact Prod.Lex.left _ _ (CStr.length_tail_le.trans_lt (CStr.length_tail_lt hre))
  · have hre : re.chars ≠ [] := mt CStr.head_eq_zero.mpr ‹_›
    exact Prod.Lex.left _ _ (CStr.length_tail_lt hre)

/-- **`matchstar`** -/
def matchstar (c : UInt8) (re text : CStr) : Bool :=
  if matchhere re text then true
  else if _ : text.head ≠ 0 ∧ (text.head = c ∨ c = '.'.toUInt8) then matchstar c re text.tail
  else false
termination_by (re.chars.length, text.chars.length, 1)
decreasing_by
  · exact Prod.Lex.right _ (Prod.Lex.right _ Nat.one_pos)
  · have htext : text.chars ≠ [] := mt CStr.head_eq_zero.mpr (And.left ‹_›)
    exact Prod.Lex.right _ (Prod.Lex.left _ _ (CStr.length_tail_lt htext))

end

/-- The loop of `match`. -/
def matchLoop (re text : CStr) : Bool :=
  if matchhere re text then true
  else if _ : text.head ≠ 0 then matchLoop re text.tail
  else false
termination_by text.chars.length
decreasing_by
  exact CStr.length_tail_lt (mt CStr.head_eq_zero.mpr ‹_›)

/-- **`match`** -/
def matcher (re text : CStr) : Bool :=
  if re.head = '^'.toUInt8 then matchhere re.tail text else matchLoop re text

/-! ### Patterns -/

/-- A part of a pattern: a character, or a character and a `*`. -/
inductive Item where
  | one (c : UInt8)
  | star (c : UInt8)

/-- The character `c` of a pattern stands for `x`. -/
def Fits (c x : UInt8) : Prop := c = '.'.toUInt8 ∨ c = x

/-- The words of one character that `c` stands for. -/
def single (c : UInt8) : Language UInt8 := {w | ∃ x, Fits c x ∧ w = [x]}

/-- The language of an item. -/
def Item.lang : Item → Language UInt8
  | .one c => single c
  | .star c => (single c)∗

/-- The items of a pattern without a `^`, and whether there is a `$` at the end. -/
def body : List UInt8 → List Item × Bool
  | [] => ([], false)
  | [c] => if c = '$'.toUInt8 then ([], true) else ([.one c], false)
  | c :: d :: r =>
    if d = '*'.toUInt8 then (.star c :: (body r).1, (body r).2)
    else (.one c :: (body (d :: r)).1, (body (d :: r)).2)

/-- **What the items denote.** -/
def lang (items : List Item) : Language UInt8 := (items.map Item.lang).prod

/-- The text begins with a word that the items denote, and it is all of the text if there is a `$`. -/
def Begins (p : List Item × Bool) (text : List UInt8) : Prop :=
  ∃ w post, text = w ++ post ∧ w ∈ lang p.1 ∧ (p.2 → post = [])

/-- **A text has a part that a pattern denotes**, and that part is at the beginning of the text if
there is a `^`, and at the end of it if there is a `$`. -/
def Matches (re text : List UInt8) : Prop :=
  if re.head? = some '^'.toUInt8 then Begins (body re.tail) text
  else ∃ pre rest, text = pre ++ rest ∧ Begins (body re) rest

variable {c x : UInt8} {items : List Item} {b : Bool} {re text : CStr} {l w : List UInt8}

/-! ### The language of the items -/

theorem mem_single_star : w ∈ (single c)∗ ↔ ∀ x ∈ w, Fits c x := by
  constructor
  · intro hw
    obtain ⟨L, rfl, hL⟩ := Language.mem_kstar.mp hw
    intro x hx
    obtain ⟨y, hy, hxy⟩ := mem_flatten.mp hx
    obtain ⟨z, hz, rfl⟩ := hL y hy
    rwa [mem_singleton.mp hxy]
  · intro hw
    refine Language.mem_kstar.mpr ⟨w.map fun x => [x], ?_, ?_⟩
    · rw [← flatMap_def, flatMap_singleton']
    · intro y hy
      obtain ⟨x, hx, rfl⟩ := mem_map.mp hy
      exact ⟨x, hw x hx, rfl⟩

/-- No items denote the empty word. -/
theorem begins_nil : Begins ([], b) l ↔ (b → l = []) := by
  constructor
  · rintro ⟨w, post, rfl, hw, hb⟩ hb'
    obtain rfl : w = [] := hw
    exact hb hb'
  · exact fun hb => ⟨[], l, rfl, rfl, hb⟩

/-- The first item is a character. -/
theorem begins_one :
    Begins (.one c :: items, b) l ↔ ∃ x r, l = x :: r ∧ Fits c x ∧ Begins (items, b) r := by
  constructor
  · rintro ⟨w, post, rfl, hw, hb⟩
    obtain ⟨_, ⟨x, hx, rfl⟩, v, hv, rfl⟩ := Language.mem_mul.mp hw
    exact ⟨x, v ++ post, rfl, hx, v, post, rfl, hv, hb⟩
  · rintro ⟨x, r, rfl, hx, w, post, rfl, hw, hb⟩
    exact ⟨x :: w, post, rfl, Language.mem_mul.mpr ⟨[x], ⟨x, hx, rfl⟩, w, hw, rfl⟩, hb⟩

/-- The first item is a character and a `*`. -/
theorem begins_star :
    Begins (.star c :: items, b) l ↔
      ∃ u r, l = u ++ r ∧ (∀ x ∈ u, Fits c x) ∧ Begins (items, b) r := by
  constructor
  · rintro ⟨w, post, rfl, hw, hb⟩
    obtain ⟨u, hu, v, hv, rfl⟩ := Language.mem_mul.mp hw
    exact ⟨u, v ++ post, append_assoc .., mem_single_star.mp hu, v, post, rfl, hv, hb⟩
  · rintro ⟨u, r, rfl, hu, w, post, rfl, hw, hb⟩
    refine ⟨u ++ w, post, (append_assoc ..).symm, ?_, hb⟩
    exact Language.mem_mul.mpr ⟨u, mem_single_star.mpr hu, w, hw, rfl⟩

/-- A character and a `*` stand for nothing, or for one character and again for some. -/
theorem begins_star_iff :
    Begins (.star c :: items, b) l ↔
      Begins (items, b) l ∨ ∃ x r, l = x :: r ∧ Fits c x ∧ Begins (.star c :: items, b) r := by
  rw [begins_star]
  constructor
  · rintro ⟨_ | ⟨x, u⟩, r, rfl, hu, hr⟩
    · exact .inl hr
    · obtain ⟨hx, hu⟩ := forall_mem_cons.mp hu
      exact .inr ⟨x, u ++ r, rfl, hx, begins_star.mpr ⟨u, r, rfl, hu, hr⟩⟩
  · rintro (hl | ⟨x, r, rfl, hx, hr⟩)
    · exact ⟨[], l, rfl, forall_mem_nil _, hl⟩
    · obtain ⟨u, r, rfl, hu, hr⟩ := begins_star.mp hr
      exact ⟨x :: u, r, rfl, forall_mem_cons.mpr ⟨hx, hu⟩, hr⟩

/-! ### The functions -/

/-- A text that begins with some character with a property. -/
theorem exists_cons_iff {p : UInt8 → Prop} {q : List UInt8 → Prop} :
    (∃ x r, text.chars = x :: r ∧ p x ∧ q r) ↔ text.head ≠ 0 ∧ p text.head ∧ q text.tail.chars := by
  constructor
  · rintro ⟨x, r, hxr, hx, hr⟩
    obtain ⟨rfl, rfl⟩ := CStr.head_tail_of_eq hxr
    refine ⟨fun hz => ?_, hx, hr⟩
    rw [CStr.head_eq_zero.mp hz] at hxr
    cases hxr
  · rintro ⟨hz, hx, hr⟩
    exact ⟨text.head, text.tail.chars, CStr.chars_eq (mt CStr.head_eq_zero.mpr hz), hx, hr⟩

/-- The loop of `matchstar`, if `matchhere` is right for the pattern after the `*`. -/
theorem matchstar_iff (h : ∀ text, matchhere re text ↔ Begins (items, b) text.chars)
    (text : CStr) : matchstar c re text ↔ Begins (.star c :: items, b) text.chars := by
  -- One round of the loop, and the induction is on the text that is left.
  rw [matchstar, begins_star_iff, exists_cons_iff, ← h text]
  split_ifs with hhere hmore
  · exact iff_of_true rfl (.inl hhere)
  · have hfits : Fits c text.head := hmore.2.symm.imp_right Eq.symm
    rw [matchstar_iff h text.tail]
    exact ⟨fun hr => .inr ⟨hmore.1, hfits, hr⟩,
      fun ho => ho.elim (fun hh => absurd hh hhere) fun hr => hr.2.2⟩
  · refine iff_of_false id ?_
    rintro (hh | ⟨hz, hfits, -⟩)
    · exact hhere hh
    · exact hmore ⟨hz, hfits.symm.imp_left Eq.symm⟩
termination_by text.chars.length
decreasing_by
  exact CStr.length_tail_lt (mt CStr.head_eq_zero.mpr hmore.1)

/-- A character that is no anchor and has no `*` after it. -/
theorem body_one (hstar : re.tail.head ≠ '*'.toUInt8)
    (hdollar : ¬(re.head = '$'.toUInt8 ∧ re.tail.head = 0)) (hre : re.chars ≠ []) :
    body re.chars = (.one re.head :: (body re.tail.chars).1, (body re.tail.chars).2) := by
  rw [CStr.chars_eq hre]
  by_cases ht : re.tail.chars = []
  · rw [ht]
    exact if_neg fun hc => hdollar ⟨hc, CStr.head_eq_zero.mpr ht⟩
  · rw [CStr.chars_eq ht, body, if_neg hstar]

/-- **`matchhere` looks at the beginning of the text.** -/
theorem matchhere_iff (re text : CStr) : matchhere re text ↔ Begins (body re.chars) text.chars := by
  rw [matchhere]
  split_ifs with hend hstar hdollar hfits
  · rw [CStr.head_eq_zero.mp hend, body, begins_nil]
    exact iff_of_true rfl (fun hf => by cases hf)
  · have hre : re.chars ≠ [] := mt CStr.head_eq_zero.mpr hend
    have ht : re.tail.chars ≠ [] := fun h => by
      rw [CStr.head_eq_zero.mpr h] at hstar
      cases hstar
    have hbody : body re.chars =
        (.star re.head :: (body re.tail.tail.chars).1, (body re.tail.tail.chars).2) := by
      rw [CStr.chars_eq hre, CStr.chars_eq ht, body, if_pos hstar]
    rw [hbody]
    exact matchstar_iff (fun text => matchhere_iff re.tail.tail text) text
  · have hre : re.chars ≠ [] := mt CStr.head_eq_zero.mpr hend
    rw [CStr.chars_eq hre, CStr.head_eq_zero.mp hdollar.2, body, if_pos hdollar.1, begins_nil]
    exact decide_eq_true_iff.trans (CStr.head_eq_zero.trans ⟨fun h _ => h, fun h => h rfl⟩)
  · have hre : re.chars ≠ [] := mt CStr.head_eq_zero.mpr hend
    rw [body_one hstar hdollar hre, begins_one, exists_cons_iff, matchhere_iff re.tail text.tail]
    exact ⟨fun h => ⟨hfits.1, hfits.2, h⟩, fun h => h.2.2⟩
  · have hre : re.chars ≠ [] := mt CStr.head_eq_zero.mpr hend
    rw [body_one hstar hdollar hre, begins_one, exists_cons_iff]
    exact iff_of_false id fun h => hfits ⟨h.1, h.2.1⟩
termination_by re.chars.length
decreasing_by
  · exact CStr.length_tail_le.trans_lt (CStr.length_tail_lt hre)
  · exact CStr.length_tail_lt hre

/-- The loop looks at all parts of the text that reach to its end. -/
theorem matchLoop_iff (re text : CStr) :
    matchLoop re text ↔ ∃ pre rest, text.chars = pre ++ rest ∧ Begins (body re.chars) rest := by
  rw [matchLoop]
  split_ifs with hhere hmore
  · exact iff_of_true rfl ⟨[], text.chars, rfl, (matchhere_iff re text).mp hhere⟩
  · rw [matchLoop_iff re text.tail]
    have htext := CStr.chars_eq (mt CStr.head_eq_zero.mpr hmore)
    constructor
    · rintro ⟨pre, rest, ht, hr⟩
      exact ⟨text.head :: pre, rest, by rw [htext, ht]; rfl, hr⟩
    · rintro ⟨_ | ⟨x, pre⟩, rest, ht, hr⟩
      · obtain rfl : text.chars = rest := ht
        exact absurd ((matchhere_iff re text).mpr hr) hhere
      · exact ⟨pre, rest, (CStr.head_tail_of_eq ht).2, hr⟩
  · have hnil : text.chars = [] := CStr.head_eq_zero.mp (not_not.mp hmore)
    refine iff_of_false id ?_
    rintro ⟨pre, rest, ht, hr⟩
    obtain ⟨-, rfl⟩ := append_eq_nil_iff.mp (ht.symm.trans hnil)
    exact hhere ((matchhere_iff re text).mpr (hnil ▸ hr))
termination_by text.chars.length
decreasing_by
  exact CStr.length_tail_lt (mt CStr.head_eq_zero.mpr hmore)

/-- **The matcher is right**: `match` returns one just if some part of the text is in the language of
the pattern, at the places that the anchors of the pattern say. -/
theorem matcher_iff (re text : CStr) : matcher re text ↔ Matches re.chars text.chars := by
  have hhead : re.head = '^'.toUInt8 ↔ re.chars.head? = some '^'.toUInt8 := by
    obtain ⟨_ | ⟨c, r⟩, hn⟩ := re
    · exact iff_of_false (by intro h; cases h) (by intro h; cases h)
    · exact (Option.some_inj).symm
  rw [matcher, Matches]
  by_cases hc : re.head = '^'.toUInt8
  · rw [if_pos hc, if_pos (hhead.mp hc)]
    exact matchhere_iff re.tail text
  · rw [if_neg hc, if_neg (mt hhead.mpr hc)]
    exact matchLoop_iff re text

end Xv6.Grep
