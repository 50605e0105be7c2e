import Xv6.Sh.Print

/-!
# Terminating the words

When the whole line has been read, `nulterminate` goes through the command and writes a zero byte
behind each word. All words lie in one buffer, the line with the zero byte at its end. A word ends
before a blank, a symbol or the end of the line, and none of these is part of another word; so **each
word is kept**, and it is a string of its own afterwards (`Xv6.Sh.nulterminate_words`).
-/

namespace Xv6.Sh

open Lib List

/-- `*p = 0`, if this is in the buffer. -/
def clear (line : CStr) (buf : List UInt8) (p : CStr) : Option (List UInt8) :=
  if line.index p < buf.length then some (buf.set (line.index p) 0) else none

/-- **`nulterminate`** -/
def nulterminate (line : CStr) : Cmd Slice → List UInt8 → Option (List UInt8)
  | .exec argv, buf => argv.foldlM (fun buf w => clear line buf w.eq) buf
  | .redir cmd file _ _, buf =>
    (nulterminate line cmd buf).bind fun buf => clear line buf file.eq
  | .pipe left right, buf => (nulterminate line left buf).bind (nulterminate line right)
  | .list left right, buf => (nulterminate line left buf).bind (nulterminate line right)
  | .back cmd, buf => nulterminate line cmd buf

variable {line s : CStr} {w v : Slice} {buf : List UInt8} {i n : ℕ}

/-! ### The bytes that are written -/

/-- One zero byte is written for each word. -/
theorem nulterminate_eq (line : CStr) (c : Cmd Slice) (buf : List UInt8) :
    nulterminate line c buf = c.words.foldlM (fun buf w => clear line buf w.eq) buf := by
  induction c generalizing buf with
  | exec argv => rfl
  | redir cmd file mode fd ih =>
    rw [nulterminate, ih, Cmd.words, foldlM_append]
    simp
  | pipe left right ihl ihr =>
    rw [nulterminate, ihl, Cmd.words, foldlM_append]
    exact congrArg _ (funext ihr)
  | list left right ihl ihr =>
    rw [nulterminate, ihl, Cmd.words, foldlM_append]
    exact congrArg _ (funext ihr)
  | back cmd ih => exact ih buf

/-- What the buffer is when zero bytes have been written. -/
theorem clears_eq {ws : List Slice} (hws : ∀ w ∈ ws, line.index w.eq < buf.length) :
    ∃ buf', ws.foldlM (fun buf w => clear line buf w.eq) buf = some buf' ∧
      ∀ i, buf'[i]? = if ∃ w ∈ ws, i = line.index w.eq then some 0 else buf[i]? := by
  induction ws generalizing buf with
  | nil => exact ⟨buf, rfl, fun i => by simp⟩
  | cons w ws ih =>
    obtain ⟨hw, hws⟩ := forall_mem_cons.mp hws
    have hlen : ∀ v ∈ ws, line.index v.eq < (buf.set (line.index w.eq) 0).length := by
      intro v hv
      rw [length_set]
      exact hws v hv
    obtain ⟨buf', hbuf', hi⟩ := ih hlen
    refine ⟨buf', ?_, fun i => ?_⟩
    · rwa [foldlM_cons, clear, if_pos hw]
    · rw [hi i]
      by_cases hmem : ∃ v ∈ ws, i = line.index v.eq
      · obtain ⟨v, hv, hiv⟩ := hmem
        rw [if_pos ⟨v, hv, hiv⟩, if_pos ⟨v, mem_cons_of_mem w hv, hiv⟩]
      · rw [if_neg hmem]
        by_cases hiw : i = line.index w.eq
        · rw [if_pos ⟨w, mem_cons_self, hiw⟩, hiw, List.getElem?_set_self hw]
        · have hnot : ¬∃ v ∈ w :: ws, i = line.index v.eq := by
            rintro ⟨v, hv, hiv⟩
            rcases mem_cons.mp hv with rfl | hv
            · exact hiw hiv
            · exact hmem ⟨v, hv, hiv⟩
          rw [if_neg hnot, List.getElem?_set_ne (Ne.symm hiw)]

/-! ### Words in the buffer -/

/-- Where a word lies in the line. -/
theorem Slice.Of.exists_eq (h : w.Of line) : ∃ pre, line.chars = pre ++ (w.text ++ w.eq.chars) ∧
    line.index w.q = pre.length ∧ line.index w.eq = pre.length + w.text.length := by
  obtain ⟨pre, hpre⟩ := h.suffix
  have hlen := congrArg List.length hpre
  have hlen' := congrArg List.length h.eq
  rw [length_append] at hlen hlen'
  refine ⟨pre, by rw [← hpre, h.eq], ?_, ?_⟩
  · rw [CStr.index]
    omega
  · rw [CStr.index]
    omega

/-- The bytes of a word. -/
theorem Slice.Of.getElem? (h : w.Of line) {j : ℕ} (hj : j < w.text.length) :
    line.buffer[line.index w.q + j]? = some (w.text.get ⟨j, hj⟩) := by
  obtain ⟨pre, hpre, hq, -⟩ := h.exists_eq
  rw [CStr.buffer, hpre, hq, append_assoc, append_assoc, List.getElem?_append_right (by omega),
    Nat.add_sub_cancel_left, List.getElem?_append_left hj, List.getElem?_eq_getElem hj]
  rfl

/-- The byte behind a word. -/
theorem Slice.Of.getElem?_eq (h : w.Of line) : line.buffer[line.index w.eq]? = some w.eq.head := by
  obtain ⟨pre, hpre, -, hq⟩ := h.exists_eq
  rw [CStr.buffer, hpre, hq, append_assoc, append_assoc,
    List.getElem?_append_right (by omega), Nat.add_sub_cancel_left,
    List.getElem?_append_right le_rfl, Nat.sub_self, CStr.head]
  cases w.eq.chars <;> rfl

/-- **The end of a word does not lie in another one.** -/
theorem Slice.Of.end_not_mem (hw : w.Of line) (hv : v.Of line) :
    ¬(line.index v.q ≤ line.index w.eq ∧ line.index w.eq < line.index v.eq) := by
  rintro ⟨hle, hlt⟩
  obtain ⟨j, hj⟩ := Nat.exists_eq_add_of_le hle
  obtain ⟨pre, -, hq, heq⟩ := hv.exists_eq
  have hjlt : j < v.text.length := by omega
  have hbyte := hw.getElem?_eq
  rw [hj, hv.getElem? hjlt] at hbyte
  have hmem : w.eq.head ∈ v.text := by
    rw [← Option.some.inj hbyte]
    exact get_mem _ _
  obtain ⟨hz, hword⟩ := hv.good.2 _ hmem
  rcases hw.ends with hend | hend
  · exact hz (CStr.head_eq_zero.mpr hend)
  · exact hend hword

/-- **Terminating the words keeps them.** A zero is written behind each word of the tree, and to no
word of the line. Where an operator follows a word at once, its first byte is overwritten. -/
theorem nulterminate_words (line : CStr) (n : ℕ) (hn : 4 * line.chars.length + 4 ≤ n)
    {c : Cmd Slice} (hc : parsecmd n line = .ok c) :
    ∃ buf, nulterminate line c line.buffer = some buf ∧
      (∀ w ∈ c.words, cstr buf (line.index w.q) = w.text ∧ w.Of line) ∧
      (∀ i, buf[i]? = if ∃ w ∈ c.words, i = line.index w.eq then some 0 else line.buffer[i]?) ∧
      ∀ w ∈ c.words, ∀ v, .word v ∈ tokens line →
        ¬(line.index v.q ≤ line.index w.eq ∧ line.index w.eq < line.index v.eq) := by
  have hof : ∀ w ∈ c.words, w.Of line := fun w hw => words_of hn hc hw
  have hlt : ∀ w ∈ c.words, line.index w.eq < line.buffer.length := fun w hw =>
    (List.getElem?_eq_some_iff.mp (hof w hw).getElem?_eq).1
  obtain ⟨buf, hbuf, hi⟩ := clears_eq hlt
  refine ⟨buf, (nulterminate_eq ..).trans hbuf, fun w hw => ⟨?_, hof w hw⟩, hi,
    fun w hw v hv => (hof w hw).end_not_mem (of_mem_tokens hv)⟩
  obtain ⟨pre, -, hq, heq⟩ := (hof w hw).exists_eq
  refine cstr_eq (fun hz => ((hof w hw).good.2 0 hz).1 rfl) (fun j hj => ?_) ?_
  · rw [hi, if_neg, (hof w hw).getElem? hj]
    rintro ⟨v, hv, hjv⟩
    exact (hof v hv).end_not_mem (hof w hw) (by omega)
  · rw [hi, if_pos ⟨w, hw, by omega⟩]

/-- In the line `(a<b)|c &;` the symbols `<`, `)` and the blank become zero. -/
theorem nulterminate_blockLine : ∃ c buf, parsecmd 50 blockLine = .ok c ∧
    nulterminate blockLine c blockLine.buffer = some buf ∧
      (∀ w ∈ c.words, cstr buf (blockLine.index w.q) = w.text ∧ w.Of blockLine) ∧
        c.words.map Slice.text = [['a'.toUInt8], ['b'.toUInt8], ['c'.toUInt8]] := by
  have hwords : ((parsecmd 50 blockLine).toOption.map fun c => c.words.map Slice.text) =
      some [['a'.toUInt8], ['b'.toUInt8], ['c'.toUInt8]] := by
    decide +kernel
  obtain ⟨c, hc, hw⟩ := Option.map_eq_some_iff.mp hwords
  have hc := eq_ok_of_toOption hc
  obtain ⟨buf, hbuf, hkeep, -⟩ := nulterminate_words blockLine 50 (by decide) hc
  exact ⟨c, buf, hc, hbuf, hkeep, hw⟩

end Xv6.Sh
