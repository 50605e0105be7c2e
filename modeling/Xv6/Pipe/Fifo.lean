import Xv6.Pipe.Code

/-!
# A pipe is a queue

What holds of a pipe whenever its lock is free is that the ring buffer stands for the
bytes that have been stored and delivered (`Xv6.Lib.Ring.Models`). What a process knows in the
middle of a call is which bytes it has stored or been given since the call began; other
processes store and deliver bytes of their own.

**The bytes delivered are always a beginning of the bytes stored**, `pipewrite` stores what it
says it has stored, and `piperead` returns zero only at the end of the file
(`Xv6.Pipe.fifo_of_run`).

The annotations are those of both versions of the code. That a process sleeps rightly and
that a `wakeup` is owed is said of the mended version only.
-/

namespace Xv6.Pipe

open Lib Sleep List

variable {Pid : Type}

/-! ### The bytes of one process -/

section

variable [DecidableEq Pid] {bs : List (Pid × UInt8)} {p q : Pid} {mark : ℕ} {b : UInt8}

theorem since_length : since bs p bs.length = [] := by
  rw [since, drop_length]
  rfl

theorem since_concat_self (h : mark ≤ bs.length) :
    since (bs ++ [(p, b)]) p mark = since bs p mark ++ [b] := by
  rw [since, since, drop_append_of_le_length h, filter_append, map_append]
  simp

theorem since_concat_of_ne (h : mark ≤ bs.length) (hq : q ≠ p) :
    since (bs ++ [(q, b)]) p mark = since bs p mark := by
  rw [since, since, drop_append_of_le_length h, filter_append, map_append]
  simp [hq]

/-- The process has handled `new` since the position `mark`. -/
def Handled (bs : List (Pid × UInt8)) (p : Pid) (x : ℕ × List UInt8) : Prop :=
  x.1 ≤ bs.length ∧ since bs p x.1 = x.2

theorem Handled.nil : Handled bs p (bs.length, []) :=
  ⟨le_rfl, since_length⟩

theorem Handled.concat {new : List UInt8} (h : Handled bs p (mark, new)) (b : UInt8) :
    Handled (bs ++ [(p, b)]) p (mark, new ++ [b]) := by
  refine ⟨h.1.trans (prefix_append _ _).length_le, ?_⟩
  rw [since_concat_self h.1, h.2]

theorem Handled.other {x : ℕ × List UInt8} (h : Handled bs p x) (hq : q ≠ p) (b : UInt8) :
    Handled (bs ++ [(q, b)]) p x := by
  refine ⟨h.1.trans (prefix_append _ _).length_le, ?_⟩
  rw [since_concat_of_ne h.1 hq, h.2]

end

theorem Write.bytes_succ (w : Write) (i : ℕ) : w.bytes (i + 1) = w.bytes i ++ [w.addr i] := by
  rw [Write.bytes, range_succ, map_append]
  rfl

/-! ### Annotations -/

/-- The lock is held from `acquire` to `release`. -/
def Loc.Held : Loc → Prop
  | idle | pipewrite _ _ | piperead _ | pipeclose _ => False
  | _ => True

/-- What the holder of the lock knows about the pipe. -/
def Loc.Knows (d : Data Pid) : Loc → Prop
  | tellReaders _ _ | waitSpace _ _ => d.toRing.Full ∧ d.readopen = true
  | store _ _ _ => ¬d.toRing.Full
  | waitData _ => d.toRing.Empty ∧ d.writeopen = true
  | copy rd addr => 0 < rd.n → addr = [] → d.toRing.Empty → d.writeopen = false
  | take _ _ => ¬d.toRing.Empty
  | took rd addr => 0 < rd.n → addr = [] → d.toRing.Empty ∧ d.writeopen = false
  | retRead rd _ r => 0 < rd.n → r = 0 → d.toRing.Empty ∧ d.writeopen = false
  | _ => True

/-- The bytes that the call has stored. If it has given up, nothing is said. -/
def Loc.wrote? : Loc → Option (ℕ × List UInt8)
  | next w i _ | full w i _ | tellReaders w i | waitSpace w i | store w i _ =>
    some (w.mark, w.bytes i)
  | wrote w r | retWrite w r => if 0 ≤ r then some (w.mark, w.bytes w.n.toNat) else none
  | _ => none

/-- The bytes that the call has been given. -/
def Loc.read? : Loc → Option (ℕ × List UInt8)
  | empty rd | waitData rd => some (rd.mark, [])
  | copy rd addr | take rd addr | took rd addr | retRead rd addr _ => some (rd.mark, addr)
  | _ => none

/-- How far the loops have come. -/
def Loc.InLoop : Loc → Prop
  | next w i _ => i ≤ w.n.toNat
  | full w i _ | tellReaders w i | waitSpace w i | store w i _ => i < w.n
  | wrote w r | retWrite w r => 0 ≤ r → r = w.n
  | retRead _ addr r => 0 ≤ r → r = addr.length
  | _ => True

/-- What a process knows whoever holds the lock. -/
structure Loc.Frame [DecidableEq Pid] (p : Pid) (l : Loc) (d : Data Pid) : Prop where
  stored : ∀ x ∈ l.wrote?, Handled d.stored p x
  delivered : ∀ x ∈ l.read?, Handled d.delivered p x
  inLoop : l.InLoop

/-- Where `wakeup` has yet to be called. -/
def Loc.Owes : Chan → Loc → Prop
  | .nread, next _ _ news | .nread, full _ _ news | .nread, store _ _ news => news = true
  | .nread, tellReaders _ _ | .nread, wrote _ _ => True
  | .nwrite, copy _ _ | .nwrite, take _ _ | .nwrite, took _ _ => True
  | .nread, tellClosed writable => writable = true
  | .nwrite, tellClosed writable => writable = false
  | _, _ => False

/-- When it is right to sleep. -/
def Data.Waits (d : Data Pid) : Chan → Prop
  | .nread => d.toRing.Empty ∧ d.writeopen = true
  | .nwrite => d.toRing.Full ∧ d.readopen = true

/-- The ring buffer stands for what has been stored and delivered. -/
def Data.Inv (d : Data Pid) : Prop :=
  d.toRing.Models (d.stored.map Prod.snd) (d.delivered.map Prod.snd)

/-- The annotations. -/
def spec (Pid : Type) [DecidableEq Pid] (mended : Bool) : Spec Pid Chan (Data Pid) Loc where
  Inv := Data.Inv
  Held := Loc.Held
  Pre _ l d := d.Inv ∧ l.Knows d
  Frame p l d := l.Frame p d
  Waits ch d := mended = true → d.Waits ch
  Owes ch l := mended = true ∧ l.Owes ch

variable [DecidableEq Pid] {mended news : Bool} {p : Pid} {l l' : Loc} {d : Data Pid} {w : Write}
  {i : ℕ}

/-! ### The code meets the annotations -/

/-- A location of a call that has handled no byte. -/
theorem Loc.Frame.of_none (hw : l.wrote? = none) (hr : l.read? = none) (hl : l.InLoop) :
    l.Frame p d where
  stored x hx := by
    rw [hw] at hx
    cases hx
  delivered x hx := by
    rw [hr] at hx
    cases hx
  inLoop := hl

/-- A location of a call of `pipewrite`. -/
theorem Loc.Frame.write {x : ℕ × List UInt8} (hw : l.wrote? = some x) (hr : l.read? = none)
    (hx : Handled d.stored p x) (hl : l.InLoop) : l.Frame p d where
  stored y hy := by
    rw [hw] at hy
    cases hy
    exact hx
  delivered y hy := by
    rw [hr] at hy
    cases hy
  inLoop := hl

/-- A location of a call of `piperead`. -/
theorem Loc.Frame.read {x : ℕ × List UInt8} (hw : l.wrote? = none) (hr : l.read? = some x)
    (hx : Handled d.delivered p x) (hl : l.InLoop) : l.Frame p d where
  stored y hy := by
    rw [hw] at hy
    cases hy
  delivered y hy := by
    rw [hr] at hy
    cases hy
    exact hx
  inLoop := hl

/-- A test. -/
theorem updates_test (hheld : l'.Held) (hinv : d.Inv) (hknows : l'.Knows d)
    (hframe : l'.Frame p d) (howes : mended = true → ∀ ch, l.Owes ch → l'.Owes ch) :
    (spec Pid mended).Updates p l l' d d where
  held := hheld
  pre := ⟨hinv, hknows⟩
  frame := hframe
  others _ _ _ h := h
  owes ch h := ⟨h.1, howes h.1 ch h.2⟩
  waits _ h := .inl h

/-- The location of a `pipewrite` that has nothing more to store. -/
theorem frame_wrote (h : (Loc.next w i news).Frame p d) (hi : ¬(i : ℤ) < w.n) :
    (Loc.wrote w w.n).Frame p d := by
  refine ⟨fun x hx => ?_, fun x hx => (by cases hx), fun _ => rfl⟩
  have hle : i ≤ w.n.toNat := h.inLoop
  rw [Loc.wrote?] at hx
  split at hx
  next hn =>
    obtain rfl : i = w.n.toNat := by omega
    exact h.stored x hx
  next => cases hx

/-- A `pipewrite` that gives up says nothing about what it has stored. -/
theorem frame_gaveUp : (Loc.wrote w (-1)).Frame p d ∧ (Loc.retWrite w (-1)).Frame p d :=
  ⟨.of_none rfl rfl fun h => absurd h (by decide), .of_none rfl rfl fun h => absurd h (by decide)⟩

theorem updates_full (hinv : d.Inv) (hf : (Loc.full w i news).Frame p d) (killed : Bool) :
    (spec Pid mended).Updates p (.full w i news)
      (if d.toRing.Full then
          if d.readopen = false ∨ killed = true then
            if mended && news then .wrote w (-1) else .retWrite w (-1)
          else .tellReaders w i
        else .store w i news) d d := by
  split
  next hfull =>
    split
    next =>
      split
      next =>
        refine updates_test trivial hinv trivial frame_gaveUp.1 fun _ ch ho => ?_
        cases ch with
        | nread => trivial
        | nwrite => exact ho
      next hno =>
        refine updates_test trivial hinv trivial frame_gaveUp.2 fun hm ch ho => ?_
        cases ch with
        | nread =>
          rw [hm, ho] at hno
          exact absurd rfl hno
        | nwrite => exact ho
    next hgo =>
      have hopen : d.readopen = true := Bool.not_eq_false _ ▸ (not_or.mp hgo).1
      refine updates_test trivial hinv ⟨hfull, hopen⟩ ⟨hf.stored, hf.delivered, hf.inLoop⟩
        fun _ ch ho => ?_
      cases ch with
      | nread => trivial
      | nwrite => exact ho
  next hfull =>
    exact updates_test trivial hinv hfull ⟨hf.stored, hf.delivered, hf.inLoop⟩
      fun _ ch ho => by cases ch <;> exact ho

/-- Storing a byte: nobody waits for space, and the readers are owed a `wakeup`. -/
theorem updates_store (hinv : d.Inv) (hfull : ¬d.toRing.Full)
    (hf : (Loc.store w i news).Frame p d) :
    (spec Pid mended).Updates p (.store w i news) (.next w (i + 1) true) d
      (d.store p (w.addr i)) where
  held := trivial
  pre := by
    refine ⟨?_, trivial⟩
    have := hinv.push PIPESIZE_dvd PIPESIZE_lt hfull (w.addr i)
    rwa [Data.Inv, Data.store, map_append]
  frame := by
    have hi : (i : ℤ) < w.n := hf.inLoop
    refine .write rfl rfl ?_ (show i + 1 ≤ w.n.toNat by omega)
    rw [w.bytes_succ]
    exact (hf.stored _ rfl).concat _
  others q l' hq h :=
    ⟨fun x hx => (h.stored x hx).other hq.symm _, h.delivered, h.inLoop⟩
  owes ch h := by
    cases ch with
    | nread => exact ⟨h.1, rfl⟩
    | nwrite => exact h
  waits ch h := by
    cases ch with
    | nread => cases mended with
      | true => exact .inr ⟨rfl, rfl⟩
      | false => exact .inl (by rintro ⟨⟩)
    | nwrite => exact .inl fun hm => absurd (h hm).1 hfull

/-- Delivering a byte: nobody waits for data, and the writers are owed a `wakeup`. -/
theorem updates_take {rd : Read} {addr : List UInt8} (hinv : d.Inv) (hempty : ¬d.toRing.Empty)
    (hf : (Loc.take rd addr).Frame p d) :
    (spec Pid mended).Updates p (.take rd addr) (.copy rd (addr ++ [d.toRing.front])) d
      (d.deliver p) where
  held := trivial
  pre := by
    refine ⟨?_, fun _ h => absurd h (by simp)⟩
    have := hinv.pop PIPESIZE_dvd PIPESIZE_lt hempty
    rwa [Data.Inv, Data.deliver, map_append]
  frame := .read rfl rfl ((hf.delivered _ rfl).concat _) trivial
  others q l' hq h :=
    ⟨h.stored, fun x hx => (h.delivered x hx).other hq.symm _, h.inLoop⟩
  owes ch h := by
    cases ch with
    | nread => exact h
    | nwrite => exact ⟨h.1, trivial⟩
  waits ch h := by
    cases ch with
    | nread => exact .inl fun hm => absurd (h hm).1 hempty
    | nwrite => cases mended with
      | true => exact .inr ⟨rfl, trivial⟩
      | false => exact .inl (by rintro ⟨⟩)

/-- Closing an end: those at the other end are owed a `wakeup`. -/
theorem updates_shut {writable : Bool} (hinv : d.Inv) :
    (spec Pid mended).Updates p (.shut writable) (.tellClosed writable) d (d.close writable) where
  held := trivial
  pre := ⟨hinv, trivial⟩
  frame := .of_none rfl rfl trivial
  others q l' _ h := ⟨h.stored, h.delivered, h.inLoop⟩
  owes ch h := by cases ch <;> exact h.2.elim
  waits ch h := by
    cases mended with
    | false => exact .inl (by rintro ⟨⟩)
    | true =>
      have hw := h rfl
      cases ch <;> cases writable
      · exact .inl fun _ => ⟨hw.1, by rw [Data.close, hw.2]; rfl⟩
      · exact .inr ⟨rfl, rfl⟩
      · exact .inr ⟨rfl, rfl⟩
      · exact .inl fun _ => ⟨hw.1, by rw [Data.close, hw.2]; rfl⟩

theorem spec_valid : (spec Pid mended).Valid (code Pid mended) where
  allows p l := by
    have hnone : ∀ {l k : Loc}, (∀ ch, ¬l.Owes ch) →
        ∀ ch, (spec Pid mended).Owes ch l → (spec Pid mended).Owes ch k :=
      fun h ch ho => absurd ho.2 (h ch)
    cases l with
    | idle => exact ⟨not_false, fun ch h => by cases ch <;> exact h.2⟩
    | pipewrite addr n =>
      exact ⟨not_false, trivial, hnone (by rintro (_ | _) ⟨⟩),
        fun d hd _ => ⟨⟨hd, trivial⟩, .of_none rfl rfl trivial⟩⟩
    | startWrite addr n =>
      refine ⟨trivial, fun _ d hd _ => updates_test trivial hd.1 trivial ?_ ?_⟩
      · exact .write rfl rfl .nil (Nat.zero_le _)
      · rintro _ (_ | _) ⟨⟩
    | next w i news =>
      refine ⟨trivial, fun _ d hd hf => ?_⟩
      dsimp only
      split
      next hi =>
        exact updates_test trivial hd.1 trivial ⟨hf.stored, hf.delivered, hi⟩
          fun _ ch ho => by cases ch <;> exact ho
      next hi =>
        refine updates_test trivial hd.1 trivial (frame_wrote hf hi) fun _ ch ho => ?_
        cases ch with
        | nread => trivial
        | nwrite => exact ho
    | full w i news => exact ⟨trivial, fun killed d hd hf => updates_full hd.1 hf killed⟩
    | tellReaders w i =>
      refine ⟨Iff.rfl, fun ch hch ho => ?_, fun d hf => ⟨hf.stored, hf.delivered, hf.inLoop⟩,
        fun d _ hd => hd⟩
      cases ch with
      | nread => exact absurd rfl hch
      | nwrite => exact ho
    | waitSpace w i =>
      exact ⟨trivial, trivial, hnone (by rintro (_ | _) ⟨⟩), fun d hd => ⟨hd.1, fun _ => hd.2⟩,
        fun d hd hf => ⟨⟨hd, trivial⟩, hf.stored, hf.delivered, hf.inLoop⟩⟩
    | store w i news => exact ⟨trivial, fun _ d hd hf => updates_store hd.1 hd.2 hf⟩
    | wrote w r =>
      refine ⟨Iff.rfl, fun ch hch ho => ?_, fun d hf => ⟨hf.stored, hf.delivered, hf.inLoop⟩,
        fun d _ hd => hd⟩
      cases ch with
      | nread => exact absurd rfl hch
      | nwrite => exact ho
    | retWrite w r =>
      exact ⟨trivial, not_false, hnone (by rintro (_ | _) ⟨⟩),
        fun d hd _ => ⟨hd.1, .of_none rfl rfl trivial⟩⟩
    | piperead n =>
      exact ⟨not_false, trivial, hnone (by rintro (_ | _) ⟨⟩),
        fun d hd _ => ⟨⟨hd, trivial⟩, .of_none rfl rfl trivial⟩⟩
    | startRead n =>
      refine ⟨trivial, fun _ d hd _ => updates_test trivial hd.1 trivial ?_ ?_⟩
      · exact .read rfl rfl .nil trivial
      · rintro _ (_ | _) ⟨⟩
    | empty rd =>
      refine ⟨trivial, fun killed d hd hf => ?_⟩
      dsimp only
      split
      next he =>
        cases killed with
        | true =>
          exact updates_test trivial hd.1 (fun _ h => absurd h (by decide))
            ⟨hf.stored, hf.delivered, fun h => absurd h (by decide)⟩ (by rintro _ (_ | _) ⟨⟩)
        | false =>
          exact updates_test trivial hd.1 he ⟨hf.stored, hf.delivered, trivial⟩
            (by rintro _ (_ | _) ⟨⟩)
      next he =>
        exact updates_test trivial hd.1
          (fun _ _ h => Bool.eq_false_iff.mpr fun h' => he ⟨h, h'⟩)
          ⟨hf.stored, hf.delivered, trivial⟩ (by rintro _ (_ | _) ⟨⟩)
    | waitData rd =>
      exact ⟨trivial, trivial, hnone (by rintro (_ | _) ⟨⟩), fun d hd => ⟨hd.1, fun _ => hd.2⟩,
        fun d hd hf => ⟨⟨hd, trivial⟩, hf.stored, hf.delivered, trivial⟩⟩
    | copy rd addr =>
      refine ⟨trivial, fun _ d hd hf => ?_⟩
      have hf' : ∀ {l : Loc}, l.wrote? = none → l.read? = (Loc.copy rd addr).read? → l.InLoop →
          l.Frame p d := fun hw hr hl =>
        .read hw hr (hf.delivered _ rfl) hl
      dsimp only
      split
      next hlt =>
        split
        next he =>
          exact updates_test trivial hd.1 (fun hn ha => ⟨he, hd.2 hn ha he⟩) (hf' rfl rfl trivial)
            fun _ ch ho => by cases ch <;> exact ho
        next he =>
          exact updates_test trivial hd.1 he (hf' rfl rfl trivial)
            fun _ ch ho => by cases ch <;> exact ho
      next hlt =>
        refine updates_test trivial hd.1 (fun hn ha => ?_) (hf' rfl rfl trivial)
          fun _ ch ho => by cases ch <;> exact ho
        rw [ha] at hlt
        exact absurd hn hlt
    | take rd addr => exact ⟨trivial, fun _ d hd hf => updates_take hd.1 hd.2 hf⟩
    | took rd addr =>
      refine ⟨Iff.rfl, fun ch hch ho => ?_, fun d hf => ⟨hf.stored, hf.delivered, fun _ => rfl⟩,
        fun d _ hd => ⟨hd.1, fun hn hr => hd.2 hn ?_⟩⟩
      · cases ch with
        | nread => exact ho
        | nwrite => exact absurd rfl hch
      · exact length_eq_zero_iff.mp (by exact_mod_cast hr)
    | retRead rd addr r =>
      exact ⟨trivial, not_false, hnone (by rintro (_ | _) ⟨⟩),
        fun d hd _ => ⟨hd.1, .of_none rfl rfl trivial⟩⟩
    | pipeclose writable =>
      exact ⟨not_false, trivial, hnone (by rintro (_ | _) ⟨⟩),
        fun d hd _ => ⟨⟨hd, trivial⟩, .of_none rfl rfl trivial⟩⟩
    | shut writable => exact ⟨trivial, fun _ d hd _ => updates_shut hd.1⟩
    | tellClosed writable =>
      refine ⟨Iff.rfl, fun ch hch ho => ?_, fun d _ => .of_none rfl rfl trivial, fun d _ hd => hd⟩
      cases writable <;> cases ch
      · cases ho.2
      · exact absurd rfl hch
      · exact absurd rfl hch
      · cases ho.2
    | bothClosed =>
      refine ⟨trivial, fun _ d hd _ => updates_test trivial hd.1 trivial ?_ ?_⟩
      · exact .of_none rfl rfl trivial
      · rintro _ (_ | _) ⟨⟩
    | retClose last =>
      exact ⟨trivial, not_false, hnone (by rintro (_ | _) ⟨⟩),
        fun d hd _ => ⟨hd.1, .of_none rfl rfl trivial⟩⟩
  calls p l l' _ h := by
    cases l' with
    | pipewrite | piperead | pipeclose =>
      exact ⟨not_false, fun d _ => .of_none rfl rfl trivial⟩
    | idle | startWrite | next | full | tellReaders | waitSpace | store | wrote | retWrite
    | startRead | empty | waitData | copy | take | took | retRead | shut | tellClosed | bothClosed
    | retClose => cases h

/-! ### Every run -/

variable {junk : Fin PIPESIZE → UInt8} {s : State Pid Chan (Data Pid) Loc}
  {as : List (Act Pid Loc)}

variable (h : run (step (code Pid mended)) (start Pid junk) as = some s)
include h

theorem holds_of_run :
    (spec Pid mended).Holds (code Pid mended) s := by
  refine spec_valid.holds_of_run (spec_valid.init ?_ (fun _ => rfl) fun _ => ?_) h
  · exact Ring.Models.nil
  · exact .of_none rfl rfl trivial

/-- The invariant holds whether the lock is free or not. -/
theorem inv_of_run :
    s.data.Inv := by
  have hs := holds_of_run h
  cases hlk : s.lk with
  | none => exact hs.inv hlk
  | some p => exact (hs.pre p hlk).1

omit h

/-- **A pipe is a queue of bytes.** However many processes read and write and whatever they
ask for: at most `PIPESIZE` bytes are in the pipe, also when the counters have wrapped; the bytes
delivered are a beginning of the bytes stored; a `pipewrite` that returns a number of bytes
has stored these, in order; a `piperead` that returns a number of bytes has been delivered
these; and a `piperead` that is asked for some bytes and returns zero finds the pipe empty
and its write end closed. -/
theorem fifo_of_run (h : run (step (code Pid false)) (start Pid junk) as = some s) :
    (s.data.nwrite - s.data.nread).toNat ≤ PIPESIZE ∧
    s.data.delivered.map Prod.snd <+: s.data.stored.map Prod.snd ∧
    (∀ p w r, s.loc p = .retWrite w r → 0 ≤ r →
      r = w.n ∧ since s.data.stored p w.mark = w.bytes r.toNat) ∧
    (∀ p rd addr r, s.loc p = .retRead rd addr r → 0 ≤ r →
      r = addr.length ∧ since s.data.delivered p rd.mark = addr) ∧
    (∀ p rd addr, s.loc p = .retRead rd addr 0 → 0 < rd.n →
      s.data.nread = s.data.nwrite ∧ s.data.writeopen = false) := by
  have hs := holds_of_run h
  have hinv := inv_of_run h
  refine ⟨?_, hinv.outs_prefix, ?_, ?_, ?_⟩
  · have hb := hinv.bound
    rw [hinv.toNat_sub PIPESIZE_lt]
    omega
  · intro p w r hp hr
    have hf := hs.frame p
    rw [hp] at hf
    obtain rfl : r = w.n := hf.inLoop hr
    exact ⟨rfl, (hf.stored _ (if_pos hr)).2⟩
  · intro p rd addr r hp hr
    have hf := hs.frame p
    rw [hp] at hf
    exact ⟨hf.inLoop hr, (hf.delivered _ rfl).2⟩
  · intro p rd addr hp hn
    have hlk : s.lk = some p := hs.holder (by simp [hp, code]) (by rw [hp]; trivial)
    have hpre := (hs.pre p hlk).2
    rw [hp] at hpre
    exact hpre hn rfl

/-- A process writes two bytes, and another one reads the first of them. -/
def transferRun : List (Act Bool Loc) :=
  .call true (.pipewrite (fun i => UInt8.ofNat (i + 7)) 2) :: List.replicate 13 (.next true) ++
    .call false (.piperead 1) :: List.replicate 6 (.next false)

theorem fifo_transferRun :
    ∃ s ∈ run (step (code Bool false)) (start Bool fun _ => 0) transferRun,
      s.data.delivered = [(false, 7)] ∧
        s.data.delivered.map Prod.snd <+: s.data.stored.map Prod.snd := by
  obtain ⟨s, hs, hd⟩ : ∃ s ∈ run (step (code Bool false)) (start Bool fun _ => 0) transferRun,
      s.data.delivered = [(false, 7)] := by
    decide +kernel
  exact ⟨s, hs, hd, (fifo_of_run hs).2.1⟩

end Xv6.Pipe
