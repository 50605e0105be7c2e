import Xv6.Lib.Run

/-!
# Programs over operations

A program that works on a shared state is a tree: it has ended with a value, or it
performs an operation and goes on with the answer. What an operation does is not
part of the program, so that one text of a program can be run on states of
different kinds, alone or together with others.

A *handler* `step` says what an operation does to a state, and `Prog.exec` is the
run of a program with nobody else on the state. `Logic.wp` is the weakest
precondition of such a run, with two kinds of conditions on the operations it
performs: what may be assumed when an operation is performed, and what has to be
shown then. It also names the messages that must not stop the system, and says whether
it may have to wait.

* `Logic.wp_bind` is the rule of composition, and `Logic.sound` says what a weakest
  precondition is good for;
* `Simulates.exec` lifts a relation between two kinds of states from the single
  operations to programs.
-/

namespace Xv6.Lib

variable {Op : Type} {Res : Op → Type} {α β σ τ : Type}

/-- A program: it has ended, or it performs an operation and goes on with the
answer. -/
inductive Prog (Res : Op → Type) (α : Type) where
  | ret (a : α)
  | op (o : Op) (k : Res o → Prog Res α)

namespace Prog

variable {s : σ} {p : Prog Res α} {o : Op}

/-- Go on with another program. -/
def bind : Prog Res α → (α → Prog Res β) → Prog Res β
  | .ret a, f => f a
  | .op o k, f => .op o fun r => (k r).bind f

instance : Monad (Prog Res) where
  pure := ret
  bind := bind

/-- Perform one operation. -/
def perform (o : Op) : Prog Res (Res o) := .op o .ret

theorem bind_ret (a : α) (f : α → Prog Res β) : (ret a >>= f) = f a := rfl

theorem pure_bind (a : α) (f : α → Prog Res β) : ((pure a : Prog Res α) >>= f) = f a := rfl

theorem bind_op (o : Op) (k : Res o → Prog Res α) (f : α → Prog Res β) :
    (op o k >>= f) = op o fun r => k r >>= f := rfl

theorem bind_assoc {γ : Type} (p : Prog Res α) (f : α → Prog Res β) (g : β → Prog Res γ) :
    (p >>= f >>= g) = p >>= fun a => f a >>= g := by
  induction p with
  | ret a => rfl
  | op o k ih =>
    rw [bind_op, bind_op, bind_op]
    exact congrArg (op o) (funext ih)

/-- The run of a program on a state, with nobody else working on it. -/
def exec (step : (o : Op) → σ → Effect (Res o × σ)) : Prog Res α → σ → Effect (α × σ)
  | .ret a, s => .ok (a, s)
  | .op o k, s => match step o s with
    | .ok (r, t) => exec step (k r) t
    | .panic msg => .panic msg
    | .disabled => .disabled

variable {step : (o : Op) → σ → Effect (Res o × σ)}

theorem exec_op_eq_ok {k : Res o → Prog Res α} {x : α × σ} : (op o k).exec step s = .ok x ↔
    ∃ y, step o s = .ok y ∧ (k y.1).exec step y.2 = .ok x := by
  rw [exec]
  cases step o s <;> simp

theorem exec_bind (p : Prog Res α) (f : α → Prog Res β) : ∀ s, (p >>= f).exec step s = match p.exec step s with
      | .ok (a, t) => (f a).exec step t
      | .panic msg => .panic msg
      | .disabled => .disabled := by
  induction p with
  | ret a => exact fun _ => rfl
  | op o k ih =>
    intro s
    rw [bind_op, exec, exec]
    cases step o s with
    | ok x => exact ih x.1 x.2
    | panic msg => rfl
    | disabled => rfl

/-- What a program begins with decides where it goes on. -/
theorem exec_bind_congr {s' : σ} (h : p.exec step s = p.exec step s') (f : α → Prog Res β) :
    (p >>= f).exec step s = (p >>= f).exec step s' := by
  rw [exec_bind, exec_bind, h]

theorem exec_bind_ok {t : σ} {a : α} (h : p.exec step s = .ok (a, t)) (f : α → Prog Res β) :
    (p >>= f).exec step s = (f a).exec step t := by
  rw [exec_bind, h]

/-- A program that has come to its end has done all of its parts. -/
theorem exec_bind_eq_ok {f : α → Prog Res β} {x : β × σ} (h : (p >>= f).exec step s = .ok x) :
    ∃ a t, p.exec step s = .ok (a, t) ∧ (f a).exec step t = .ok x := by
  rw [exec_bind] at h
  cases hp : p.exec step s with
  | ok y =>
    rw [hp] at h
    exact ⟨y.1, y.2, rfl, h⟩
  | panic msg =>
    rw [hp] at h
    cases h
  | disabled =>
    rw [hp] at h
    cases h

theorem exec_perform {t : σ} {r : Res o} (h : step o s = .ok (r, t)) : (perform o : Prog Res (Res o)).exec step s = .ok (r, t) := by
  rw [perform, exec, h]
  rfl

/-- An operation followed by a function of its result. -/
theorem exec_perform_map (f : Res o → α) :
    ((perform o : Prog Res (Res o)) >>= fun r => .ret (f r)).exec step s =
      (step o s).map fun x => (f x.1, x.2) := by
  rw [exec_bind, perform, exec]
  cases step o s <;> rfl

/-- What every operation keeps up holds when a program has come to its end. -/
theorem exec_invariant {I : σ → Prop} (h : ∀ o s x, step o s = .ok x → I s → I x.2) :
    ∀ {s x}, p.exec step s = .ok x → I s → I x.2 := by
  induction p with
  | ret a =>
    intro s x hx hs
    obtain rfl := Effect.ok.inj hx
    exact hs
  | op o k ih =>
    intro s x hx hs
    obtain ⟨y, ho, hx⟩ := exec_op_eq_ok.mp hx
    exact ih y.1 hx (h o s y ho hs)

/-- A program whose operations need not wait does not wait. -/
theorem exec_ne_disabled (h : ∀ o s, step o s ≠ .disabled) (p : Prog Res α) : ∀ s, p.exec step s ≠ .disabled := by
  induction p with
  | ret a => exact fun s hc => by cases hc
  | op o k ih =>
    intro s
    rw [exec]
    cases hs : step o s with
    | ok x => exact ih x.1 x.2
    | panic msg => exact fun hc => by cases hc
    | disabled => exact absurd hs (h o s)

/-- Every operation of the run of a program meets a condition on the state in which
it is performed. -/
def Meets (step : (o : Op) → σ → Effect (Res o × σ)) (C : σ → Op → Prop) : Prog Res α → σ → Prop
  | .ret _, _ => True
  | .op o k, s => C s o ∧ match step o s with
    | .ok (r, t) => Meets step C (k r) t
    | _ => True

variable {C : σ → Op → Prop}

theorem meets_op {k : Res o → Prog Res α} : (op o k).Meets step C s ↔ C s o ∧ ∀ x, step o s = .ok x →
      (k x.1).Meets step C x.2 := by
  rw [Meets]
  cases step o s <;> simp

/-- A condition that always holds. -/
theorem meets_of_forall (h : ∀ s o, C s o) (p : Prog Res α) : ∀ s, p.Meets step C s := by
  induction p with
  | ret a => exact fun _ => trivial
  | op o k ih => exact fun s => meets_op.mpr ⟨h s o, fun x _ => ih x.1 x.2⟩

/-- Every operation that a program may perform meets a condition. -/
def Only (P : Op → Prop) : Prog Res α → Prop
  | .ret _ => True
  | .op o k => P o ∧ ∀ r, (k r).Only P

theorem only_bind {P : Op → Prop} {f : α → Prog Res β} (hp : p.Only P) (hf : ∀ a, (f a).Only P) :
    (p >>= f).Only P := by
  induction p with
  | ret a => exact hf a
  | op o k ih => exact ⟨hp.1, fun r => ih r (hp.2 r)⟩

theorem Only.meets {P : Op → Prop} (hp : p.Only P) : ∀ s, p.Meets step (fun _ o => P o) s := by
  induction p with
  | ret a => exact fun _ => trivial
  | op o k ih => exact fun s => meets_op.mpr ⟨hp.1, fun x _ => ih x.1 (hp.2 x.1) x.2⟩

end Prog

/-! ### Weakest preconditions -/

/-- What a proof about programs is relative to. -/
structure Logic (Res : Op → Type) (σ : Type) where
  /-- What an operation does. -/
  step : (o : Op) → σ → Effect (Res o × σ)
  /-- What may be assumed of the operations that are performed. -/
  assumed : σ → Op → Prop
  /-- What is to be shown of them. -/
  needed : σ → Op → Prop
  /-- The messages that must not stop the system. -/
  bad : String → Prop
  /-- Whether a program may have to wait. -/
  waits : Prop

namespace Logic

variable {L : Logic Res σ} {p : Prog Res α} {f : α → Prog Res β} {s : σ} {Q : α → σ → Prop}

/-- What an effect has to satisfy: a result the condition `Q`, and a message not to
be a bad one; and there is one, unless the program may wait. -/
def Outcome (L : Logic Res σ) (Q : α → Prop) : Effect α → Prop
  | .ok a => Q a
  | .panic msg => ¬L.bad msg
  | .disabled => L.waits

/-- The weakest precondition of a run that ends with `Q`. -/
def wp (L : Logic Res σ) : Prog Res α → (α → σ → Prop) → σ → Prop
  | .ret a, Q, s => Q a s
  | .op o k, Q, s => L.assumed s o → L.needed s o ∧
      L.Outcome (fun x => wp L (k x.1) Q x.2) (L.step o s)

theorem Outcome.mono {Q Q' : α → Prop} (hQ : ∀ a, Q a → Q' a) {e : Effect α}
    (h : L.Outcome Q e) : L.Outcome Q' e := by
  cases e with
  | ok a => exact hQ a h
  | panic msg => exact h
  | disabled => exact h

theorem wp_pure {a : α} : L.wp (pure a) Q s ↔ Q a s := Iff.rfl

/-- **The rule of composition.** -/
theorem wp_bind {Q : β → σ → Prop} :
    ∀ {s}, L.wp (p >>= f) Q s ↔ L.wp p (fun a t => L.wp (f a) Q t) s := by
  induction p with
  | ret a => exact Iff.rfl
  | op o k ih =>
    intro s
    refine forall_congr' fun _ => and_congr_right fun _ => ?_
    exact ⟨Outcome.mono fun (x : Res o × σ) => (ih x.1).mp,
      Outcome.mono fun (x : Res o × σ) => (ih x.1).mpr⟩

/-- The rule as proofs apply it. -/
theorem wp.bind {Q : β → σ → Prop} (h : L.wp p (fun a t => L.wp (f a) Q t) s) :
    L.wp (p >>= f) Q s :=
  wp_bind.mpr h

/-- **What a weakest precondition is good for**: a run all of whose operations meet
what is assumed ends as it should, and its operations meet what is needed. -/
theorem sound : ∀ {s}, L.wp p Q s → p.Meets L.step L.assumed s →
    L.Outcome (fun x => Q x.1 x.2) (p.exec L.step s) ∧ p.Meets L.step L.needed s := by
  induction p with
  | ret a => exact fun h _ => ⟨h, trivial⟩
  | op o k ih =>
    intro s h hmeets
    obtain ⟨ha, hm⟩ := Prog.meets_op.mp hmeets
    obtain ⟨hn, hout⟩ := h ha
    rw [Prog.exec, Prog.Meets]
    cases hs : L.step o s with
    | ok x =>
      rw [hs] at hout
      obtain ⟨h1, h2⟩ := ih x.1 hout (hm x hs)
      exact ⟨h1, hn, h2⟩
    | panic msg =>
      rw [hs] at hout
      exact ⟨hout, hn, trivial⟩
    | disabled =>
      rw [hs] at hout
      exact ⟨hout, hn, trivial⟩

variable (ha : ∀ s o, L.assumed s o)
include ha

/-- A run of operations of which nothing is assumed. -/
theorem outcome (h : L.wp p Q s) :
    L.Outcome (fun x => Q x.1 x.2) (p.exec L.step s) :=
  (sound h (Prog.meets_of_forall ha p s)).1

/-- With nothing assumed and nothing needed there is only the run. -/
theorem wp_iff_outcome (hn : ∀ s o, L.needed s o) :
    L.wp p Q s ↔ L.Outcome (fun x => Q x.1 x.2) (p.exec L.step s) := by
  refine ⟨outcome ha, ?_⟩
  induction p generalizing s with
  | ret a => exact id
  | op o k ih =>
    intro h _
    refine ⟨hn s o, ?_⟩
    rw [Prog.exec] at h
    cases hs : L.step o s with
    | ok x =>
      rw [hs] at h
      exact ih x.1 h
    | panic msg =>
      rwa [hs] at h
    | disabled =>
      rwa [hs] at h

/-- Such a run that need not wait ends, or stops the system with a message that may. -/
theorem ok_or_panic (hd : ∀ o s, L.step o s ≠ .disabled)
    (h : L.wp p Q s) : (∃ x, p.exec L.step s = .ok x ∧ Q x.1 x.2) ∨ ∃ msg, p.exec L.step s =
      .panic msg ∧ ¬L.bad msg := by
  have hout := outcome ha h
  cases hx : p.exec L.step s with
  | ok x =>
    rw [hx] at hout
    exact .inl ⟨x, rfl, hout⟩
  | panic msg =>
    rw [hx] at hout
    exact .inr ⟨msg, rfl, hout⟩
  | disabled => exact absurd hx (Prog.exec_ne_disabled hd p s)

end Logic

/-! ### Simulation -/

/-- An effect is matched by another one: the answers are the same, and the states
related. The first may also stop the system with some messages of its own. -/
def Matched (R : σ → τ → Prop) (own : String → Prop) : Effect (α × σ) → Effect (α × τ) → Prop
  | .ok (a, s), e => ∃ t, e = .ok (a, t) ∧ R s t
  | .panic msg, e => own msg ∨ e = .panic msg
  | .disabled, e => e = .disabled

theorem Matched.ok {R : σ → τ → Prop} {own : String → Prop} {a : α} {s : σ} {t : τ}
    {e : Effect (α × τ)} (he : e = .ok (a, t)) (h : R s t) : Matched R own (.ok (a, s)) e :=
  ⟨t, he, h⟩

theorem Matched.panic {R : σ → τ → Prop} {own : String → Prop} {msg : String}
    {e : Effect (α × τ)} (he : e = .panic msg) : Matched R own (.panic msg) e := .inr he

/-- **A handler simulates another one**: related states stay related by every
operation that meets a condition, and the answers are the same. -/
def Simulates (step : (o : Op) → σ → Effect (Res o × σ)) (step' : (o : Op) → τ → Effect (Res o × τ))
    (R : σ → τ → Prop) (C : τ → Op → Prop) (own : String → Prop) : Prop :=
  ∀ o s t, R s t → C t o → Matched R own (step o s) (step' o t)

namespace Simulates

variable {step : (o : Op) → σ → Effect (Res o × σ)} {step' : (o : Op) → τ → Effect (Res o × τ)}
  {R : σ → τ → Prop} {C : τ → Op → Prop} {own : String → Prop}

/-- **Simulation of programs**: what holds of the single operations holds of a
run. -/
theorem exec (h : Simulates step step' R C own) {p : Prog Res α} :
    ∀ {s t}, R s t → p.Meets step' C t → Matched R own (p.exec step s) (p.exec step' t) := by
  induction p with
  | ret a => exact fun hR _ => ⟨_, rfl, hR⟩
  | op o k ih =>
    intro s t hR hmeets
    obtain ⟨hC, hm⟩ := Prog.meets_op.mp hmeets
    have ho := h o s t hR hC
    rw [Prog.exec, Prog.exec]
    cases hs : step o s with
    | ok x =>
      rw [hs] at ho
      obtain ⟨t', ht, hR'⟩ := ho
      rw [ht]
      exact ih x.1 hR' (hm _ ht)
    | panic msg =>
      rw [hs] at ho
      refine ho.imp_right fun ht => ?_
      rw [ht]
    | disabled =>
      rw [hs] at ho
      rw [show step' o t = .disabled from ho]
      rfl

end Simulates

end Xv6.Lib
