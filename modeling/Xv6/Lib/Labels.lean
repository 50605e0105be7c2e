import Xv6.Lib.Run

/-!
# The labels of a run

Some of the steps of a run can be seen from outside, or matter to something else that is
being said about it. `labels` lists them in order: a step in a state with an action has at
most one label.

* `run_refines`: if every labelled step is a step of another system under a refinement
  mapping, and every other step changes nothing there, then the labels of a run are a run of
  the other system;
* `meets_iff`: if a condition on each step says exactly whether the state after it is good, as
  long as all has been well, then the states of a run are all good just if its steps all meet
  the condition;
* `labels_balance`: if one kind of label always goes into a queue and the other comes out of
  it, then what has gone in is what has come out followed by what is left.
-/

namespace Xv6.Lib

variable {σ τ α β : Type*} {step : σ → α → Option σ} {as : List α} {P : σ → Prop} {C : σ → α → Prop}

/-- The labels of the steps of a run, in order. -/
def labels (step : σ → α → Option σ) (label : σ → α → Option β) (s : σ) : List α → List β
  | [] => []
  | a :: as => (label s a).toList ++ match step s a with
    | none => []
    | some t => labels step label t as

theorem labels_cons {label : σ → α → Option β} {s t : σ} {a : α} (h : step s a = some t)
    (as : List α) : labels step label s (a :: as) =
      (label s a).toList ++ labels step label t as := by
  rw [labels, h]

/-- Labels that are made of other labels. -/
theorem labels_filterMap {γ : Type*} (label : σ → α → Option β) (g : β → Option γ) :
    ∀ s : σ, (labels step label s as).filterMap g =
      labels step (fun s a => (label s a).bind g) s as := by
  induction as with
  | nil => exact fun s => rfl
  | cons a as ih =>
    intro s
    have htail : (match step s a with
        | none => []
        | some t => labels step label t as).filterMap g = match step s a with
        | none => []
        | some t => labels step (fun s a => (label s a).bind g) t as := by
      cases step s a with
      | none => rfl
      | some t => exact ih t
    rw [labels, labels, List.filterMap_append, htail]
    congr 1
    cases label s a with
    | none => rfl
    | some b => cases hb : g b <;> simp [hb]

/-- Labels that only depend on the action. -/
theorem labels_of_run (f : α → Option β) : ∀ {s t : σ}, run step s as = some t →
    labels step (fun _ => f) s as = as.filterMap f := by
  induction as with
  | nil => exact fun _ => rfl
  | cons a as ih =>
    intro s t h
    obtain ⟨u, hu, ht⟩ := run_cons.mp h
    rw [labels_cons hu, ih ht]
    cases ha : f a <;> simp [ha]

/-- **A refinement mapping.** The steps of a run that meet a condition are, under the
mapping, the steps of another system that their labels name. -/
theorem run_refines {step' : τ → β → Option τ} {label : σ → α → Option β} {f : σ → τ}
    (hinv : ∀ {s t a}, P s → C s a → step s a = some t → P t)
    (hstep : ∀ {s t a}, P s → C s a → step s a = some t → run step' (f s) (label s a).toList =
      some (f t)) :
    ∀ {s t : σ}, P s → Meets step C s as → run step s as = some t →
      run step' (f s) (labels step label s as) = some (f t) := by
  induction as with
  | nil =>
    intro s t _ _ h
    obtain rfl := Option.some.inj h
    rfl
  | cons a as ih =>
    intro s t hs hm h
    obtain ⟨u, hu, ht⟩ := run_cons.mp h
    have hm' := meets_cons.mp hm
    rw [labels_cons hu]
    exact run_append.mpr
      ⟨f u, hstep hs hm'.1 hu, ih (hinv hs hm'.1 hu) (hm'.2 u hu) ht⟩

/-- **First in, first out.** What goes in and has not come out is waiting, in order. -/
theorem labels_balance (into out : σ → α → Option β) (waiting : σ → List β)
    (hinv : ∀ {s t a}, P s → C s a → step s a = some t → P t)
    (hstep : ∀ {s t a}, P s → C s a → step s a = some t → waiting s ++ (into s a).toList =
      (out s a).toList ++ waiting t) :
    ∀ {s t : σ}, P s → Meets step C s as → run step s as = some t →
      waiting s ++ labels step into s as = labels step out s as ++ waiting t := by
  induction as with
  | nil =>
    intro s t _ _ h
    obtain rfl := Option.some.inj h
    exact List.append_nil _
  | cons a as ih =>
    intro s t hs hm h
    obtain ⟨u, hu, ht⟩ := run_cons.mp h
    have hm' := meets_cons.mp hm
    rw [labels_cons hu, labels_cons hu, ← List.append_assoc, hstep hs hm'.1 hu,
      List.append_assoc, ih (hinv hs hm'.1 hu) (hm'.2 u hu) ht, List.append_assoc]

/-- **The exact condition.** -/
theorem meets_iff {Q : σ → Prop}
    (hstep : ∀ {s t a}, P s → step s a = some t → (Q t ↔ C s a) ∧ (C s a → P t)) :
    ∀ {s t : σ}, P s → run step s as = some t →
      (Meets step (fun s a => ∀ u, step s a = some u → Q u) s as ↔ Meets step C s as) := by
  induction as with
  | nil => exact fun _ _ => Iff.rfl
  | cons a as ih =>
    intro s t hs h
    obtain ⟨u, hu, ht⟩ := run_cons.mp h
    obtain ⟨hiff, hinv⟩ := hstep hs hu
    have hone : ∀ {R : σ → Prop}, (∀ v, step s a = some v → R v) ↔ R u := fun {R} =>
      ⟨fun hR => hR u hu, fun hR v hv => Option.some.inj (hu.symm.trans hv) ▸ hR⟩
    rw [meets_cons, meets_cons, hone, hone, hone, hiff]
    exact and_congr_right fun hC => ih (hinv hC) ht

end Xv6.Lib
