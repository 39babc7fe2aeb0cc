import Mathlib.Logic.Basic

namespace BasicDemo.Library.Runs

variable {σ ε : Type*} {step : σ → ε → Option σ}

/-- The state after a list of events. An event that is not enabled ends the run
without a result, so a run that returns has executed every event. -/
def run (step : σ → ε → Option σ) : σ → List ε → Option σ
  | s, [] => some s
  | s, e :: es => (step s e).bind (fun t => run step t es)

/-- `P` holds in every state of the run, the first one included. -/
def Throughout (step : σ → ε → Option σ) (P : σ → Prop) : σ → List ε → Prop
  | s, [] => P s
  | s, e :: es => P s ∧ ∀ t, step s e = some t → Throughout step P t es

/-- Every executed event of the run meets `C` in the state it is executed in. -/
def Along (step : σ → ε → Option σ) (C : σ → ε → Prop) : σ → List ε → Prop
  | _, [] => True
  | s, e :: es => ∀ t, step s e = some t → C s e ∧ Along step C t es

theorem Throughout.head {P : σ → Prop} {s : σ} {es : List ε}
    (h : Throughout step P s es) : P s := by
  cases es with
  | nil => exact h
  | cons e es => exact h.1

theorem Along.cons {C : σ → ε → Prop} {s t : σ} {e : ε} {es : List ε}
    (hs : step s e = some t) (hc : C s e) (h : Along step C t es) :
    Along step C s (e :: es) := by
  intro u hu
  cases Option.some.inj (hs.symm.trans hu)
  exact ⟨hc, h⟩

theorem along_cons_iff {C : σ → ε → Prop} {s t : σ} {e : ε} {es : List ε}
    (hs : step s e = some t) : Along step C s (e :: es) ↔ C s e ∧ Along step C t es :=
  ⟨fun h => h t hs, fun h => Along.cons hs h.1 h.2⟩

/-- Conditions on the events of a given run can be evaluated. -/
instance Along.decidable {C : σ → ε → Prop} [∀ s e, Decidable (C s e)] :
    (s : σ) → (es : List ε) → Decidable (Along step C s es)
  | _, [] => isTrue trivial
  | s, e :: es =>
    match hs : step s e with
    | none => isTrue (fun t ht => by rw [hs] at ht; cases ht)
    | some t =>
      have : Decidable (Along step C t es) := Along.decidable t es
      decidable_of_iff (C s e ∧ Along step C t es) (along_cons_iff hs).symm

theorem Along.and_mem {C : σ → ε → Prop} {D : ε → Prop} {s : σ} {es : List ε}
    (h : Along step C s es) (hd : ∀ e ∈ es, D e) : Along step (fun s e => D e ∧ C s e) s es := by
  induction es generalizing s with
  | nil => trivial
  | cons e es ih =>
    intro t ht
    obtain ⟨hc, hrest⟩ := h t ht
    exact ⟨⟨hd e List.mem_cons_self, hc⟩,
      ih hrest (fun d hmem => hd d (List.mem_cons_of_mem e hmem))⟩

/-- A guarded invariant: the condition on the events is what keeps it. -/
theorem throughout_of_along {I : σ → Prop} {C : σ → ε → Prop}
    (keep : ∀ s e t, I s → C s e → step s e = some t → I t)
    {s : σ} {es : List ε} (hi : I s) (hc : Along step C s es) : Throughout step I s es := by
  induction es generalizing s with
  | nil => exact hi
  | cons e es ih =>
    refine ⟨hi, ?_⟩
    intro t ht
    obtain ⟨he, hrest⟩ := hc t ht
    exact ih (keep s e t hi he ht) hrest

/-- An invariant of every step holds throughout every run. -/
theorem throughout_keeps {I : σ → Prop} (keep : ∀ s e t, I s → step s e = some t → I t)
    {s : σ} (hi : I s) (es : List ε) : Throughout step I s es := by
  induction es generalizing s with
  | nil => exact hi
  | cons e es ih => exact ⟨hi, fun t ht => ih (keep s e t hi ht)⟩

theorem Throughout.mono {P Q : σ → Prop} (hpq : ∀ s, P s → Q s) {s : σ} {es : List ε}
    (h : Throughout step P s es) : Throughout step Q s es := by
  induction es generalizing s with
  | nil => exact hpq s h
  | cons e es ih => exact ⟨hpq s h.1, fun t ht => ih (h.2 t ht)⟩

/-- A condition on events that follows from a state invariant holds along the run. -/
theorem Throughout.along {P : σ → Prop} {C D : σ → ε → Prop}
    (derive : ∀ s e t, P s → C s e → step s e = some t → D s e)
    {s : σ} {es : List ε} (hp : Throughout step P s es) (hc : Along step C s es) :
    Along step D s es := by
  induction es generalizing s with
  | nil => trivial
  | cons e es ih =>
    intro t ht
    obtain ⟨he, hrest⟩ := hc t ht
    exact ⟨derive s e t hp.1 he ht, ih (hp.2 t ht) hrest⟩

/-- When, step by step, the condition is exactly what preserves `P`, a whole run
keeps `P` exactly when all its events meet the condition. -/
theorem throughout_iff_along {I P : σ → Prop} {C : σ → ε → Prop}
    (keep : ∀ s e t, I s → step s e = some t → I t)
    (exact_step : ∀ s e t, I s → P s → step s e = some t → (P t ↔ C s e))
    {s : σ} {es : List ε} (hi : I s) (hp : P s) :
    Throughout step P s es ↔ Along step C s es := by
  constructor
  · intro h
    induction es generalizing s with
    | nil => trivial
    | cons e es ih =>
      intro t ht
      have hpt : P t := (h.2 t ht).head
      exact ⟨(exact_step s e t hi hp ht).mp hpt, ih (keep s e t hi ht) hpt (h.2 t ht)⟩
  · intro h
    have both : Throughout step (fun s => I s ∧ P s) s es := by
      apply throughout_of_along ?_ ⟨hi, hp⟩ h
      intro s e t hs he ht
      exact ⟨keep s e t hs.1 ht, (exact_step s e t hs.1 hs.2 ht).mpr he⟩
    exact both.mono (fun _ hs => hs.2)

theorem Throughout.last {P : σ → Prop} {s t : σ} {es : List ε}
    (h : Throughout step P s es) (hr : run step s es = some t) : P t := by
  induction es generalizing s with
  | nil =>
    cases hr
    exact h
  | cons e es ih =>
    obtain ⟨u, hu, hr⟩ := Option.bind_eq_some_iff.mp hr
    exact ih (h.2 u hu) hr

/-- What holds throughout a longer run holds throughout its continuation. -/
theorem Throughout.drop {P : σ → Prop} {s t : σ} {es more : List ε}
    (h : Throughout step P s (es ++ more)) (hr : run step s es = some t) :
    Throughout step P t more := by
  induction es generalizing s with
  | nil =>
    cases hr
    exact h
  | cons e es ih =>
    obtain ⟨u, hu, hr⟩ := Option.bind_eq_some_iff.mp hr
    exact ih (h.2 u hu) hr

theorem Along.drop {C : σ → ε → Prop} {s t : σ} {es more : List ε}
    (h : Along step C s (es ++ more)) (hr : run step s es = some t) :
    Along step C t more := by
  induction es generalizing s with
  | nil =>
    cases hr
    exact h
  | cons e es ih =>
    obtain ⟨u, hu, hr⟩ := Option.bind_eq_some_iff.mp hr
    exact ih (h u hu).2 hr

end BasicDemo.Library.Runs
