import BasicDemo.Library.Runs

namespace BasicDemo.Library.Runs

variable {σ ε τ α : Type*} {step : σ → ε → Option σ} {abstractStep : τ → α → Option τ}
  {answer : σ → ε → List α} {R : τ → σ → Prop}

theorem run_cons {s t : σ} {e : ε} (h : step s e = some t) (es : List ε) :
    run step s (e :: es) = run step t es := by
  rw [run, h, Option.bind_some]

theorem run_append (step : σ → ε → Option σ) (s : σ) (es more : List ε) :
    run step s (es ++ more) = (run step s es).bind (fun t => run step t more) := by
  induction es generalizing s with
  | nil => rfl
  | cons e es ih =>
    change (step s e).bind (fun t => run step t (es ++ more)) = _
    rw [run, Option.bind_assoc]
    exact congrArg _ (funext ih)

/-- What an abstract system does while the events are executed. -/
def answers (step : σ → ε → Option σ) (answer : σ → ε → List α) : σ → List ε → List α
  | _, [] => []
  | s, e :: es => answer s e ++ ((step s e).map (fun t => answers step answer t es)).getD []

theorem answers_cons {s t : σ} {e : ε} (h : step s e = some t) (es : List ε) :
    answers step answer s (e :: es) = answer s e ++ answers step answer t es := by
  rw [answers, h]
  rfl

/-- Every event is answered by steps of the abstract system that lead to a related state. -/
def Simulates (step : σ → ε → Option σ) (abstractStep : τ → α → Option τ)
    (answer : σ → ε → List α) (R : τ → σ → Prop) : Prop :=
  ∀ a s e t, R a s → step s e = some t →
    ∃ b, run abstractStep a (answer s e) = some b ∧ R b t

theorem Simulates.run (h : Simulates step abstractStep answer R) {a : τ} {s t : σ}
    {es : List ε} (hrel : R a s) (hrun : run step s es = some t) :
    ∃ b, Runs.run abstractStep a (answers step answer s es) = some b ∧ R b t := by
  induction es generalizing a s with
  | nil =>
    cases hrun
    exact ⟨a, rfl, hrel⟩
  | cons e es ih =>
    obtain ⟨u, hu, hrest⟩ := Option.bind_eq_some_iff.mp hrun
    obtain ⟨b, hb, hbu⟩ := h a s e u hrel hu
    obtain ⟨c, hc, hct⟩ := ih hbu hrest
    refine ⟨c, ?_, hct⟩
    rw [answers_cons hu, run_append, hb]
    exact hc

end BasicDemo.Library.Runs
