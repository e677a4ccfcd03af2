import OsLab.Lib.Trans

/-!
# Forward simulation

A system is simulated by another one along `R` when each of its steps keeps `R` or is matched by one step of the other
system (`Matched`). Then whatever it reaches is related to the end of a run of the other one.
-/

namespace Trans

variable {σ α τ β : Type*} {step : σ → α → Option σ} {step' : τ → β → Option τ} {R : σ → τ → Prop}

/-- `s'` is what the other system shows where it stands or one step on. -/
def Matched (step' : τ → β → Option τ) (R : σ → τ → Prop) (s' : σ) (t : τ) : Prop :=
  R s' t ∨ ∃ b t', step' t b = some t' ∧ R s' t'

theorem Matched.stay {s' : σ} {t : τ} (h : R s' t) : Matched step' R s' t := .inl h

theorem Matched.move {s' : σ} {t t' : τ} {b : β} (hb : step' t b = some t') (h : R s' t') : Matched step' R s' t :=
  .inr ⟨b, t', hb, h⟩

/-- **The simulation rule**. -/
theorem ReachIf.simulated {s₀ s : σ} {t₀ : τ} {ok : σ → α → Prop} (h0 : R s₀ t₀)
    (hstep : ∀ s a s' t, R s t → step s a = some s' → Matched step' R s' t) (h : ReachIf step ok s₀ s) :
    ∃ bs t, run step' t₀ bs = some t ∧ R s t := by
  induction h with
  | refl => exact ⟨[], t₀, rfl, h0⟩
  | tail _ _ hs ih =>
    obtain ⟨bs, t, hrun, hR⟩ := ih
    rcases hstep _ _ _ t hR hs with hR' | ⟨b, t', hb, hR'⟩
    · exact ⟨bs, t, hrun, hR'⟩
    · refine ⟨bs ++ [b], t', ?_, hR'⟩
      rw [run_append, hrun, Option.bind_some, run, hb]
      rfl

end Trans
