import Mathlib.Data.List.Basic
import Mathlib.Data.List.Induction
import Mathlib.Logic.Function.Basic

/-!
# Transition systems with partial deterministic steps

A system is a function `step : σ → α → Option σ`: the label `a : α` says who moves and what it
chooses, `none` says that the move is blocked. Everything nondeterministic (the scheduler, the
calls a client makes) is in the choice of the labels, so a run is a list of labels and can be
evaluated.

`ReachIf step ok s₀ s` is reachability through steps that meet the side condition `ok`, `Reach`
reachability without one. `ReachIf.inv` is the invariant rule.
-/

namespace Trans

variable {σ α : Type*}

/-- Take the moves of a list one after the other. -/
def run (step : σ → α → Option σ) : σ → List α → Option σ
  | s, [] => some s
  | s, a :: as => (step s a).bind fun s' => run step s' as

/-- The system that refuses the steps that do not meet `ok`. -/
def guarded (step : σ → α → Option σ) (ok : σ → α → Prop) [∀ s a, Decidable (ok s a)] (s : σ) (a : α) : Option σ :=
  if ok s a then step s a else none

/-- The states reached from `s₀` by steps that meet `ok`. -/
inductive ReachIf (step : σ → α → Option σ) (ok : σ → α → Prop) (s₀ : σ) : σ → Prop
  | refl : ReachIf step ok s₀ s₀
  | tail {s s' : σ} {a : α} : ReachIf step ok s₀ s → ok s a → step s a = some s' → ReachIf step ok s₀ s'

/-- The states reached from `s₀`. -/
abbrev Reach (step : σ → α → Option σ) (s₀ s : σ) : Prop := ReachIf step (fun _ _ => True) s₀ s

section
variable {step : σ → α → Option σ} {ok ok' : σ → α → Prop} {s₀ s s' : σ}

/-- **The invariant rule**; the step may use that its source is reachable. -/
theorem ReachIf.inv {I : σ → Prop} (h : ReachIf step ok s₀ s) (h0 : I s₀)
    (hstep : ∀ s a s', ReachIf step ok s₀ s → I s → ok s a → step s a = some s' → I s') : I s := by
  induction h with
  | refl => exact h0
  | tail hr ha hs ih => exact hstep _ _ _ hr ih ha hs

theorem ReachIf.mono (hok : ∀ s a, ok s a → ok' s a) (h : ReachIf step ok s₀ s) : ReachIf step ok' s₀ s := by
  induction h with
  | refl => exact .refl
  | tail _ ha hs ih => exact .tail ih (hok _ _ ha) hs

theorem ReachIf.reach (h : ReachIf step ok s₀ s) : Reach step s₀ s := h.mono fun _ _ _ => trivial

theorem ReachIf.trans (h : ReachIf step ok s₀ s) (h' : ReachIf step ok s s') : ReachIf step ok s₀ s' := by
  induction h' with
  | refl => exact h
  | tail _ ha hs ih => exact .tail ih ha hs

theorem ReachIf.single {a : α} (ha : ok s a) (hs : step s a = some s') : ReachIf step ok s s' :=
  .tail .refl ha hs

end

section
variable {step : σ → α → Option σ} {s s' : σ}

/-- From a state without a step nothing else is reached. -/
theorem eq_of_stuck {ok : σ → α → Prop} (h : ∀ a, step s a = none) (hr : ReachIf step ok s s') : s' = s := by
  induction hr with
  | refl => rfl
  | tail _ _ hs ih =>
    rw [ih, h] at hs
    cases hs

end

/-! ## Runs as lists of moves -/

section
variable {step : σ → α → Option σ} {s s' : σ}

theorem run_append (as bs : List α) : run step s (as ++ bs) = (run step s as).bind fun t => run step t bs := by
  induction as generalizing s with
  | nil => rfl
  | cons a as ih => simp only [List.cons_append, run, Option.bind_assoc, ih]

/-- **The invariant rule** for what is said of the state and the moves so far. -/
theorem run_inv {I : List α → σ → Prop} (h0 : I [] s)
    (hstep : ∀ as t a t', I as t → step t a = some t' → I (as ++ [a]) t') {as : List α} {s' : σ}
    (h : run step s as = some s') : I as s' := by
  induction as using List.reverseRecOn generalizing s' with
  | nil => simp only [run, Option.some.injEq] at h; exact h ▸ h0
  | append_singleton as a ih =>
    rw [run_append, Option.bind_eq_some_iff] at h
    obtain ⟨t, ht, h⟩ := h
    simp only [run, Option.bind_eq_some_iff, Option.some.injEq, exists_eq_right] at h
    exact hstep as t a s' (ih ht) h

/-- **The invariant rule** with a condition on all moves of the run and the states they are made in. -/
theorem run_inv_of_moves {I : σ → Prop} {P : σ → α → Prop} (h0 : I s)
    (hstep : ∀ t a t', I t → P t a → step t a = some t' → I t') {as : List α} {s' : σ} (h : run step s as = some s')
    (hP : ∀ n t a, run step s (as.take n) = some t → as[n]? = some a → P t a) : I s' := by
  induction as generalizing s with
  | nil => simp only [run, Option.some.injEq] at h; exact h ▸ h0
  | cons a as ih =>
    obtain ⟨t, ht, h⟩ := Option.bind_eq_some_iff.1 h
    refine ih (hstep s a t h0 (hP 0 s a rfl rfl) ht) h fun n u b hu hb => hP (n + 1) u b ?_ hb
    rw [List.take_succ_cons]
    exact Option.bind_eq_some_iff.2 ⟨t, ht, hu⟩

/-- Every move of the run is made in a state with `P`. -/
def Along (step : σ → α → Option σ) (P : σ → Prop) (s : σ) (as : List α) : Prop :=
  ∀ n t a, run step s (as.take n) = some t → as[n]? = some a → P t

theorem along_of_forall {P : σ → Prop} (h : ∀ as t, run step s as = some t → P t) (as : List α) : Along step P s as :=
  fun n t _ ht _ => h (as.take n) t ht

/-- The first moves of a run. -/
theorem Along.of_append {P : σ → Prop} {as bs : List α} (h : Along step P s (as ++ bs)) : Along step P s as := by
  intro n t a ht ha
  have hn : n < as.length := (List.getElem?_eq_some_iff.1 ha).1
  refine h n t a ?_ ?_
  · rwa [List.take_append_of_le_length (Nat.le_of_lt hn)]
  · rwa [List.getElem?_append_left hn]

theorem Along.take {P : σ → Prop} {as : List α} (h : Along step P s as) (n : ℕ) : Along step P s (as.take n) := by
  rw [← as.take_append_drop n] at h
  exact h.of_append

/-- **The invariant rule** for what is said of the state and the moves so far, with a condition on the states moves are
made in. -/
theorem run_inv_along {I : List α → σ → Prop} {P : σ → Prop} (h0 : I [] s)
    (hstep : ∀ as t a t', I as t → P t → step t a = some t' → I (as ++ [a]) t') {as : List α} {s' : σ}
    (h : run step s as = some s') (hP : Along step P s as) : I as s' := by
  induction as using List.reverseRecOn generalizing s' with
  | nil => simp only [run, Option.some.injEq] at h; exact h ▸ h0
  | append_singleton as a ih =>
    have hlast : ∀ {t}, run step s as = some t → P t := fun {t} ht =>
      hP as.length t a (by rwa [List.take_left']; rfl) (by simp)
    rw [run_append, Option.bind_eq_some_iff] at h
    obtain ⟨t, ht, h⟩ := h
    simp only [run, Option.bind_eq_some_iff, Option.some.injEq, exists_eq_right] at h
    exact hstep as t a s' (ih ht hP.of_append) (hlast ht) h

/-- **The rule for bounded runs**: when each step takes something away from `m`, a run has at most as many. -/
theorem run_length_le {I : σ → Prop} {m : σ → ℕ} (h0 : I s)
    (hstep : ∀ t a t', I t → step t a = some t' → I t' ∧ m t' < m t) {as : List α} {s' : σ}
    (h : run step s as = some s') : I s' ∧ as.length + m s' ≤ m s := by
  refine run_inv (I := fun as s' => I s' ∧ as.length + m s' ≤ m s) ⟨h0, by simp⟩ ?_ h
  rintro as t a t' ⟨hI, hle⟩ hs
  obtain ⟨hI', hlt⟩ := hstep t a t' hI hs
  refine ⟨hI', ?_⟩
  rw [List.length_append, List.length_singleton]
  omega

/-- A run of moves that meet `ok` whatever the state is. -/
theorem reachIf_of_run_forall {ok : σ → α → Prop} (as : List α) (hok : ∀ a ∈ as, ∀ s, ok s a)
    (h : run step s as = some s') : ReachIf step ok s s' := by
  induction as generalizing s with
  | nil => simp only [run, Option.some.injEq] at h; exact h ▸ .refl
  | cons a as ih =>
    simp only [run, Option.bind_eq_some_iff] at h
    obtain ⟨t, hs, h⟩ := h
    exact (ReachIf.single (hok a (by simp) s) hs).trans (ih (fun b hb => hok b (by simp [hb])) h)

theorem reach_of_run (as : List α) (h : run step s as = some s') : Reach step s s' :=
  reachIf_of_run_forall as (fun _ _ _ => trivial) h

theorem reachIf_of_run {ok : σ → α → Prop} [∀ s a, Decidable (ok s a)] {as : List α}
    (h : run (guarded step ok) s as = some s') : ReachIf step ok s s' := by
  induction as generalizing s with
  | nil => simp only [run, Option.some.injEq] at h; exact h ▸ .refl
  | cons a as ih =>
    simp only [run, Option.bind_eq_some_iff, guarded, Option.ite_none_right_eq_some] at h
    obtain ⟨t, ⟨hok, hs⟩, h⟩ := h
    exact (ReachIf.single hok hs).trans (ih h)

/-- The moves of a guarded run are made in states that meet `P`. -/
theorem along_of_run {P : σ → Prop} [DecidablePred P] {as : List α}
    (h : run (guarded step fun s _ => P s) s as = some s') : run step s as = some s' ∧ Along step P s as := by
  induction as generalizing s with
  | nil => exact ⟨h, fun n t a _ ha => by simp at ha⟩
  | cons a as ih =>
    simp only [run, Option.bind_eq_some_iff, guarded, Option.ite_none_right_eq_some] at h
    obtain ⟨t, ⟨hP, hs⟩, h⟩ := h
    obtain ⟨hrun, halong⟩ := ih h
    refine ⟨Option.bind_eq_some_iff.2 ⟨t, hs, hrun⟩, fun n u b hu hb => ?_⟩
    cases n with
    | zero =>
      cases hu
      exact hP
    | succ n =>
      rw [List.take_succ_cons, run, hs] at hu
      exact halong n u b hu hb

/-- A computed run that ends in a state with `p`: how a concrete schedule is replayed. -/
theorem exists_reach_of_run (step : σ → α → Option σ) (s : σ) (as : List α) (p : σ → Bool)
    (h : (run step s as).any p = true) : ∃ s', Reach step s s' ∧ p s' = true := by
  cases hr : run step s as with
  | none => simp [hr] at h
  | some s' => exact ⟨s', reach_of_run _ hr, by simpa [hr] using h⟩

theorem exists_of_run (step : σ → α → Option σ) (s : σ) (as : List α) (p : σ → Bool)
    (h : (run step s as).any p = true) : ∃ s', run step s as = some s' ∧ p s' = true := by
  cases hr : run step s as with
  | none => simp [hr] at h
  | some s' => exact ⟨s', rfl, by simpa [hr] using h⟩

/-- The same with the states the moves are made in. -/
theorem exists_along_of_run (step : σ → α → Option σ) (P : σ → Prop) [DecidablePred P] (s : σ) (as : List α) (p : σ → Bool)
    (h : (run (guarded step fun s _ => P s) s as).any p = true) :
    ∃ s', run step s as = some s' ∧ Along step P s as ∧ p s' = true := by
  cases hr : run (guarded step fun s _ => P s) s as with
  | none => simp [hr] at h
  | some s' => exact ⟨s', (along_of_run hr).1, (along_of_run hr).2, by simpa [hr] using h⟩

/-- The same for a schedule whose steps meet `ok`. -/
theorem exists_reachIf_of_run (step : σ → α → Option σ) (ok : σ → α → Prop) [∀ s a, Decidable (ok s a)]
    (s : σ) (as : List α) (p : σ → Bool) (h : (run (guarded step ok) s as).any p = true) :
    ∃ s', ReachIf step ok s s' ∧ p s' = true := by
  cases hr : run (guarded step ok) s as with
  | none => simp [hr] at h
  | some s' => exact ⟨s', reachIf_of_run hr, by simpa [hr] using h⟩

end

end Trans
