import Mathlib.Data.List.Basic
import Mathlib.Data.Nat.Notation

/-!
# Loops whose body may fail

`upTo` is a loop that counts, `repeatWhile` one that tests; `none` is a body that has failed, for the second also that the
fuel has not been enough. `upTo_rule` and `repeatWhile_rule` are their rules for total correctness.
-/

namespace Loop

variable {σ : Type*}

/-- `for (i = lo; i < hi; ++i)`. -/
def upTo (lo hi : ℕ) (body : ℕ → σ → Option σ) (s : σ) : Option σ :=
  (List.range' lo (hi - lo)).foldlM (fun s i => body i s) s

/-- `while (test)`, at most `fuel` times. -/
def repeatWhile (test : σ → Bool) (body : σ → Option σ) : ℕ → σ → Option σ
  | 0, s => if test s then none else some s
  | fuel + 1, s => if test s then (body s).bind (repeatWhile test body fuel) else some s

theorem upTo_end {lo hi : ℕ} (h : hi ≤ lo) (body : ℕ → σ → Option σ) (s : σ) : upTo lo hi body s = some s := by
  rw [upTo, Nat.sub_eq_zero_of_le h]
  rfl

theorem upTo_step {lo hi : ℕ} (h : lo < hi) (body : ℕ → σ → Option σ) (s : σ) :
    upTo lo hi body s = (body lo s).bind (upTo (lo + 1) hi body) := by
  obtain ⟨m, hm⟩ : ∃ m, hi - lo = m + 1 := ⟨hi - lo - 1, by omega⟩
  have hm' : hi - (lo + 1) = m := by omega
  rw [upTo, hm, List.range'_succ, List.foldlM_cons]
  unfold upTo
  rw [hm']
  rfl

/-- **The rule of the counting loop**: an invariant that says how far the loop has come. -/
theorem upTo_rule {I : ℕ → σ → Prop} {body : ℕ → σ → Option σ} {lo hi : ℕ} (hle : lo ≤ hi)
    (hbody : ∀ i s, lo ≤ i → i < hi → I i s → ∃ s', body i s = some s' ∧ I (i + 1) s') {s : σ} (h : I lo s) :
    ∃ s', upTo lo hi body s = some s' ∧ I hi s' := by
  obtain ⟨m, rfl⟩ := Nat.exists_eq_add_of_le hle
  clear hle
  induction m generalizing lo s with
  | zero => exact ⟨s, upTo_end (Nat.le_refl _) body s, h⟩
  | succ m ih =>
    obtain ⟨t, ht, hI⟩ := hbody lo s (Nat.le_refl lo) (by omega) h
    have hend : lo + 1 + m = lo + (m + 1) := by omega
    obtain ⟨s', hs', hI'⟩ := ih hI fun i s hi hlt => hbody i s (by omega) (by omega)
    rw [hend] at hs' hI'
    exact ⟨s', by rw [upTo_step (by omega), ht, Option.bind_some, hs'], hI'⟩

/-- **The rule of the loop with a test**: an invariant, and a measure that every turn makes smaller. -/
theorem repeatWhile_rule (I : σ → Prop) (measure : σ → ℕ) {test : σ → Bool} {body : σ → Option σ}
    (hbody : ∀ s, I s → test s = true → ∃ s', body s = some s' ∧ I s' ∧ measure s' < measure s) {s : σ} (h : I s) :
    ∃ s', I s' ∧ test s' = false ∧ ∀ fuel, measure s ≤ fuel → repeatWhile test body fuel s = some s' := by
  induction hm : measure s using Nat.strongRecOn generalizing s with
  | _ m ih =>
    cases ht : test s with
    | false =>
      refine ⟨s, h, ht, fun fuel _ => ?_⟩
      cases fuel with
      | zero => rw [repeatWhile, ht]; rfl
      | succ fuel => rw [repeatWhile, ht]; rfl
    | true =>
      obtain ⟨t, hstep, hI, hlt⟩ := hbody s h ht
      obtain ⟨s', hI', ht', hrun⟩ := ih _ (hm ▸ hlt) hI rfl
      refine ⟨s', hI', ht', fun fuel hfuel => ?_⟩
      cases fuel with
      | zero => omega
      | succ fuel =>
        rw [repeatWhile, ht, if_pos rfl, hstep, Option.bind_some]
        exact hrun fuel (by omega)

end Loop
