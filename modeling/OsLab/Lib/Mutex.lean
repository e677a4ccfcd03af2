import Mathlib.Logic.Function.Basic

/-!
# Mutexes and who holds them

One mutex for each `k : κ`; `owner k` is the party that has it. `Guards`: the parties that are inside the section of
`k` are those that have its mutex. Taking a free mutex lets one party in (`acquire`), giving it back lets out whoever was
in (`release`), and nobody else comes or goes.
-/

open Function (update)

/-- The owner of a mutex is the one that is inside. -/
def Guards {κ ι : Type*} (owner : κ → Option ι) (inside : κ → ι → Prop) : Prop := ∀ k i, owner k = some i ↔ inside k i

namespace Guards

variable {κ ι : Type*} {owner : κ → Option ι} {inside inside' : κ → ι → Prop} {k : κ} {i j : ι}

/-- The mutex excludes. -/
theorem unique (G : Guards owner inside) (hi : inside k i) (hj : inside k j) : i = j := by
  have h := (G k i).2 hi
  rw [(G k j).2 hj] at h
  exact (Option.some.inj h).symm

theorem congr (G : Guards owner inside) (h : ∀ k i, inside' k i ↔ inside k i) : Guards owner inside' :=
  fun k i => (G k i).trans (h k i).symm

variable [DecidableEq κ]

theorem acquire (G : Guards owner inside) (hfree : owner k = none)
    (h : ∀ l j, inside' l j ↔ l = k ∧ j = i ∨ inside l j) : Guards (update owner k (some i)) inside' := by
  intro l j
  rw [h]
  by_cases hl : l = k
  · have hnot := G k j
    rw [hfree] at hnot
    rw [hl, Function.update_self, Option.some.injEq, ← hnot]
    simp [eq_comm]
  · rw [Function.update_of_ne hl, G]
    simp [hl]

theorem release (G : Guards owner inside) (h : ∀ l j, inside' l j ↔ l ≠ k ∧ inside l j) :
    Guards (update owner k none) inside' := by
  intro l j
  rw [h]
  by_cases hl : l = k
  · simp [hl]
  · rw [Function.update_of_ne hl, G]
    simp [hl]

end Guards
