import OsLab.Lib.Trans

/-!
# Fair schedules

An infinite schedule gives each actor its turn again and again, and a turn passes when the actor's move is blocked. A system
makes `Progress` when in every state some actor helps: its next move makes the measure smaller, and until that move is made
nobody makes it larger or the actor useless. `Progress.eventually` is the rule for weak fairness: the measure comes down to
0, though there may be any number of other moves in between.
-/

namespace Trans

variable {σ α : Type*}

/-- The turn of `a`. -/
def turn (step : σ → α → Option σ) (s : σ) (a : α) : σ := (step s a).getD s

/-- The state after `k` turns of a schedule. -/
def course (step : σ → α → Option σ) (sched : ℕ → α) (s : σ) : ℕ → σ
  | 0 => s
  | k + 1 => turn step (course step sched s k) (sched k)

/-- Everybody has another turn after any number of turns. -/
def Fair (sched : ℕ → α) : Prop := ∀ a k, ∃ j, k ≤ j ∧ sched j = a

/-- Somebody helps to make `m` smaller until it is 0. -/
structure Progress (step : σ → α → Option σ) (I : σ → Prop) (m : σ → ℕ) (Helps : σ → α → Prop) : Prop where
  inv : ∀ {s a s'}, I s → step s a = some s' → I s'
  exists_helps : ∀ {s}, I s → 0 < m s → ∃ a, Helps s a
  down : ∀ {s a}, I s → Helps s a → ∃ s', step s a = some s' ∧ m s' < m s
  keep : ∀ {s b s'}, I s → step s b = some s' → m s' < m s ∨ m s' ≤ m s ∧ ∀ a, Helps s a → Helps s' a

section
variable {step : σ → α → Option σ} {sched : ℕ → α} {s : σ}

theorem turn_of_step {s' : σ} {a : α} (h : step s a = some s') : turn step s a = s' := by
  rw [turn, h, Option.getD_some]

theorem turn_of_blocked {a : α} (h : step s a = none) : turn step s a = s := by
  rw [turn, h, Option.getD_none]

theorem course_reach (sched : ℕ → α) (s : σ) (k : ℕ) : Reach step s (course step sched s k) := by
  induction k with
  | zero => exact .refl
  | succ k ih =>
    rw [course]
    cases h : step (course step sched s k) (sched k) with
    | none => rwa [turn_of_blocked h]
    | some s' =>
      rw [turn_of_step h]
      exact .tail ih trivial h

/-- The states behind `k` turns are a course of their own. -/
theorem course_add (sched : ℕ → α) (s : σ) (k j : ℕ) :
    course step sched s (k + j) = course step (fun i => sched (k + i)) (course step sched s k) j := by
  induction j with
  | zero => rfl
  | succ j ih => rw [← Nat.add_assoc, course, course, ih]

namespace Progress

variable {I : σ → Prop} {m : σ → ℕ} {Helps : σ → α → Prop} {a : α}

theorem inv_course (P : Progress step I m Helps) (h0 : I s) (sched : ℕ → α) (k : ℕ) : I (course step sched s k) :=
  (course_reach sched s k).inv h0 fun _ _ _ _ hI _ hs => P.inv hI hs

/-- Until the measure is smaller whoever helps goes on to help. -/
theorem helps_course (P : Progress step I m Helps) (h0 : I s) (ha : Helps s a) (sched : ℕ → α) (k : ℕ) :
    m (course step sched s k) < m s ∨ m (course step sched s k) ≤ m s ∧ Helps (course step sched s k) a := by
  induction k with
  | zero => exact .inr ⟨Nat.le_refl _, ha⟩
  | succ k ih =>
    rw [course]
    cases h : step (course step sched s k) (sched k) with
    | none => rwa [turn_of_blocked h]
    | some s' =>
      rw [turn_of_step h]
      rcases P.keep (P.inv_course h0 sched k) h with hlt | ⟨hle, hkeep⟩
      · rcases ih with hlt' | ⟨hle', -⟩
        · exact .inl (Nat.lt_trans hlt hlt')
        · exact .inl (Nat.lt_of_lt_of_le hlt hle')
      · rcases ih with hlt' | ⟨hle', ha'⟩
        · exact .inl (Nat.lt_of_le_of_lt hle hlt')
        · exact .inr ⟨Nat.le_trans hle hle', hkeep a ha'⟩

/-- It never gets larger. -/
theorem le_course (P : Progress step I m Helps) (h0 : I s) (sched : ℕ → α) (k : ℕ) : m (course step sched s k) ≤ m s := by
  induction k with
  | zero => exact Nat.le_refl _
  | succ k ih =>
    rw [course]
    cases h : step (course step sched s k) (sched k) with
    | none => rwa [turn_of_blocked h]
    | some s' =>
      rw [turn_of_step h]
      rcases P.keep (P.inv_course h0 sched k) h with hlt | ⟨hle, -⟩
      · exact Nat.le_trans (Nat.le_of_lt hlt) ih
      · exact Nat.le_trans hle ih

/-- **The rule for fair schedules**: the measure is 0 from some turn on. -/
theorem eventually (P : Progress step I m Helps) (hfair : Fair sched) (h0 : I s) :
    ∃ N, ∀ k, N ≤ k → m (course step sched s k) = 0 := by
  obtain ⟨N, hN⟩ : ∃ N, m (course step sched s N) = 0 := by
    induction hn : m s using Nat.strongRecOn generalizing s sched with
    | _ n ih =>
      subst hn
      by_cases hzero : m s = 0
      · exact ⟨0, hzero⟩
      · obtain ⟨a, ha⟩ := P.exists_helps h0 (Nat.pos_of_ne_zero hzero)
        -- some turns later `a` has its next one
        obtain ⟨k, -, hk⟩ := hfair a 0
        have hlater : m (course step sched s (k + 1)) < m s := by
          rcases P.helps_course h0 ha sched k with hlt | ⟨hle, ha'⟩
          · have hnext := P.le_course (P.inv_course h0 sched k) (fun i => sched (k + i)) 1
            rw [← course_add] at hnext
            exact Nat.lt_of_le_of_lt hnext hlt
          · obtain ⟨s', hs', hlt⟩ := P.down (P.inv_course h0 sched k) ha'
            rw [course, hk, turn_of_step hs']
            exact Nat.lt_of_lt_of_le hlt hle
        have hrest : Fair fun i => sched (k + 1 + i) := by
          intro b j
          obtain ⟨l, hl, hb⟩ := hfair b (k + 1 + j)
          refine ⟨l - (k + 1), by omega, ?_⟩
          show sched (k + 1 + (l - (k + 1))) = b
          rwa [show k + 1 + (l - (k + 1)) = l by omega]
        obtain ⟨N, hN⟩ := ih _ hlater hrest (P.inv_course h0 sched (k + 1)) rfl
        exact ⟨k + 1 + N, by rwa [course_add]⟩
  refine ⟨N, fun k hk => ?_⟩
  obtain ⟨j, rfl⟩ := Nat.exists_eq_add_of_le hk
  have hle := P.le_course (P.inv_course h0 sched N) (fun i => sched (N + i)) j
  rw [← course_add, hN] at hle
  exact Nat.eq_zero_of_le_zero hle

end Progress

end

end Trans
