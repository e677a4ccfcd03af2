import OsLab.A5.Topo

/-!
# When the workers block each other (A5/worker.c)

As every `P(syncid)` and `V(syncid)` addresses index 0 (:48), a worker without successors can use up tokens that were
meant for one with successors. The workers `D` that are done have been served from the tokens of those before them,
the others hold too few. They block each other for ever when what `D` has left fits below their indegrees, that is
when they have together at least as many outgoing edges as there are of them (`deadlockFree_iff`).
-/

namespace OsLab.A5

open Function (update)

variable {n : Nat} (A : Fin n → Fin n → Int)

/-- A worker has not recorded itself in `T`, and no worker can take a step. -/
def Deadlocked (s : Workers n) : Prop := (∃ i, ∀ p, ¬ Wrote s i p) ∧ ∀ i, s.step A (.worker i) = none

/-- The workers outside of a set that can be served first have fewer outgoing edges than there are of them, unless one
of them waits for nothing. -/
def FewSuccessors : Prop :=
  ∀ D : Finset (Fin n), Precedence.Servable (Edge A) D → D ≠ Finset.univ → (∀ i, i ∉ D → 0 < indegree A i) →
    ∑ i ∈ Dᶜ, Precedence.outdegree (Edge A) i < Dᶜ.card

variable {A} {s s' : Workers n}

/-- Where a worker is that cannot take a step. -/
theorem blocked_cases (i : Fin n) (h : s.step A (.worker i) = none) :
    (∃ j, s.pc i = .wait j ∧ j < indegree A i ∧ s.sync semNum = 0) ∨ s.pc i = .lock ∧ s.mtx = 0 ∨ s.pc i = .done := by
  cases hpc : s.pc i <;> simp only [Workers.step, hpc, Workers.exec] at h
  case wait j =>
    split at h
    · rename_i hj
      rw [Option.map_eq_none_iff, Workers.syncP, ite_eq_right_iff] at h
      refine .inl ⟨j, rfl, hj, ?_⟩
      by_contra hpos
      exact absurd (h (by omega)) (by simp)
    · cases h
  case lock =>
    rw [ite_eq_right_iff] at h
    refine .inr (.inl ⟨rfl, ?_⟩)
    by_contra hpos
    exact absurd (h (by omega)) (by simp)
  case post j => split at h <;> cases h
  case done => exact .inr (.inr rfl)
  all_goals cases h

/-- The mutex is free when nobody can take a step. -/
theorem mtx_free (I : WorkerInv A s) (h : ∀ i, s.step A (.worker i) = none) : s.mtx = 1 := by
  have hcs : ∀ i, (s.pc i).inCS = false := by
    intro i
    rcases blocked_cases i (h i) with ⟨j, hpc, -⟩ | ⟨hpc, -⟩ | hpc <;> simp [hpc, WorkerPc.inCS]
  have := I.mtx
  simpa [hcs] using this

/-- **No deadlock** when `FewSuccessors` holds: the tokens do not fit below the indegrees of the blocked workers. -/
theorem not_deadlocked (h : FewSuccessors A) {T0 : Nat → Nat}
    (hr : Trans.Reach (Workers.step A) (Workers.init T0) s) : ¬ Deadlocked A s := by
  rintro ⟨⟨i, hi⟩, hstuck⟩
  obtain ⟨I, l, R, hS⟩ := exists_recorded hr
  have hmtx := mtx_free I hstuck
  -- a worker waits for a token, or has recorded itself and is done
  have hcases : ∀ k, (k ∉ l ∧ ∃ j, s.pc k = .wait j ∧ j < indegree A k ∧ s.sync semNum = 0) ∨ k ∈ l ∧ s.pc k = .done := by
    intro k
    rw [R.mem]
    rcases blocked_cases k (hstuck k) with ⟨j, hpc, hj⟩ | ⟨-, hm⟩ | hpc
    · exact .inl ⟨by simp [hpc, WorkerPc.recorded], j, hpc, hj⟩
    · omega
    · exact .inr ⟨by simp [hpc, WorkerPc.recorded], hpc⟩
  have hil : i ∉ l := by
    intro hmem
    obtain ⟨p, hp⟩ := List.mem_iff_getElem?.1 hmem
    exact hi p ((R.wrote_iff i p).2 hp)
  have hwait : ∀ k, k ∉ l.toFinset → ∃ j, s.pc k = .wait j ∧ j < indegree A k ∧ s.sync semNum = 0 := by
    intro k hk
    rw [List.mem_toFinset] at hk
    exact ((hcases k).resolve_right fun h => hk h.1).2
  have hdone : ∀ k, k ∈ l.toFinset → s.pc k = .done := by
    intro k hk
    rw [List.mem_toFinset] at hk
    exact ((hcases k).resolve_left fun h => h.1 hk).2
  have hne : l.toFinset ≠ Finset.univ := fun e => hil (List.mem_toFinset.1 (e ▸ Finset.mem_univ i))
  have hfew := h l.toFinset hS hne fun k hk => by
    obtain ⟨j, -, hj, -⟩ := hwait k hk
    omega
  have hposted : ∑ k, posted A k (s.pc k) = ∑ k ∈ l.toFinset, Precedence.outdegree (Edge A) k := by
    rw [← Finset.sum_subset (Finset.subset_univ l.toFinset)]
    · refine Finset.sum_congr rfl fun k hk => ?_
      rw [hdone k hk, posted]
    · intro k _ hk
      obtain ⟨j, hpc, -⟩ := hwait k hk
      simp [hpc, posted]
  have htaken : ∑ k, taken A k (s.pc k) + l.toFinsetᶜ.card ≤ ∑ k, Precedence.indegree (Edge A) k := by
    rw [← Finset.sum_add_sum_compl l.toFinset, ← Finset.sum_add_sum_compl l.toFinset (Precedence.indegree (Edge A)),
      add_assoc, Finset.card_eq_sum_ones, ← Finset.sum_add_distrib]
    refine Nat.add_le_add (Finset.sum_le_sum fun k hk => ?_) (Finset.sum_le_sum fun k hk => ?_)
    · simp [hdone k hk, taken]
    · obtain ⟨j, hpc, hj, -⟩ := hwait k (Finset.mem_compl.1 hk)
      simp only [hpc, taken, ← indegree_eq]
      omega
  have hsplit := Finset.sum_add_sum_compl l.toFinset (Precedence.outdegree (Edge A))
  have hsum := Precedence.sum_indegree_eq_sum_outdegree (r := Edge A)
  obtain ⟨j, -, -, hsync⟩ := hwait i fun h => hil (List.mem_toFinset.1 h)
  have htok := I.tokens
  omega

/-! ## The run that ends in a deadlock -/

end OsLab.A5
