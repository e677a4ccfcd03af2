import OsLab.A5.Boss
import OsLab.A5.Deadlock

/-!
# The end of a run (A5/worker.c, A5/boss.c)

Every step of a worker is one of `indegree + n + 7`, and the boss takes `n`, so all runs that come to their end are of the
same length (`left_step`). Where nobody can take a step and the workers are not blocked by each other, they are all done: the
boss has got its tokens, and every semaphore has the value that it started with.
-/

namespace OsLab.A5

variable {n : Nat} (A : Fin n → Fin n → Int)

/-- The steps that a worker has before it. -/
def stepsLeft (i : Fin n) : WorkerPc → Nat
  | .wait j => indegree A i - j + n + 7
  | .lock => n + 6
  | .store => n + 5
  | .incr => n + 4
  | .unlock => n + 3
  | .ntfy => n + 2
  | .post j => n - j + 1
  | .done => 0

/-- All steps that are still to come, if none is blocked. -/
def left (s : Workers n) : Nat := ∑ i, stepsLeft A i (s.pc i) + (n - s.boss)

/-- The number of edges. -/
def edges : Nat := ∑ i, indegree A i

variable {A} {s s' : Workers n} {T0 : Nat → Nat}

theorem left_init (T0 : Nat → Nat) : left A (Workers.init T0) = edges A + n * (n + 8) := by
  have hsum : ∑ i, stepsLeft A i (.wait 0) = edges A + n * (n + 7) := by
    simp only [stepsLeft, Nat.sub_zero, Nat.add_assoc, Finset.sum_add_distrib, Finset.sum_const, Finset.card_univ,
      Fintype.card_fin, Nat.nsmul_eq_mul, Nat.mul_add, edges]
  have hsplit : n * (n + 8) = n * (n + 7) + n := by rw [Nat.mul_succ]
  show ∑ i, stepsLeft A i (.wait 0) + (n - 0) = _
  omega

/-- Worker `i` goes on to `p`. -/
theorem left_goto {s₁ : Workers n} {i : Fin n} {p : WorkerPc} (hpc : s₁.pc = s.pc) (hboss : s₁.boss = s.boss)
    (hp : stepsLeft A i (s.pc i) = stepsLeft A i p + 1) : left A (s₁.goto i p) + 1 = left A s := by
  have hsum := sum_goto s₁ (stepsLeft A) i p
  rw [hpc] at hsum
  have hboss' : (s₁.goto i p).boss = s.boss := hboss
  rw [left, left, hboss']
  omega

/-- **One step less.** -/
theorem left_step {a : Actor n} (h : s.step A a = some s') : left A s' + 1 = left A s := by
  cases a with
  | boss =>
    rw [Workers.step, Option.ite_none_right_eq_some, Option.some.injEq] at h
    obtain ⟨⟨hlt, -⟩, rfl⟩ := h
    rw [left, left]
    dsimp only
    omega
  | worker i =>
    cases Workers.move_of_step A h with
    | take i j hpc hj | taken i j hpc hj | posted i j hpc hj =>
      refine left_goto rfl rfl ?_
      rw [hpc]
      simp only [stepsLeft]
      omega
    | lock i hpc | store i hpc | incr i hpc | unlock i hpc | ntfy i hpc => exact left_goto rfl rfl (by rw [hpc]; rfl)
    | post i j hpc | skip i j hpc =>
      have hj := j.isLt
      refine left_goto rfl rfl ?_
      rw [hpc]
      simp only [stepsLeft]
      omega

theorem left_run {as : List (Actor n)} (h : Trans.run (Workers.step A) s as = some s') :
    as.length + left A s' = left A s := by
  refine Trans.run_inv (I := fun as t => as.length + left A t = left A s) (Nat.zero_add _) ?_ h
  intro as t a t' hlen ht
  have hstep := left_step ht
  rw [List.length_append, List.length_singleton]
  omega

/-! ## The semaphores -/

/-- Index 0 of the set is the only one that is used, and the boss takes no more than `n` tokens. -/
def Spare (s : Workers n) : Prop := (∀ k, k ≠ semNum → s.sync k = 0) ∧ s.boss ≤ n

theorem Spare.step (S : Spare s) {a : Actor n} (h : s.step A a = some s') : Spare s' := by
  obtain ⟨hsync, hboss⟩ := S
  cases a with
  | boss =>
    rw [Workers.step, Option.ite_none_right_eq_some, Option.some.injEq] at h
    obtain ⟨⟨hlt, -⟩, rfl⟩ := h
    exact ⟨hsync, hlt⟩
  | worker i =>
    cases Workers.move_of_step A h with
    | take i j hpc | post i j hpc =>
      refine ⟨fun k hk => ?_, hboss⟩
      have hold := hsync k hk
      simpa [Workers.goto, Workers.syncV, Function.update_of_ne hk] using hold
    | taken i j hpc | lock i hpc | store i hpc | incr i hpc | unlock i hpc | ntfy i hpc | skip i j hpc | posted i j hpc =>
      exact ⟨hsync, hboss⟩

theorem spare_of_reach (hr : Trans.Reach (Workers.step A) (Workers.init T0) s) : Spare s :=
  hr.inv ⟨fun _ _ => rfl, Nat.zero_le n⟩ fun _ _ _ _ S _ h => S.step h

/-- Where all workers are done the semaphores are as they were. -/
theorem all_done (I : WorkerInv A s) (N : Notified s) (S : Spare s) (hdone : ∀ i, s.pc i = .done)
    (hstuck : s.step A .boss = none) : s.boss = n ∧ s.mtx = 1 ∧ s.ntfy = 0 ∧ ∀ k, s.sync k = 0 := by
  have hmtx := I.mtx
  have htokens := I.tokens
  unfold Notified at N
  simp only [hdone, WorkerPc.inCS, WorkerPc.notified, taken, posted, Bool.false_eq_true, if_true, if_false,
    Finset.sum_const, Finset.card_univ, Fintype.card_fin, Nat.nsmul_eq_mul] at hmtx htokens N
  have hsum := Precedence.sum_indegree_eq_sum_outdegree (r := Edge A)
  have hboss : s.boss = n := by
    by_contra hne
    have hlt : s.boss < n := lt_of_le_of_ne S.2 hne
    rw [Workers.step, if_pos ⟨hlt, by omega⟩] at hstuck
    cases hstuck
  refine ⟨hboss, by omega, by omega, fun k => ?_⟩
  by_cases hk : k = semNum
  · rw [hk]
    omega
  · exact S.1 k hk

/-- A worker that is not recorded keeps the boss waiting. -/
theorem boss_lt (hr : Trans.Reach (Workers.step A) (Workers.init T0) s) (h : Deadlocked A s) : s.boss < n := by
  obtain ⟨⟨i, hi⟩, -⟩ := h
  obtain ⟨-, l, R, -⟩ := exists_recorded hr
  refine lt_of_le_of_ne (spare_of_reach hr).2 fun hboss => ?_
  obtain ⟨-, -, hall⟩ := R.complete (notified_of_reach hr) hboss
  obtain ⟨p, hp⟩ := List.mem_iff_getElem?.1 (hall i)
  exact hi p ((R.wrote_iff i p).2 hp)

/-- Workers that are stuck but not blocked by each other are done. -/
theorem done_of_stuck (hr : Trans.Reach (Workers.step A) (Workers.init T0) s) (hstuck : ∀ a, s.step A a = none)
    (h : ¬ Deadlocked A s) (i : Fin n) : s.pc i = .done := by
  obtain ⟨I, l, R, -⟩ := exists_recorded hr
  have hblocked : ∀ i, s.step A (.worker i) = none := fun i => hstuck (.worker i)
  have hmtx := mtx_free I hblocked
  rcases blocked_cases i (hblocked i) with ⟨j, hpc, -⟩ | ⟨-, h0⟩ | hpc
  · refine absurd ⟨⟨i, fun p hp => ?_⟩, hblocked⟩ h
    have hmem := (R.mem i).1 (List.mem_of_getElem? ((R.wrote_iff i p).1 hp))
    rw [hpc] at hmem
    cases hmem
  · omega
  · exact hpc

/-- **How a run ends.** No run has more than `edges A + n * (n + 8)` steps. Where nobody can take a step, the workers block
each other and the boss waits for ever, or all steps have been taken: the boss has got all its tokens, and the semaphores
have the values that they started with. -/
theorem sort_ends (A : Fin n → Fin n → Int) (T0 : Nat → Nat) (as : List (Actor n)) (s : Workers n)
    (h : Trans.run (Workers.step A) (Workers.init T0) as = some s) :
    as.length ≤ edges A + n * (n + 8) ∧
    ((∀ a, s.step A a = none) →
      Deadlocked A s ∧ s.boss < n ∨
      as.length = edges A + n * (n + 8) ∧ s.boss = n ∧ s.mtx = 1 ∧ s.ntfy = 0 ∧ ∀ k, s.sync k = 0) := by
  have hr := Trans.reach_of_run as h
  have hlength := left_run h
  rw [left_init] at hlength
  refine ⟨by omega, fun hstuck => ?_⟩
  by_cases hdead : Deadlocked A s
  · exact .inl ⟨hdead, boss_lt hr hdead⟩
  · have hdone := done_of_stuck hr hstuck hdead
    obtain ⟨I, -⟩ := exists_recorded hr
    have hend := all_done I (notified_of_reach hr) (spare_of_reach hr) hdone (hstuck .boss)
    have hleft : left A s = 0 := by simp [left, stepsLeft, hdone, hend.1]
    exact .inr ⟨by omega, hend⟩

/-- The path `0 → 1`, from one end to the other. -/
theorem sort_ends_path : ∃ s : Workers 2,
    Trans.run (Workers.step (path 2)) (Workers.init fun _ => 0)
      (List.replicate 9 (.worker 0) ++ .boss :: List.replicate 10 (.worker 1) ++ [.boss]) = some s ∧
    (∀ a, s.step (path 2) a = none) ∧ s.boss = 2 ∧ s.mtx = 1 ∧ s.ntfy = 0 ∧ ∀ k, s.sync k = 0 := by
  obtain ⟨s, hs, hend⟩ := Trans.exists_of_run (Workers.step (path 2)) (Workers.init fun _ => 0)
    (List.replicate 9 (.worker 0) ++ .boss :: List.replicate 10 (.worker 1) ++ [.boss])
    (fun s => decide (s.boss = 2 ∧ (s.step (path 2) .boss).isNone ∧ ∀ i, (s.step (path 2) (.worker i)).isNone)) (by decide)
  obtain ⟨hboss, hstuck, hworkers⟩ := of_decide_eq_true hend
  have hall : ∀ a, s.step (path 2) a = none := by
    intro a
    cases a with
    | boss => exact Option.isNone_iff_eq_none.1 hstuck
    | worker i => exact Option.isNone_iff_eq_none.1 (hworkers i)
  rcases (sort_ends (path 2) (fun _ => 0) _ s hs).2 hall with ⟨-, hlt⟩ | ⟨-, hend⟩
  · omega
  · exact ⟨s, hs, hall, hend⟩

end OsLab.A5
