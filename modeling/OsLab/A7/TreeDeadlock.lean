import OsLab.A7.TreeInv
import OsLab.A7.TreeSum

/-!
# The tree program does not block itself (A7/computesum.c)

When nobody can take a step, every node has met its children at its own barrier: by induction from the leaves up they
have all come, and then it is not left without a token (`past_own`). Past it, each node has arrived twice. That leaves no
waiter at a barrier other than the root's, and at most one there (`waiting_root`), the root's barrier being called once
more than its size. So `main` and all nodes but one have called `foothread_exit`, as many as it waits for: `main` is
through, and goes on to remove the semaphore of the root's barrier.
-/

namespace OsLab.A7

open Function (update)

variable {n : Nat} {M : Type} [Add M]

namespace TreeRun

variable {s : TreeRun n M} {t : ParentTree (Fin n)} {tr : TreeFile n} {input : Fin n → M} {i q : Fin n}

/-! ## Where the threads are blocked -/

theorem not_inCS (h : s.threadStep tr input (.node i) = none) : (s.pc i).inCS = false := by
  cases hpc : s.pc i <;> simp only [threadStep, stepNode, hpc] at h <;> try rfl
  case load j =>
    split at h
    · split at h <;> cases h
    · cases h
  all_goals cases h

theorem not_lock (I : RunInv t s) (h : ∀ a, s.threadStep tr input a = none) : s.pc i ≠ .lock := by
  intro hpc
  have hi := h (.node i)
  simp only [threadStep, stepNode, hpc, Option.map_eq_none_iff] at hi
  obtain ⟨j, hj⟩ := AtomicMutex.lock_eq_none hi
  rcases I.csmtx with hc | hc
  · rw [hj] at hc
    cases hc
  · have := (hc j).2 hj
    rw [not_inCS (h (.node j))] at this
    cases this

/-- A call on a barrier is blocked where the thread is. -/
theorem exec_stuck (D : Describes t tr) (h : ∀ a, s.threadStep tr input a = none) {c : WaitPc}
    (hc : onBarrier t q i (s.pc i) = some c) : (s.barrier q).exec i c = none := by
  have hi := h (.node i)
  cases hpc : s.pc i <;> rw [hpc] at hc <;> simp only [onBarrier, reduceCtorEq, Option.ite_none_right_eq_some] at hc
  case own p =>
    obtain ⟨rfl, hp⟩ := hc
    cases hp
    simpa only [threadStep, stepNode, hpc, Option.map_eq_none_iff] using hi
  case parent p =>
    obtain ⟨rfl, hp⟩ := hc
    cases hp
    simpa only [threadStep, stepNode, hpc, D.P, Option.bind_some, Option.map_eq_none_iff] using hi

theorem wait_stuck (D : Describes t tr) (I : RunInv t s) (h : ∀ a, s.threadStep tr input a = none) (q : Fin n) :
    (∀ i c, onBarrier t q i (s.pc i) = some c → c = .wait ∧ (s.barrier q).semid = some 0) ∧
      (s.barrier q).count < (t.children q).card + 1 := by
  obtain ⟨hwait, hcount⟩ := (I.barrier q).blocked fun _ _ => exec_stuck D h
  rw [I.size q] at hcount
  exact ⟨hwait, hcount⟩

/-- Every thread that runs waits at a barrier or is in `foothread_exit`. -/
theorem node_stuck (D : Describes t tr) (I : RunInv t s) (h : ∀ a, s.threadStep tr input a = none) (hi : s.pc i ≠ .unborn) :
    s.pc i = .own .wait ∨ s.pc i = .parent .wait ∨ ∃ e, s.pc i = .exit e := by
  have hcs := not_inCS (h (.node i))
  cases hpc : s.pc i
  case unborn => exact absurd hpc hi
  case own p => exact .inl (by rw [((wait_stuck D I h i).1 i p (by rw [hpc]; exact if_pos rfl)).1])
  case lock => exact absurd hpc (not_lock I h)
  case parent p => exact .inr (.inl (by rw [((wait_stuck D I h (t.parent i)).1 i p (by rw [hpc]; exact if_pos rfl)).1]))
  case exit e => exact .inr (.inr ⟨e, rfl⟩)
  all_goals
    rw [hpc] at hcs
    cases hcs

theorem exit_stuck (h : ∀ a, s.threadStep tr input a = none) {k : Option (Fin n)} {e : ExitPc} (hk : s.callers k = some e) :
    foothreadExit s.sh e = none := by
  cases k with
  | none =>
    have hm := h .main
    change s.main.exitPc = some e at hk
    cases hmain : s.main <;> rw [hmain] at hk <;> simp only [TreeMain.exitPc, reduceCtorEq, Option.some.injEq] at hk
    case exit p =>
      subst hk
      simpa only [threadStep, stepMain, hmain, Option.map_eq_none_iff] using hm
    all_goals
      subst hk
      rfl
  | some i =>
    have hi := h (.node i)
    change (s.pc i).exitPc = some e at hk
    cases hpc : s.pc i <;> rw [hpc] at hk <;> simp only [TreePc.exitPc, reduceCtorEq, Option.some.injEq] at hk
    subst hk
    simpa only [threadStep, stepNode, hpc, Option.map_eq_none_iff] using hi

/-- `main` is blocked in its `foothread_exit`, or at its end. -/
theorem main_stuck (I : RunInv t s) (h : ∀ a, s.threadStep tr input a = none) :
    (∃ e, s.main = .exit e) ∨ s.main = .returned := by
  have hm := h .main
  cases hmain : s.main <;> simp only [threadStep, stepMain, hmain] at hm
  case exit e => exact .inl ⟨e, rfl⟩
  case returned => exact .inr rfl
  case destroyMutex => cases hm
  case destroyBarrier k => split at hm <;> cases hm
  case create k p =>
    exfalso
    have hexit := I.exit
    rw [hmain] at hexit
    replace hm := Option.map_eq_none_iff.1 hm
    cases p with
    | lock =>
      -- nobody has `mtx`
      have hfree := hexit.base.mtx_free rfl fun _ _ => exit_stuck h
      have hsem := Option.map_eq_none_iff.1 hm
      cases hmtx : s.sh.mtx with
      | none =>
        have := (hexit.base.mtx_made hmtx).1 _ rfl
        cases this
      | some v =>
        rw [hmtx] at hfree hsem
        obtain rfl : v = 1 := hfree
        cases hsem
    | _ => cases hm

/-! ## Who is left waiting -/

theorem pastBarrier_arrivals (D : Describes t tr) (I : RunInv t s) (h : ∀ a, s.threadStep tr input a = none)
    (hi : (s.pc i).pastBarrier = true) : (s.pc i).arrivals = 2 := by
  have hborn : s.pc i ≠ .unborn := by
    intro hb
    rw [hb] at hi
    cases hi
  rcases node_stuck D I h hborn with hpc | hpc | ⟨e, hpc⟩
  · rw [hpc] at hi
    cases hi
  · rw [hpc]
    rfl
  · rw [hpc]
    rfl

/-- With its children past their barriers, a barrier has been called once by each of them. -/
theorem sum_stuck (D : Describes t tr) (I : RunInv t s) (h : ∀ a, s.threadStep tr input a = none)
    (hchildren : ∀ c ∈ t.children q, (s.pc c).pastBarrier = true) :
    ∑ i, arrived t q i (s.pc i) = arrived t q q (s.pc q) + (t.children q).card := by
  rw [RunInv.sum_arrived, Finset.card_eq_sum_ones]
  congr 1
  refine Finset.sum_congr rfl fun c hc => ?_
  rw [pastBarrier_arrivals D I h (hchildren c hc)]

/-- As many wait as `count` says. -/
theorem sum_weight (D : Describes t tr) (I : RunInv t s) (h : ∀ a, s.threadStep tr input a = none) {c : WaitPc}
    (hi : onBarrier t q i (s.pc i) = some c) : ∑ j, weight (onBarrier t q j (s.pc j)) = (s.barrier q).count := by
  have hsem := ((wait_stuck D I h q).1 i c hi).2
  rw [(I.barrier q).tokens 0 hsem, Nat.zero_add]

/-- Somebody who waits counts. -/
theorem count_pos (D : Describes t tr) (I : RunInv t s) (h : ∀ a, s.threadStep tr input a = none) {c : WaitPc}
    (hi : onBarrier t q i (s.pc i) = some c) : 0 < (s.barrier q).count := by
  obtain ⟨rfl, -⟩ := (wait_stuck D I h q).1 i c hi
  rw [← sum_weight D I h hi]
  refine lt_of_lt_of_le Nat.zero_lt_one (le_trans ?_ (Finset.single_le_sum (fun _ _ => Nat.zero_le _) (Finset.mem_univ i)))
  rw [hi]
  exact le_rfl

/-- A barrier that has been called as often as its size holds nobody. -/
theorem onBarrier_none (D : Describes t tr) (I : RunInv t s) (h : ∀ a, s.threadStep tr input a = none)
    (hsum : ∑ i, arrived t q i (s.pc i) = (t.children q).card + 1) (i : Fin n) : onBarrier t q i (s.pc i) = none := by
  by_contra hne
  obtain ⟨c, hc⟩ := Option.ne_none_iff_exists'.1 hne
  have hpos := count_pos D I h hc
  have hlt := (wait_stuck D I h q).2
  obtain ⟨r, hr⟩ := (I.barrier q).arrivals
  rw [hsum, I.size q] at hr
  cases r with
  | zero => omega
  | succ r =>
    have := Nat.le_mul_of_pos_left ((t.children q).card + 1) (show 0 < r + 1 by omega)
    omega

/-- Every node gets through its own barrier. -/
theorem past_own (D : Describes t tr) (I : RunInv t s) (h : ∀ a, s.threadStep tr input a = none)
    (hborn : ∀ i, s.pc i ≠ .unborn) : ∀ q, (s.pc q).pastBarrier = true := by
  refine t.forall_of_children fun q hchildren => ?_
  rcases node_stuck D I h (hborn q) with hpc | hpc | ⟨e, hpc⟩
  · have hown : onBarrier t q q (s.pc q) = some .wait := by rw [hpc]; exact if_pos rfl
    have hone : arrived t q q (s.pc q) = 1 := by
      rw [hpc, arrived, if_pos rfl]
      split_ifs <;> rfl
    have hnone := onBarrier_none D I h (by rw [sum_stuck D I h hchildren, hone, Nat.add_comm]) q
    rw [hown] at hnone
    cases hnone
  · rw [hpc]
    rfl
  · rw [hpc]
    rfl

/-- Nobody waits at a barrier that is not the root's. -/
theorem onBarrier_of_ne_root (D : Describes t tr) (I : RunInv t s) (h : ∀ a, s.threadStep tr input a = none)
    (hborn : ∀ i, s.pc i ≠ .unborn) (hq : q ≠ t.root) (i : Fin n) : onBarrier t q i (s.pc i) = none := by
  have hpast := past_own D I h hborn
  refine onBarrier_none D I h ?_ i
  rw [sum_stuck D I h fun c _ => hpast c, arrived, if_pos rfl, if_neg fun he => hq (t.eq_root_of_parent he),
    pastBarrier_arrivals D I h (hpast q)]
  exact Nat.add_comm 1 _

/-- At most one thread waits at the root's barrier. -/
theorem waiting_root (D : Describes t tr) (I : RunInv t s) (h : ∀ a, s.threadStep tr input a = none)
    (hborn : ∀ i, s.pc i ≠ .unborn) : ∑ i, weight (onBarrier t t.root i (s.pc i)) ≤ 1 := by
  by_cases hnone : ∀ i, onBarrier t t.root i (s.pc i) = none
  · rw [Finset.sum_eq_zero fun i _ => by rw [hnone i]; rfl]
    exact Nat.zero_le 1
  obtain ⟨i, hi⟩ := not_forall.1 hnone
  obtain ⟨c, hc⟩ := Option.ne_none_iff_exists'.1 hi
  rw [sum_weight D I h hc]
  have hpast := past_own D I h hborn
  have hlt := (wait_stuck D I h t.root).2
  obtain ⟨r, hr⟩ := (I.barrier t.root).arrivals
  rw [sum_stuck D I h fun c _ => hpast c, arrived, if_pos rfl, if_pos t.parent_root,
    pastBarrier_arrivals D I h (hpast t.root), I.size t.root] at hr
  obtain _ | r := r
  · omega
  · have := Nat.le_mul_of_pos_left ((t.children t.root).card + 1) (show 0 < r + 1 by omega)
    omega

/-- `main` and all of the nodes but one have called `foothread_exit`. -/
theorem many_callers (D : Describes t tr) (I : RunInv t s) (h : ∀ a, s.threadStep tr input a = none)
    (hborn : ∀ i, s.pc i ≠ .unborn) {e : ExitPc} (hmain : s.main = .exit e) :
    n ≤ ∑ k, (s.callers k).elim 0 fun _ => 1 := by
  have heach : ∀ i, ((s.callers (some i)).elim 0 fun _ => 1) + weight (onBarrier t t.root i (s.pc i)) = 1 := by
    intro i
    have hpast := past_own D I h hborn i
    rcases node_stuck D I h (hborn i) with hpc | hpc | ⟨e, hpc⟩
    · rw [hpc] at hpast
      cases hpast
    · have hroot : t.parent i = t.root := by
        by_contra hne
        have hnone := onBarrier_of_ne_root D I h hborn hne i
        rw [hpc, onBarrier, if_pos rfl] at hnone
        cases hnone
      simp only [callers, hpc, TreePc.exitPc, onBarrier, if_pos hroot]
      rfl
    · simp only [callers, hpc, TreePc.exitPc, onBarrier]
      rfl
  have hsum : ∑ i : Fin n, ((s.callers (some i)).elim 0 fun _ => 1) + ∑ i, weight (onBarrier t t.root i (s.pc i)) = n := by
    rw [← Finset.sum_add_distrib, Finset.sum_congr rfl fun i _ => heach i]
    simp
  have hone : ((s.callers none).elim 0 fun _ => 1) = 1 := by
    rw [show s.callers none = some e by simp [callers, hmain, TreeMain.exitPc]]
    rfl
  have hle := waiting_root D I h hborn
  rw [Fintype.sum_option, hone]
  omega

theorem not_deadlocked (D : Describes t tr) (I : RunInv t s) : ¬ Deadlocked tr input s := by
  rintro ⟨⟨i, hi⟩, h⟩
  have hstage := I.stage
  rcases main_stuck I h with ⟨e, hmain⟩ | hmain
  · rw [Stage, hmain] at hstage
    have hexit := I.exit
    rw [hmain] at hexit
    refine hstage.1 (ExitOk.blocked hexit (by simp) (many_callers D I h hstage.2.2 hmain) (fun _ _ => exit_stuck h) none e ?_)
    simp [callers, hmain, TreeMain.exitPc]
  · -- the semaphores are gone, and do not block
    rw [Stage, hmain] at hstage
    have hnone : ∀ q i, onBarrier t q i (s.pc i) = none := by
      intro q i
      by_contra hne
      obtain ⟨c, hc⟩ := Option.ne_none_iff_exists'.1 hne
      have hsem := ((wait_stuck D I h q).1 i c hc).2
      rw [(I.gone q).2 (by rw [Gone, hmain]; trivial)] at hsem
      cases hsem
    rcases node_stuck D I h (hstage.2 i) with hpc | hpc | ⟨e, hpc⟩
    · have := hnone i i
      rw [hpc, onBarrier, if_pos rfl] at this
      cases this
    · have := hnone (t.parent i) i
      rw [hpc, onBarrier, if_pos rfl] at this
      cases this
    · rw [hpc] at hi
      cases hi

end TreeRun

/-- `main` keeps inside its arrays, and no run gets to a deadlock. -/
def NeverDeadlocks [Zero M] (lines : List (Fin n × Fin n)) (input : Fin n → M) : Prop :=
  ∃ tr, readTree lines = some tr ∧ ∀ s, Trans.Reach (TreeRun.step tr input) (.init tr) s → ¬ TreeRun.Deadlocked tr input s

/-- **The tree program does not block itself** on a tree that the arrays hold, for any file of it and schedule. -/
theorem tree_never_deadlocks [Zero M] (t : ParentTree (Fin n)) (lines : List (Fin n × Fin n))
    (hfile : lines.Perm (List.ofFn fun a => (a, t.parent a))) (input : Fin n → M) :
    NeverDeadlocks lines input ↔ n ≤ entries := by
  constructor
  · rintro ⟨tr, -, -⟩
    exact tr.fits
  intro hn
  obtain ⟨tr, htr⟩ := exists_readTree hn lines
  have D := readTree_describes t hfile htr
  refine ⟨tr, htr, fun s h => TreeRun.not_deadlocked D (h.inv (I := TreeRun.RunInv t) (.init D) ?_)⟩
  exact fun _ _ _ _ I _ hs => I.step D (TreeRun.threadStep_of_step hs)

/-- A root with two leaves; the root waits for its children. -/
theorem tree_never_deadlocks_fork : ∃ s : TreeRun 3 ℤ,
    readTree [(1, 0), (2, 0), (0, 0)] = some forkFile ∧
      Trans.Reach (TreeRun.step forkFile fun _ => (1 : ℤ)) (.init forkFile) s ∧
      (s.pc 0).arrivals = 1 ∧ (s.pc 0).pastBarrier = false ∧ ¬ TreeRun.Deadlocked forkFile (fun _ => 1) s := by
  obtain ⟨s, hr, hs⟩ := Trans.exists_reach_of_run (TreeRun.step forkFile fun _ => (1 : ℤ)) (.init forkFile)
    (List.replicate 18 .main ++ List.replicate 4 (.node 0))
    (fun s => (s.pc 0).arrivals == 1 && !(s.pc 0).pastBarrier) (by decide +kernel)
  simp only [Bool.and_eq_true, beq_iff_eq, Bool.not_eq_true'] at hs
  obtain ⟨tr, htr, hfree⟩ := (tree_never_deadlocks fork [(1, 0), (2, 0), (0, 0)] (by decide) fun _ => (1 : ℤ)).2 (by decide)
  obtain rfl := eq_forkFile htr
  exact ⟨s, htr, hr, hs.1, hs.2, hfree s hr⟩

/-- `main` stores to `P[100]` before it creates a thread. -/
theorem tree_never_deadlocks_overrun : ¬ NeverDeadlocks (List.ofFn fun a => (a, longPath.parent a)) fun _ => (1 : ℤ) := by
  rintro ⟨tr, -, -⟩
  exact absurd tr.fits (by decide)

end OsLab.A7
