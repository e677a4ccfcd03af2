import Mathlib.Tactic.Ring
import OsLab.A7.TreeOutput

/-!
# The tree program comes to its end (A7/computesum.c)

Nothing in the program is done twice: every statement leaves less to do, `rank` says how much. With `not_deadlocked` each run
ends with `main` returned and the lines of the nodes printed, merged in some order. The last ones of the root may be missing
(`Ended`), the process being gone when `main` has returned. The bound is quadratic for the loops over all nodes (:31) and over
the waiters of a barrier (foothread.c:128).
-/

namespace OsLab.A7

open Function (update)

variable {n N : Nat} {M : Type}

/-! ## What is left to do -/

/-- At most `N` threads use the barrier. -/
def WaitPc.rank (N : Nat) : WaitPc → Nat
  | .lock => N + 5
  | .incr => N + 4
  | .test => N + 3
  | .post k => 2 + (N - k)
  | .unlockTrip => 1
  | .unlock => 2
  | .wait => 1

/-- At most `N` threads are counted. -/
def ExitPc.rank (N : Nat) : ExitPc → Nat
  | .checkMtx => N + 7
  | .checkSem => N + 6
  | .lock => N + 5
  | .incr => N + 4
  | .test => N + 3
  | .unlockWait => 2
  | .wait => 1
  | .unlockPost => N + 2
  | .post i => 1 + (N - i)
  | .done => 0

def CreatePc.rank : CreatePc → Nat
  | .checkMtx => 6
  | .checkSem => 5
  | .lock => 4
  | .count => 3
  | .clone => 2
  | .unlock => 1

def TreePc.rank (N : Nat) : TreePc M → Nat
  | .unborn => 5 * N + 23
  | .own p => 4 * N + 18 + p.rank N
  | .lock => 4 * N + 18
  | .load j => 2 * N + 17 + 2 * (N - j)
  | .store j _ => 2 * N + 18 + 2 * (N - (j + 1))
  | .printPartial => 2 * N + 16
  | .scan | .printRoot => 2 * N + 15
  | .unlock => 2 * N + 14
  | .parent p => N + 8 + p.rank N
  | .exit p => p.rank N

def TreeMain.rank (N : Nat) : TreeMain → Nat
  | .create k p => 2 * N + 10 + 6 * (N - (k + 1)) + p.rank
  | .exit p => N + 3 + p.rank N
  | .destroyMutex => N + 2
  | .destroyBarrier k => 1 + (N - k)
  | .returned => 0

theorem exec_rank {b b' : AtomicBarrier (Fin n)} {i : Fin n} {c : WaitPc} {c' : Option WaitPc}
    (h : b.exec i c = some (b', c')) (hN : b.tripCount ≤ N) : c'.elim 0 (WaitPc.rank N) < c.rank N := by
  cases c with
  | lock =>
    obtain ⟨m, -, he⟩ := Option.map_eq_some_iff.1 h
    cases he
    exact Nat.lt_succ_self _
  | wait =>
    obtain ⟨v, -, he⟩ := Option.map_eq_some_iff.1 h
    cases he
    exact Nat.zero_lt_one
  | test =>
    cases h
    rw [Option.elim_some]
    split
    · simp only [WaitPc.rank]
      omega
    · simp only [WaitPc.rank]
      omega
  | post k =>
    rw [AtomicBarrier.exec] at h
    split at h
    · cases h
      simp only [Option.elim_some, WaitPc.rank]
      omega
    · cases h
      simp only [Option.elim_some, WaitPc.rank]
      omega
  | incr | unlockTrip | unlock =>
    cases h
    simp only [Option.elim_some, Option.elim_none, WaitPc.rank]
    omega

theorem foothreadExit_rank {sh sh' : Shared} {e e' : ExitPc} (h : foothreadExit sh e = some (sh', e'))
    (hN : sh.numThreads ≤ N) : e'.rank N < e.rank N := by
  cases e with
  | lock =>
    obtain ⟨m, -, he⟩ := Option.map_eq_some_iff.1 h
    cases he
    exact Nat.lt_succ_self _
  | wait =>
    obtain ⟨m, -, he⟩ := Option.map_eq_some_iff.1 h
    cases he
    exact Nat.zero_lt_one
  | test =>
    cases h
    split
    · simp only [ExitPc.rank]
      omega
    · exact Nat.lt_succ_self _
  | post i =>
    rw [foothreadExit] at h
    split at h
    · cases h
      simp only [ExitPc.rank]
      omega
    · cases h
      simp only [ExitPc.rank]
      omega
  | done => cases h
  | checkMtx | checkSem | incr | unlockWait | unlockPost =>
    cases h
    simp only [ExitPc.rank]
    omega

theorem foothreadCreate_rank {ty : JoinType} {sh sh' : Shared} {p : CreatePc} {p' : Option CreatePc}
    (h : foothreadCreate ty sh p = some (sh', p')) : p'.elim 0 CreatePc.rank < p.rank := by
  cases p with
  | lock =>
    obtain ⟨m, -, he⟩ := Option.map_eq_some_iff.1 h
    cases he
    exact Nat.lt_succ_self _
  | checkMtx | checkSem | count | clone | unlock =>
    cases h
    exact Nat.lt_succ_self _

namespace TreeRun

variable {s s' : TreeRun n M} {t : ParentTree (Fin n)} {tr : TreeFile n} {i j : Fin n}

def stepsLeft (s : TreeRun n M) : Nat := s.main.rank n + ∑ i, (s.pc i).rank n

theorem mainAt_rank {k : Nat} : (mainAt n (k + 1)).rank n < (TreeMain.create k .unlock).rank n := by
  unfold mainAt
  split
  · simp only [TreeMain.rank, CreatePc.rank]
    omega
  · simp only [TreeMain.rank, CreatePc.rank, ExitPc.rank]
    omega

theorem stepsLeft_init [Zero M] (hn : 0 < n) (tr : TreeFile n) :
    (init tr : TreeRun n M).stepsLeft = 5 * n ^ 2 + 31 * n + 10 := by
  have hmain : (init tr : TreeRun n M).main.rank n = 8 * n + 10 := by
    simp only [init, mainAt, if_pos hn, TreeMain.rank, CreatePc.rank]
    omega
  have hsum : ∑ i, ((init tr : TreeRun n M).pc i).rank n = n * (5 * n + 23) := by
    have hconst : ∀ i, ((init tr : TreeRun n M).pc i).rank n = 5 * n + 23 := fun _ => rfl
    rw [Finset.sum_congr rfl fun i _ => hconst i, Finset.sum_const, Finset.card_univ, Fintype.card_fin, smul_eq_mul]
  rw [stepsLeft, hmain, hsum]
  ring

theorem size_le (I : RunInv t s) (q : Fin n) : (s.barrier q).tripCount ≤ n := by
  have hsub : t.children q ⊆ Finset.univ.erase q := fun c hc => Finset.mem_erase.2 ⟨(t.mem_children.1 hc).2, Finset.mem_univ c⟩
  have hcard := Finset.card_le_card hsub
  rw [Finset.card_erase_of_mem (Finset.mem_univ q), Finset.card_univ, Fintype.card_fin] at hcard
  have := q.isLt
  rw [I.size]
  omega

theorem numThreads_le (I : RunInv t s) : s.sh.numThreads ≤ n := by
  have hstage := I.stage
  cases hmain : s.main <;> rw [Stage, hmain] at hstage
  case create k p =>
    rw [hstage.2.1]
    split <;> omega
  case exit p => exact hstage.2.1.le
  all_goals exact hstage.1.le

section
variable [Add M] {input : Fin n → M}

theorem NodeMove.rank_lt (h : NodeMove tr input s i s') (I : RunInv t s) : (s'.pc i).rank n < (s.pc i).rank n := by
  have hgoto : ∀ (r : TreeRun n M) (p : TreePc M), (r.goto i p).pc i = p := fun r p => Function.update_self _ _ _
  cases h with
  | own p b p' hpc hb =>
    have hrank := exec_rank hb (size_le I i)
    rw [hgoto, hpc]
    cases p' <;> simp only [Option.elim_none, Option.elim_some, TreePc.rank] at hrank ⊢ <;> omega
  | parent q p b p' hpc hq hb =>
    have hrank := exec_rank hb (size_le I q)
    rw [hgoto, hpc]
    cases p' <;> simp only [Option.elim_none, Option.elim_some, TreePc.rank, ExitPc.rank] at hrank ⊢ <;> omega
  | exit p p' sh hpc hsh =>
    rw [hgoto, hpc]
    exact foothreadExit_rank hsh (numThreads_le I)
  | lock m hpc =>
    rw [hgoto, hpc]
    split <;> simp only [TreePc.rank] <;> omega
  | unlock hpc =>
    rw [hgoto, hpc]
    simp only [TreePc.rank, WaitPc.rank]
    omega
  | stmt sum out p hstmt =>
    rw [hgoto]
    cases hstmt with
    | printPartial hpc =>
      rw [hpc]
      split <;> simp only [TreePc.rank] <;> omega
    | add j hpc | skip j hpc =>
      have := j.isLt
      rw [hpc]
      simp only [TreePc.rank]
      omega
    | scan hpc | added _ hpc | store _ _ hpc | printRoot hpc =>
      rw [hpc]
      simp only [TreePc.rank]
      omega

theorem main_rank_lt (I : RunInv t s) (h : s.threadStep tr input .main = some s') : s'.main.rank n < s.main.rank n := by
  cases hpc : s.main <;> simp only [threadStep, stepMain, hpc] at h
  case create k p =>
    obtain ⟨⟨sh, p'⟩, hsh, rfl⟩ := Option.map_eq_some_iff.1 h
    have hrank := foothreadCreate_rank hsh
    cases p' with
    | some p' =>
      simp only [Option.elim_some, TreeMain.rank] at hrank ⊢
      omega
    | none =>
      have hmain := mainAt_rank (n := n) (k := k)
      simp only [Option.elim_none, TreeMain.rank, CreatePc.rank] at hrank hmain ⊢
      omega
  case exit p =>
    obtain ⟨⟨sh, p'⟩, hsh, rfl⟩ := Option.map_eq_some_iff.1 h
    have hrank := foothreadExit_rank hsh (numThreads_le I)
    dsimp only
    split
    · simp only [TreeMain.rank]
      omega
    · simp only [TreeMain.rank]
      omega
  case destroyMutex =>
    cases h
    simp only [TreeMain.rank]
    omega
  case destroyBarrier k =>
    split at h
    · cases h
      simp only [TreeMain.rank]
      omega
    · cases h
      simp only [TreeMain.rank]
      omega
  case returned => cases h

/-- Every step leaves less to do. -/
theorem stepsLeft_lt (I : RunInv t s) {a : TreeActor n} (h : s.threadStep tr input a = some s') : s'.stepsLeft < s.stepsLeft := by
  cases a with
  | main =>
    have hrank := main_rank_lt I h
    have hsum : ∑ i, (s'.pc i).rank n = ∑ i, (s.pc i).rank n := by
      refine Finset.sum_congr rfl fun i _ => ?_
      rcases (main_step I h).2.2 i with hpc | ⟨hpc, hpc'⟩
      · rw [hpc]
      · rw [hpc, hpc']
        simp only [TreePc.rank, WaitPc.rank]
        omega
    unfold stepsLeft
    omega
  | node i =>
    have hmove := nodeMove_of_step h
    have hrank := hmove.rank_lt I
    have hsum := Tally.sum_of_eq_elsewhere fun j hj => congrArg (TreePc.rank n) (hmove.other (j := j) hj)
    unfold stepsLeft
    rw [hmove.main]
    omega

/-! ## The end -/

/-- `main` is not left in its `foothread_exit`. -/
theorem main_returned (D : Describes t tr) (I : RunInv t s) (h : ∀ a, s.threadStep tr input a = none) : s.main = .returned := by
  refine (main_stuck I h).resolve_left ?_
  rintro ⟨e, hmain⟩
  have hstage := I.stage
  have hexit := I.exit
  rw [Stage, hmain] at hstage
  rw [hmain] at hexit
  refine hstage.1 (ExitOk.blocked hexit (by simp) (many_callers D I h hstage.2.2 hmain) (fun _ _ => exit_stuck h) none e ?_)
  simp [callers, hmain, TreeMain.exitPc]

end

theorem exitPc_of_calledExit {x : TreePc M} (h : x.calledExit = false) : x.exitPc = none := by
  cases x with
  | exit p => cases h
  | unborn | own | lock | scan | load | store | printPartial | printRoot | unlock | parent => rfl

section
variable [AddCommMonoid M] {input : Fin n → M}

/-- `main` has returned. At most one thread has not called `foothread_exit`, and all lines have been printed but maybe some
of the root, which has printed a beginning of them, and all when it has called `foothread_exit`. -/
structure Ended (t : ParentTree (Fin n)) (input : Fin n → M) (s : TreeRun n M) : Prop where
  returned : s.main = .returned
  left : ∀ i j, (s.pc i).calledExit = false → (s.pc j).calledExit = false → i = j
  printed : ∃ k, s.out.reverse.Perm
    ((List.finRange n).flatMap fun i => if i = t.root then (linesOf t input i).take k else linesOf t input i)
  all : (s.pc t.root).calledExit = true → s.out.reverse.Perm ((List.finRange n).flatMap (linesOf t input))

/-- What has been printed, node by node. -/
theorem Printing.perm (P : Printing t input s) {g : Fin n → List (Line n M)}
    (hg : ∀ i, (linesOf t input i).take (s.pc i).printed = g i) : s.out.reverse.Perm ((List.finRange n).flatMap g) :=
  Tally.perm_flatMap (List.nodup_finRange n) (fun l _ => List.mem_finRange l.node) fun i _ => (P.lines i).trans (hg i)

/-- The state in which `main` has returned. -/
theorem Ended.of_returned (I : RunInv t s) (L : Late t s) (P : Printing t input s) (hmain : s.main = .returned) :
    Ended t input s := by
  have hdone : s.main.exitPc = some .done := by
    rw [hmain]
    rfl
  have hothers : ∀ i, i ≠ t.root → (linesOf t input i).take (s.pc i).printed = linesOf t input i := by
    intro i hi
    rw [(P.final (L hdone i hi)).2, linesOf_take_two]
  refine ⟨hmain, fun i j hi hj => few_left I hdone (exitPc_of_calledExit hi) (exitPc_of_calledExit hj),
    ⟨(s.pc t.root).printed, P.perm fun i => ?_⟩, fun hroot => P.perm fun i => ?_⟩
  · split
    · next hi => rw [hi]
    · next hi => exact hothers i hi
  · by_cases hi : i = t.root
    · have hprinted : (s.pc i).printed = 2 := by
        rw [← hi] at hroot
        cases hpc : s.pc i <;> rw [hpc] at hroot <;> cases hroot
        rfl
      rw [hprinted, linesOf_take_two]
    · exact hothers i hi

/-- A file that describes a tree is all that a run needs to come to its end. -/
theorem ends_of_describes (D : Describes t tr) {as : List (TreeActor n)} {s : TreeRun n M}
    (hrun : Trans.run (step tr input) (.init tr) as = some s) :
    as.length ≤ 5 * n ^ 2 + 31 * n + 10 ∧ ((∀ a, s.step tr input a = none) → Ended t input s) := by
  obtain ⟨-, hlen⟩ := Trans.run_length_le (m := stepsLeft) (RunInv.init D)
    (fun s a s' I h => ⟨I.step D (threadStep_of_step h), stepsLeft_lt I (threadStep_of_step h)⟩) hrun
  rw [stepsLeft_init (Nat.zero_lt_of_lt t.root.isLt)] at hlen
  refine ⟨by omega, fun hstuck => ?_⟩
  obtain ⟨I, L, P⟩ := course D (Trans.reach_of_run as hrun)
  refine Ended.of_returned I L P ?_
  rcases returned_or_blocked hstuck with hmain | hblocked
  · exact hmain
  · exact main_returned D I hblocked

end

end TreeRun

/-- **Every run comes to its end**: for a tree of `n` nodes that the arrays hold it has at most `5 n² + 31 n + 10` steps, and
when no thread can take another one, `main` has returned and each node has printed its lines, with the right sums, once,
the root maybe not all of them. -/
theorem tree_completes [AddCommMonoid M] (hn : n ≤ entries) (t : ParentTree (Fin n)) (lines : List (Fin n × Fin n))
    (hfile : lines.Perm (List.ofFn fun a => (a, t.parent a))) (input : Fin n → M) :
    ∃ tr, readTree lines = some tr ∧ ∀ (as : List (TreeActor n)) (s : TreeRun n M),
      Trans.run (TreeRun.step tr input) (.init tr) as = some s →
      as.length ≤ 5 * n ^ 2 + 31 * n + 10 ∧ ((∀ a, s.step tr input a = none) → TreeRun.Ended t input s) := by
  obtain ⟨tr, htr⟩ := exists_readTree hn lines
  exact ⟨tr, htr, fun as s hrun => TreeRun.ends_of_describes (readTree_describes t hfile htr) hrun⟩

/-- The root prints first, is let go when `main` removes the semaphores, and calls `foothread_exit` before `main` returns. -/
theorem tree_completes_fork :
    let input : Fin 3 → ℤ := fun i => i.val
    ∃ as s, readTree [(1, 0), (2, 0), (0, 0)] = some forkFile ∧
      Trans.run (TreeRun.step forkFile input) (.init forkFile) as = some s ∧ as.length ≤ 148 ∧ s.main = .returned ∧
      s.out.reverse.Perm ((List.finRange 3).flatMap (TreeRun.linesOf fork input)) := by
  intro input
  let as : List (TreeActor 3) :=
    List.replicate 18 .main ++ List.replicate 4 (.node 0) ++ List.replicate 12 (.node 1) ++ List.replicate 12 (.node 2) ++
      List.replicate 7 (.node 1) ++ List.replicate 9 (.node 2) ++ List.replicate 15 (.node 0) ++ List.replicate 7 .main ++
      [.node 1, .main, .node 2] ++ List.replicate 4 .main ++ List.replicate 8 (.node 0) ++ List.replicate 3 .main
  obtain ⟨s, hs, hend⟩ := Trans.exists_of_run (TreeRun.step forkFile input) (.init forkFile) as
    (fun s => decide (s.main = .returned) && (s.pc 0).calledExit) (by decide +kernel)
  simp only [Bool.and_eq_true, decide_eq_true_eq] at hend
  obtain ⟨hmain, hroot⟩ := hend
  have hstuck : ∀ a, s.step forkFile input a = none := fun a => if_pos hmain
  obtain ⟨tr, htr, hruns⟩ := tree_completes (by decide) fork [(1, 0), (2, 0), (0, 0)] (by decide) input
  obtain rfl := eq_forkFile htr
  obtain ⟨hlen, hend⟩ := hruns as s hs
  exact ⟨as, s, htr, hs, hlen, hmain, (hend hstuck).all hroot⟩

end OsLab.A7
