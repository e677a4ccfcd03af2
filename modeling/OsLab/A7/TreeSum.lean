import OsLab.A7.ComputeSum
import Mathlib.Algebra.Ring.Int.Defs

/-!
# The printed sums are right (A7/computesum.c)

`TreeInv` is the invariant of the node threads. `own` and `child` say what the barriers are for: who is
past its own barrier has seen all its children arrive, and a child arrives at its parent's barrier
when its `sum` is final. `sums` follows every thread's `sum` along its statements.
-/

namespace OsLab.A7

open Function (update)

variable {n : Nat} {M : Type} [AddCommMonoid M] (t : ParentTree (Fin n)) (input : Fin n → M)

/-! ## The loop over the children -/

/-- The sum over the children of `i` that the loop (:31) has passed when its index is `j`. -/
noncomputable def childSum (i : Fin n) (j : Nat) : M :=
  ∑ c ∈ (t.children i).filter (·.val < j), t.leafSum input c

theorem childSum_zero (i : Fin n) : childSum t input i 0 = 0 := by simp [childSum]

theorem childSum_child {i j : Fin n} (h : j ∈ t.children i) :
    childSum t input i (j + 1) = childSum t input i j + t.leafSum input j := by
  have hset : (t.children i).filter (·.val < j.val + 1) = insert j ((t.children i).filter (·.val < j.val)) := by
    ext c
    rw [Finset.mem_insert, Finset.mem_filter, Finset.mem_filter, Fin.ext_iff]
    constructor
    · rintro ⟨hc, hlt⟩
      by_cases e : c.val = j.val
      · exact .inl e
      · exact .inr ⟨hc, by omega⟩
    · rintro (e | ⟨hc, hlt⟩)
      · rw [Fin.ext e]; exact ⟨h, by omega⟩
      · exact ⟨hc, by omega⟩
  rw [childSum, hset, Finset.sum_insert (by simp), add_comm, childSum]

theorem childSum_other {i j : Fin n} (h : j ∉ t.children i) :
    childSum t input i (j + 1) = childSum t input i j := by
  have hset : (t.children i).filter (·.val < j.val + 1) = (t.children i).filter (·.val < j.val) := by
    refine Finset.filter_congr fun c hc => ?_
    have hne : c.val ≠ j.val := fun e => h (Fin.ext e ▸ hc)
    omega
  rw [childSum, hset, childSum]

theorem childSum_all {i : Fin n} {j : Nat} (h : ¬ t.IsLeaf i) (hj : n ≤ j) :
    childSum t input i j = t.leafSum input i := by
  rw [childSum, t.leafSum_eq_sum_children input h, Finset.filter_true_of_mem]
  intro c _
  omega

/-! ## The invariant -/

/-- What `sum[i]` is at each statement of `node(i)`. -/
def SumAt (i : Fin n) (x : M) : NodePc M → Prop
  | .callOwn | .inOwn | .callLock | .inLock => x = 0
  | .scan => t.IsLeaf i
  | .load j => ¬ t.IsLeaf i ∧ x = childSum t input i j
  | .store j v => ¬ t.IsLeaf i ∧ v = childSum t input i (j + 1)
  | .printPartial => ¬ t.IsLeaf i ∧ x = t.leafSum input i
  | .printRoot => i = t.root ∧ x = t.leafSum input i
  | _ => x = t.leafSum input i

/-- The line a `printf` should print. -/
def Line.Correct : Line n M → Prop
  | .prompt i => t.IsLeaf i
  | .partialSum i v => ¬ t.IsLeaf i ∧ v = t.leafSum input i
  | .rootSum i v => i = t.root ∧ v = t.leafSum input i

def NodePc.pastOwn : NodePc M → Bool
  | .callOwn | .inOwn => false
  | _ => true

def NodePc.atParent : NodePc M → Bool
  | .inParent | .done => true
  | _ => false

/-- The threads that call `foothread_barrier_wait(&barrier[p])`. -/
def barrierUsers (p : Fin n) : Finset (Fin n) := insert p (t.children p)

structure TreeInv (T : Threads (Fin n)) (s : SumState n M) : Prop where
  barrier : ∀ p, UsedBarrier T (barrierUsers t p) (s.barrier p)
  /-- Who is past its own barrier has returned from it. -/
  own : ∀ i, (s.pc i).pastOwn = true → 1 ≤ (s.barrier i).returned i
  /-- A child that has entered its parent's barrier has nothing left to do but wait. -/
  child : ∀ p j, j ≠ p → 1 ≤ (s.barrier p).entered j → (s.pc j).atParent = true
  sums : ∀ i, SumAt t input i (s.sum i) (s.pc i)
  out : ∀ l ∈ s.out, l.Correct t input

variable {t input} {T : Threads (Fin n)} {tr : TreeFile n} {s s' : SumState n M} {i : Fin n}

/-! ## What a step leaves alone -/

omit [AddCommMonoid M] in
theorem SumState.Move.other [Add M] (h : s.Move T tr input i s') {j : Fin n} (hj : j ≠ i) :
    s'.pc j = s.pc j ∧ s'.sum j = s.sum j := by
  cases h <;> simp [SumState.goto, SumState.setBarrier, hj]

omit [AddCommMonoid M] in
/-- A barrier moves only by a step of the thread in a call on it, and that is a user of it. -/
theorem SumState.Move.barrier [Add M] (h : s.Move T tr input i s') (D : Describes t tr) (q : Fin n) :
    s'.barrier q = s.barrier q ∨
      ∃ op : BarrierOp (Fin n), op.thread = i ∧ i ∈ barrierUsers t q ∧
        (s.barrier q).step T op = some (s'.barrier q) := by
  have hown : ∀ (op : BarrierOp (Fin n)) (b : Barrier (Fin n)) (p : NodePc M), op.thread = i →
      (s.barrier i).step T op = some b → ((s.setBarrier i b).goto i p).barrier q = s.barrier q ∨
        ∃ op : BarrierOp (Fin n), op.thread = i ∧ i ∈ barrierUsers t q ∧
          (s.barrier q).step T op = some (((s.setBarrier i b).goto i p).barrier q) := by
    intro op b p hop hb
    by_cases e : q = i
    · subst e
      exact .inr ⟨op, hop, Finset.mem_insert_self _ _, by simpa [SumState.goto, SumState.setBarrier] using hb⟩
    · exact .inl (by simp [SumState.goto, SumState.setBarrier, e])
  have hpar : ∀ (op : BarrierOp (Fin n)) (r : Fin n) (b : Barrier (Fin n)) (p : NodePc M), op.thread = i →
      tr.P i = some r → (s.barrier r).step T op = some b →
      ((s.setBarrier r b).goto i p).barrier q = s.barrier q ∨
        ∃ op : BarrierOp (Fin n), op.thread = i ∧ i ∈ barrierUsers t q ∧
          (s.barrier q).step T op = some (((s.setBarrier r b).goto i p).barrier q) := by
    intro op r b p hop hr hb
    by_cases e : q = r
    · subst e
      rw [D.P, Option.some.injEq] at hr
      refine .inr ⟨op, hop, ?_, by simpa [SumState.goto, SumState.setBarrier] using hb⟩
      rw [barrierUsers, Finset.mem_insert, t.mem_children]
      exact (eq_or_ne i q).imp_right fun hne => ⟨hr, hne⟩
    · exact .inl (by simp [SumState.goto, SumState.setBarrier, e])
  cases h with
  | callOwn b _ hb => exact hown (.wait i) b _ rfl hb
  | inOwn b _ hb => exact hown (.step i) b _ rfl hb
  | leaveOwn b _ hb _ => exact hown (.step i) b _ rfl hb
  | callParent r b _ hr hb => exact hpar (.wait i) r b _ rfl hr hb
  | inParent r b p _ hr hb _ => exact hpar (.step i) r b p rfl hr hb
  | _ => exact .inl rfl

/-! ## The step lemma -/

namespace TreeInv

theorem init (D : Describes t tr) : TreeInv t input T (SumState.init tr) where
  barrier p := by
    have hcard : (barrierUsers t p).card = tr.numChildren p + 1 := by
      rw [barrierUsers, Finset.card_insert_of_notMem (by simp), D.numChildren]
    have := UsedBarrier.init T (barrierUsers t p)
    rwa [hcard] at this
  own i h := by cases h
  child p j _ h := by simp [SumState.init, Barrier.init] at h
  sums i := rfl
  out l h := by cases h

theorem step_barrier (I : TreeInv t input T s) (D : Describes t tr) (h : s.Move T tr input i s') (q : Fin n) :
    UsedBarrier T (barrierUsers t q) (s'.barrier q) := by
  rcases h.barrier D q with he | ⟨op, hop, hu, hs⟩
  · rw [he]; exact I.barrier q
  · refine (I.barrier q).step (fun j hj => ?_) hs
    obtain rfl : j = i := by rw [hj] at hop; exact hop
    exact hu

theorem returned_le (D : Describes t tr) (h : s.Move T tr input i s') (q j : Fin n) :
    (s.barrier q).returned j ≤ (s'.barrier q).returned j := by
  rcases h.barrier D q with he | ⟨op, -, -, hs⟩
  · rw [he]
  · exact (Barrier.move_of_step T hs).returned_le T j

theorem step_own (I : TreeInv t input T s) (D : Describes t tr) (h : s.Move T tr input i s') (j : Fin n)
    (hj : (s'.pc j).pastOwn = true) : 1 ≤ (s'.barrier j).returned j := by
  by_cases hpast : (s.pc j).pastOwn = true
  · exact (I.own j hpast).trans (returned_le D h j j)
  · -- the thread has just left its own barrier
    obtain rfl : j = i := by
      by_contra hne
      rw [(h.other hne).1] at hj
      exact hpast hj
    cases h with
    | callOwn b _ _ | inOwn b _ _ => simp [SumState.goto_pc_same, NodePc.pastOwn] at hj
    | leaveOwn b _ hb hr =>
      simpa [SumState.goto, SumState.setBarrier] using (I.barrier j).inv.returned_pos hb hr
    | lock m hpc => rcases hpc with hpc | hpc <;> exact absurd (by rw [hpc]; rfl) hpast
    | unlock m p hpc _ => rcases hpc with hpc | hpc <;> exact absurd (by rw [hpc]; rfl) hpast
    | leaf m hpc _ | internal m hpc _ | scan hpc | add c hpc _ _ | skip c hpc _ | added c hpc _ | store c v hpc
    | printPartial p hpc _ | printRoot hpc | callParent q b hpc _ _ | inParent q b p hpc _ _ _ =>
      exact absurd (by rw [hpc]; rfl) hpast

theorem step_child (I : TreeInv t input T s) (D : Describes t tr) (h : s.Move T tr input i s') {q j : Fin n}
    (hne : j ≠ q) (hent : 1 ≤ (s'.barrier q).entered j) : (s'.pc j).atParent = true := by
  by_cases e : j = i
  · subst j
    -- entering the parent's barrier is the step to `.inParent`, and from there it is `.done`
    have hold : s'.barrier q = s.barrier q → (s.pc i).atParent = true := fun he =>
      I.child q i hne (he ▸ hent)
    cases h with
    | callOwn b hpc _ | inOwn b hpc _ | leaveOwn b hpc _ _ =>
      have := hold (by simp [SumState.goto, SumState.setBarrier, hne.symm])
      rw [hpc] at this; cases this
    | callParent r b _ _ _ => simp [SumState.goto_pc_same, NodePc.atParent]
    | inParent r b p _ _ _ hp =>
      rw [SumState.goto_pc_same]
      rcases hp with rfl | rfl <;> rfl
    | lock m hpc | unlock m p hpc _ =>
      have := hold rfl
      rcases hpc with hpc | hpc <;> rw [hpc] at this <;> cases this
    | leaf m hpc _ | internal m hpc _ | scan hpc | add c hpc _ _ | skip c hpc _ | added c hpc _ | store c v hpc
    | printPartial p hpc _ | printRoot hpc =>
      have := hold rfl
      rw [hpc] at this; cases this
  · rw [(h.other e).1]
    refine I.child q j hne ?_
    rcases h.barrier D q with he | ⟨op, hop, -, hs⟩
    · rwa [he] at hent
    · rwa [((Barrier.move_of_step T hs).other T (hop.symm ▸ e)).2.1] at hent

/-- **A node reads final sums**: when `i` is past its own barrier its children are done adding. -/
theorem child_final (I : TreeInv t input T s) (hi : (s.pc i).pastOwn = true) {j : Fin n}
    (hj : j ∈ t.children i) : s.sum j = t.leafSum input j := by
  have hent : 1 ≤ (s.barrier i).entered j := (I.barrier i).entered (I.own i hi) (Finset.mem_insert_of_mem hj)
  have hat := I.child i j (t.mem_children.1 hj).2 hent
  have hsum := I.sums j
  cases hpc : s.pc j <;> rw [hpc] at hat hsum
  case inParent | done => exact hsum
  all_goals cases hat

theorem step_sums (I : TreeInv t input T s) (D : Describes t tr) (h : s.Move T tr input i s') (j : Fin n) :
    SumAt t input j (s'.sum j) (s'.pc j) := by
  by_cases e : j = i
  swap
  · rw [(h.other e).1, (h.other e).2]; exact I.sums j
  subst j
  have hi := I.sums i
  cases h with
  | callOwn b hpc _ | inOwn b hpc _ | leaveOwn b hpc _ _ =>
    rw [SumState.goto_pc_same]
    rwa [hpc] at hi
  | lock m hpc =>
    rw [SumState.goto_pc_same]
    rcases hpc with hpc | hpc <;> rwa [hpc] at hi
  | leaf m hpc hnum =>
    rw [SumState.goto_pc_same]
    exact t.isLeaf_iff_children.2 (by rw [← D.numChildren, hnum])
  | internal m hpc hnum =>
    rw [SumState.goto_pc_same]
    rw [hpc] at hi
    refine ⟨fun hl => hnum ?_, hi.trans (childSum_zero t input i).symm⟩
    rw [D.numChildren, t.isLeaf_iff_children.1 hl]
  | scan hpc =>
    rw [hpc] at hi
    rw [SumState.goto_pc_same]
    exact (Function.update_self _ _ _).trans (t.leafSum_leaf input hi).symm
  | add c hpc hc hne =>
    have hfinal : c ∈ t.children i := by
      rw [D.P, Option.some.injEq] at hc
      exact t.mem_children.2 ⟨hc, hne.symm⟩
    have hc := I.child_final (i := i) (by rw [hpc]; rfl) hfinal
    rw [hpc] at hi
    rw [SumState.goto_pc_same]
    exact ⟨hi.1, by rw [childSum_child t input hfinal, ← hi.2, ← hc]⟩
  | skip c hpc hc =>
    rw [hpc] at hi
    rw [SumState.goto_pc_same]
    refine ⟨hi.1, hi.2.trans (childSum_other t input fun hmem => hc ?_).symm⟩
    rw [t.mem_children] at hmem
    exact ⟨by rw [D.P, hmem.1], hmem.2.symm⟩
  | added c hpc hn =>
    rw [hpc] at hi
    rw [SumState.goto_pc_same]
    exact ⟨hi.1, hi.2.trans (childSum_all t input hi.1 hn)⟩
  | store c v hpc =>
    rw [hpc] at hi
    rw [SumState.goto_pc_same]
    exact ⟨hi.1, (Function.update_self _ _ _).trans hi.2⟩
  | printPartial p hpc hp =>
    rw [hpc] at hi
    rw [SumState.goto_pc_same]
    rcases hp with ⟨rfl, hroot⟩ | rfl
    · exact ⟨Fin.ext (hroot.trans D.rootNode), hi.2⟩
    · exact hi.2
  | printRoot hpc =>
    rw [hpc] at hi
    rw [SumState.goto_pc_same]
    exact hi.2
  | unlock m p hpc hp =>
    rw [SumState.goto_pc_same]
    rcases hpc with hpc | hpc <;> rw [hpc] at hi <;> rcases hp with rfl | rfl <;> exact hi
  | callParent q b hpc _ _ =>
    rw [hpc] at hi
    rw [SumState.goto_pc_same]
    exact hi
  | inParent q b p hpc _ _ hp =>
    rw [hpc] at hi
    rw [SumState.goto_pc_same]
    rcases hp with rfl | rfl <;> exact hi

theorem step_out (I : TreeInv t input T s) (h : s.Move T tr input i s') : ∀ l ∈ s'.out, l.Correct t input := by
  have hi := I.sums i
  cases h with
  | scan hpc | printPartial p hpc _ | printRoot hpc =>
    rw [hpc] at hi
    intro l hl
    rcases List.mem_cons.1 hl with rfl | hl
    · exact hi
    · exact I.out l hl
  | _ => exact I.out

theorem step (I : TreeInv t input T s) (D : Describes t tr) (h : s.Move T tr input i s') :
    TreeInv t input T s' where
  barrier := I.step_barrier D h
  own := I.step_own D h
  child _ _ := I.step_child D h
  sums := I.step_sums D h
  out := I.step_out h

theorem of_reach (D : Describes t tr) (h : Trans.Reach (SumState.step T tr input) (SumState.init tr) s) :
    TreeInv t input T s :=
  h.inv (init D) fun _ _ _ _ I _ hs => I.step D (SumState.move_of_step T tr input hs)

end TreeInv

/-- `main` keeps inside its arrays, and under any schedule what an internal node prints is the sum of the values entered
at the leaves below it, and what is printed as the root's sum is the sum of all leaf inputs. -/
def PrintsSums (T : Threads (Fin n)) (t : ParentTree (Fin n)) (lines : List (Fin n × Fin n)) (input : Fin n → M) : Prop :=
  ∃ tr, readTree lines = some tr ∧ ∀ s, Trans.Reach (SumState.step T tr input) (SumState.init tr) s →
    (∀ i v, Line.partialSum i v ∈ s.out → ¬ t.IsLeaf i ∧ v = ∑ j ∈ t.leavesBelow i, input j) ∧
    (∀ i v, Line.rootSum i v ∈ s.out → i = t.root ∧ v = ∑ j ∈ t.leaves, input j)

/-- **The tree sums are right** for the trees that the arrays hold. -/
theorem printed_sums (T : Threads (Fin n)) (t : ParentTree (Fin n)) (lines : List (Fin n × Fin n))
    (hfile : lines.Perm (List.ofFn fun a => (a, t.parent a))) (input : Fin n → M) :
    PrintsSums T t lines input ↔ n ≤ entries := by
  constructor
  · rintro ⟨tr, -, -⟩
    exact tr.fits
  intro hn
  obtain ⟨tr, htr⟩ := exists_readTree hn lines
  refine ⟨tr, htr, fun s h => ?_⟩
  have I := TreeInv.of_reach (readTree_describes t hfile htr) h
  refine ⟨fun i v hl => I.out _ hl, fun i v hl => ?_⟩
  obtain ⟨rfl, hv⟩ : i = t.root ∧ v = t.leafSum input i := I.out _ hl
  exact ⟨rfl, hv.trans (t.leafSum_root input)⟩

/-- Node 0 with the children 1 and 2. -/
def fork : ParentTree (Fin 3) := ⟨fun _ => 0, 0, rfl, fun _ => ⟨1, rfl⟩⟩

/-- What `main` reads of a file that is not in order. -/
def forkFile : TreeFile 3 := (readTree [(1, 0), (2, 0), (0, 0)]).get rfl

theorem eq_forkFile {tr : TreeFile 3} (h : readTree [(1, 0), (2, 0), (0, 0)] = some tr) : tr = forkFile :=
  (Option.get_of_eq_some _ h).symm

/-- The two leaves run first, then the root prints 6 + 7. -/
theorem printed_sums_fork : ∃ s : SumState 3 ℤ,
    readTree [(1, 0), (2, 0), (0, 0)] = some forkFile ∧
    Trans.Reach (SumState.step (Threads.ofFin 3) forkFile fun i => (5 + i.val : ℤ)) (SumState.init forkFile) s ∧
    Line.rootSum 0 13 ∈ s.out ∧ (13 : ℤ) = ∑ j ∈ fork.leaves, (5 + (j.val : ℤ)) := by
  obtain ⟨s, hr, hs⟩ := Trans.exists_reach_of_run
    (SumState.step (Threads.ofFin 3) forkFile fun i => (5 + i.val : ℤ)) (SumState.init forkFile)
    (List.replicate 31 1 ++ List.replicate 31 2 ++ List.replicate 34 0)
    (fun s => decide (Line.rootSum 0 13 ∈ s.out)) (by decide +kernel)
  have hout := of_decide_eq_true hs
  obtain ⟨tr, htr, hsums⟩ := (printed_sums (Threads.ofFin 3) fork [(1, 0), (2, 0), (0, 0)] (by decide)
    fun i => (5 + i.val : ℤ)).2 (by decide)
  obtain rfl := eq_forkFile htr
  exact ⟨s, htr, hr, hout, ((hsums s hr).2 0 13 hout).2⟩

/-- A path from node 0 to node 100, one node more than there are entries. -/
def longPath : ParentTree (Fin 101) :=
  .ofRank (fun i => ⟨i.val - 1, by omega⟩) 0 rfl (fun i => i.val) fun i hi => by
    have hpos : i.val ≠ 0 := fun h => hi (Fin.ext h)
    show i.val - 1 < i.val
    omega

/-- `main` stores to `P[100]`. -/
theorem printed_sums_overrun : ¬ PrintsSums (Threads.ofFin 101) longPath (List.ofFn fun a => (a, longPath.parent a))
    fun _ => (1 : ℤ) := by
  rintro ⟨tr, -, -⟩
  exact absurd tr.fits (by decide)

end OsLab.A7
