import OsLab.A7.TreeDeadlock

/-!
# What the tree program prints (A7/computesum.c)

| here | there |
| --- | --- |
| `linesOf`       | the lines of `node(i)` (:23, :38-41), in their order; a root without children prints no sum |
| `TreePc.printed` | how many of them the thread has printed |
| `NodeMove`      | the steps of `node(i)` |
| `Printing`      | every node's sum and lines follow its statements, children's lines come before their parent's |

`main` goes on to remove the mutex and the semaphores when all of the threads but one have called `foothread_exit`. By then
every node but the root has printed (`few_left`): its parent is past the barrier that it has met it at. The root need
not have.
-/

namespace OsLab.A7

open Function (update)

variable {n : Nat} {M : Type}

def Line.node : Line n M → Fin n
  | .prompt i | .partialSum i _ | .rootSum i _ => i

def TreePc.printed : TreePc M → Nat
  | .unborn | .own _ | .lock | .scan | .load _ | .store _ _ | .printPartial => 0
  | .printRoot => 1
  | .unlock | .parent _ | .exit _ => 2

namespace TreeRun

/-! ## The steps of a node -/

section
variable [Add M] (tr : TreeFile n) (input : Fin n → M)

/-- A statement between `foothread_mutex_lock(&csmtx)` and `foothread_mutex_unlock(&csmtx)`. -/
inductive Stmt (s : TreeRun n M) (i : Fin n) : (Fin n → M) → List (Line n M) → TreePc M → Prop
  | scan : s.pc i = .scan → Stmt s i (update s.sum i (input i)) (.prompt i :: s.out) .unlock
  | add (j : Fin n) : s.pc i = .load j → tr.P j = some i → i ≠ j →
      Stmt s i s.sum s.out (.store j (s.sum i + s.sum j))
  | skip (j : Fin n) : s.pc i = .load j → ¬ (tr.P j = some i ∧ i ≠ j) → Stmt s i s.sum s.out (.load (j + 1))
  | added (j : Nat) : s.pc i = .load j → n ≤ j → Stmt s i s.sum s.out .printPartial
  | store (j : Nat) (v : M) : s.pc i = .store j v → Stmt s i (update s.sum i v) s.out (.load (j + 1))
  | printPartial : s.pc i = .printPartial →
      Stmt s i s.sum (.partialSum i (s.sum i) :: s.out) (if i.val = tr.rootNode then .printRoot else .unlock)
  | printRoot : s.pc i = .printRoot → Stmt s i s.sum (.rootSum i (s.sum i) :: s.out) .unlock

inductive NodeMove (s : TreeRun n M) (i : Fin n) : TreeRun n M → Prop
  | own (p : WaitPc) (b : AtomicBarrier (Fin n)) (p' : Option WaitPc) : s.pc i = .own p →
      (s.barrier i).exec i p = some (b, p') → NodeMove s i ((s.setBarrier i b).goto i (p'.elim .lock .own))
  | lock (m : AtomicMutex (Fin n)) : s.pc i = .lock → s.csmtx.lock i = some m →
      NodeMove s i ({ s with csmtx := m }.goto i (if tr.numChildren i = 0 then .scan else .load 0))
  | stmt (sum : Fin n → M) (out : List (Line n M)) (p : TreePc M) : Stmt tr input s i sum out p →
      NodeMove s i ({ s with sum := sum, out := out }.goto i p)
  | unlock : s.pc i = .unlock → NodeMove s i ({ s with csmtx := s.csmtx.unlock i }.goto i (.parent .lock))
  | parent (q : Fin n) (p : WaitPc) (b : AtomicBarrier (Fin n)) (p' : Option WaitPc) : s.pc i = .parent p →
      tr.P i = some q → (s.barrier q).exec i p = some (b, p') →
      NodeMove s i ((s.setBarrier q b).goto i (p'.elim (.exit .checkMtx) .parent))
  | exit (p p' : ExitPc) (sh : Shared) : s.pc i = .exit p → foothreadExit s.sh p = some (sh, p') →
      NodeMove s i ({ s with sh := sh }.goto i (.exit p'))

variable {tr input} {s s' : TreeRun n M} {i j : Fin n}

theorem nodeMove_of_step (h : s.threadStep tr input (.node i) = some s') : NodeMove tr input s i s' := by
  cases hpc : s.pc i <;> simp only [threadStep, stepNode, hpc] at h
  case unborn => cases h
  case own p =>
    obtain ⟨⟨b, p'⟩, hb, rfl⟩ := Option.map_eq_some_iff.1 h
    exact .own p b p' hpc hb
  case lock =>
    obtain ⟨m, hm, rfl⟩ := Option.map_eq_some_iff.1 h
    exact .lock m hpc hm
  case scan =>
    cases h
    exact .stmt _ _ _ (.scan hpc)
  case load j =>
    split at h
    · next hj =>
      have hne : i.val ≠ j ↔ i ≠ ⟨j, hj⟩ := by rw [Ne, Ne, Fin.ext_iff]
      split at h
      · next hc =>
        cases h
        exact .stmt _ _ _ (.add ⟨j, hj⟩ hpc hc.1 (hne.1 hc.2))
      · next hc =>
        cases h
        exact .stmt _ _ _ (.skip ⟨j, hj⟩ hpc (by rwa [← hne]))
    · next hj =>
      cases h
      exact .stmt _ _ _ (.added j hpc (by omega))
  case store j v =>
    cases h
    exact .stmt _ _ _ (.store j v hpc)
  case printPartial =>
    cases h
    exact .stmt _ _ _ (.printPartial hpc)
  case printRoot =>
    cases h
    exact .stmt _ _ _ (.printRoot hpc)
  case unlock =>
    cases h
    exact .unlock hpc
  case parent p =>
    obtain ⟨q, hq, h⟩ := Option.bind_eq_some_iff.1 h
    obtain ⟨⟨b, p'⟩, hb, rfl⟩ := Option.map_eq_some_iff.1 h
    exact .parent q p b p' hpc hq hb
  case exit p =>
    obtain ⟨⟨sh, p'⟩, hsh, rfl⟩ := Option.map_eq_some_iff.1 h
    exact .exit p p' sh hpc hsh

theorem NodeMove.other (h : NodeMove tr input s i s') (hj : j ≠ i) : s'.pc j = s.pc j := by
  cases h <;> exact Function.update_of_ne hj _ _

theorem NodeMove.main (h : NodeMove tr input s i s') : s'.main = s.main := by
  cases h <;> rfl

/-- A node does not take back an arrival. -/
theorem NodeMove.arrivals_le (h : NodeMove tr input s i s') : (s.pc i).arrivals ≤ (s'.pc i).arrivals := by
  have hgoto : ∀ (r : TreeRun n M) (p : TreePc M), (r.goto i p).pc i = p := fun r p => Function.update_self _ _ _
  cases h with
  | own p b p' hpc hb =>
    have hcount := exec_counted hb
    rw [hgoto, hpc]
    cases p' with
    | none => exact RunInv.counted_le p
    | some c =>
      simp only [Option.elim_some, TreePc.arrivals] at hcount ⊢
      omega
  | parent q p b p' hpc hq hb =>
    have hcount := exec_counted hb
    rw [hgoto, hpc]
    cases p' with
    | none =>
      have := RunInv.counted_le p
      simp only [Option.elim_none, TreePc.arrivals]
      omega
    | some c =>
      simp only [Option.elim_some, TreePc.arrivals] at hcount ⊢
      omega
  | lock m hpc =>
    rw [hgoto, hpc]
    split <;> exact le_rfl
  | stmt sum out p hstmt =>
    rw [hgoto]
    cases hstmt with
    | printPartial hpc =>
      rw [hpc]
      split <;> exact le_rfl
    | scan hpc | add _ hpc | skip _ hpc | added _ hpc | store _ _ hpc | printRoot hpc => rw [hpc]; exact le_rfl
  | unlock hpc => rw [hgoto, hpc]; exact le_rfl
  | exit p p' sh hpc => rw [hgoto, hpc]; exact le_rfl

/-- `main` touches neither the sums nor the lines, and moves a thread only to create it. -/
theorem main_step {t : ParentTree (Fin n)} (I : RunInv t s) (h : s.threadStep tr input .main = some s') :
    s'.sum = s.sum ∧ s'.out = s.out ∧
      ∀ i, s'.pc i = s.pc i ∨ s.pc i = .unborn ∧ s'.pc i = .own .lock := by
  have hstage := I.stage
  cases hpc : s.main <;> simp only [threadStep, stepMain, hpc] at h
  case create k p =>
    obtain ⟨⟨sh, p'⟩, -, rfl⟩ := Option.map_eq_some_iff.1 h
    dsimp only
    split
    · next hp =>
      subst hp
      rw [Stage, hpc] at hstage
      unfold TreeRun.clone
      split
      · next hk =>
        refine ⟨rfl, rfl, fun i => ?_⟩
        by_cases hi : i = ⟨k, hk⟩
        · subst hi
          exact .inr ⟨(hstage.2.2 _).2 (by simp), Function.update_self _ _ _⟩
        · exact .inl (Function.update_of_ne hi _ _)
      · exact ⟨rfl, rfl, fun _ => .inl rfl⟩
    · exact ⟨rfl, rfl, fun _ => .inl rfl⟩
  case exit p =>
    obtain ⟨⟨sh, p'⟩, -, rfl⟩ := Option.map_eq_some_iff.1 h
    exact ⟨rfl, rfl, fun _ => .inl rfl⟩
  case destroyMutex =>
    cases h
    exact ⟨rfl, rfl, fun _ => .inl rfl⟩
  case destroyBarrier k =>
    split at h <;> cases h <;> exact ⟨rfl, rfl, fun _ => .inl rfl⟩
  case returned => cases h

end

/-! ## When `main` goes on -/

section
variable {s s' : TreeRun n M} {t : ParentTree (Fin n)} {i j : Fin n}

/-- All threads but one have called `foothread_exit` when that of `main` has returned. -/
theorem few_left (I : RunInv t s) (hdone : s.main.exitPc = some .done) (hi : (s.pc i).exitPc = none)
    (hj : (s.pc j).exitPc = none) : i = j := by
  by_contra hne
  have hmain : s.callers none = some .done := hdone
  have hmany : n ≤ s.sh.exitedThreads := by
    rcases I.exit.tokens with U | ⟨w, P⟩
    · exact absurd rfl (U.waiting none _ hmain).2.2
    · exact P.many
  rw [I.exit.base.exited, Fintype.sum_option, hmain] at hmany
  have hcaller : ∀ l : Fin n,
      (s.callers (some l)).elim 0 ExitPc.counted + (if (s.pc l).exitPc = none then 1 else 0) ≤ 1 := by
    intro l
    have := RunInv.counted_exit_le (s.pc l).exitPc
    show (s.pc l).exitPc.elim 0 ExitPc.counted + _ ≤ 1
    split
    · next hl => rw [hl]; exact le_rfl
    · omega
  have hsum := Finset.sum_le_sum fun l (_ : l ∈ Finset.univ) => hcaller l
  rw [Finset.sum_add_distrib] at hsum
  have hpair : ∑ l ∈ {i, j}, (if (s.pc l).exitPc = none then 1 else 0) ≤
      ∑ l, if (s.pc l).exitPc = none then 1 else 0 :=
    Finset.sum_le_sum_of_subset (Finset.subset_univ _)
  rw [Finset.sum_pair hne, if_pos hi, if_pos hj] at hpair
  have hcard : ∑ _l : Fin n, 1 = n := by simp
  have hone : (some ExitPc.done).elim 0 ExitPc.counted = 1 := rfl
  omega

/-- When `foothread_exit` has returned in `main`, each node but the root has called the barrier of its parent. -/
def Late (t : ParentTree (Fin n)) (s : TreeRun n M) : Prop :=
  s.main.exitPc = some .done → ∀ q, q ≠ t.root → (s.pc q).arrivals = 2

/-- A node past its own barrier has seen its children arrive there, removed or not. -/
theorem Late.first (L : Late t s) (I : RunInv t s) (hi : (s.pc i).pastBarrier = true) (hj : j ∈ t.children i) :
    (s.pc j).arrivals = 2 := by
  by_cases hsem : (s.barrier i).semid = none
  · have hgone := (I.gone i).1 hsem
    have hdone : s.main.exitPc = some .done := by
      cases hmain : s.main <;> rw [Gone, hmain] at hgone
      case destroyBarrier | returned => rfl
      all_goals exact hgone.elim
    refine L hdone j fun hroot => ?_
    obtain ⟨hp, hne⟩ := t.mem_children.1 hj
    rw [hroot, t.parent_root] at hp
    exact hne (hroot.trans hp)
  · exact I.first i hsem hi j hj

theorem exitPc_of_arrivals (h : (s.pc i).arrivals ≠ 2) : (s.pc i).exitPc = none := by
  cases hpc : s.pc i with
  | exit p => exact absurd (by rw [hpc]; rfl) h
  | unborn | own | lock | scan | load | store | printPartial | printRoot | unlock | parent => rfl

/-- It holds at once when `main` has passed. -/
theorem Late.of_mutex (I : RunInv t s) (hmain : s.main = .destroyMutex) : Late t s := by
  intro hdone q hq
  by_contra harr
  have hparent : t.parent q ≠ q := fun h => hq (t.eq_root_of_parent h)
  have hnone := exitPc_of_arrivals harr
  have hsem : (s.barrier (t.parent q)).semid ≠ none := by
    intro h
    have hgone := (I.gone _).1 h
    rwa [Gone, hmain] at hgone
  have hpast : (s.pc (t.parent q)).pastBarrier = true := by
    cases hpc : s.pc (t.parent q) with
    | exit p => rfl
    | unborn | own | lock | scan | load | store | printPartial | printRoot | unlock | parent =>
      exact absurd (few_left I hdone (by rw [hpc]; rfl) hnone) hparent
  exact harr (I.first _ hsem hpast q (t.mem_children.2 ⟨rfl, hparent.symm⟩))

section
variable [Add M] {tr : TreeFile n} {input : Fin n → M}

/-- The `foothread_exit` of `main` returns, or has returned before. -/
theorem exitPc_main (h : s.threadStep tr input .main = some s') (hdone : s'.main.exitPc = some .done) :
    s'.main = .destroyMutex ∨ s.main.exitPc = some .done := by
  cases hpc : s.main <;> simp only [threadStep, stepMain, hpc] at h
  case create k p =>
    obtain ⟨⟨sh, p'⟩, -, rfl⟩ := Option.map_eq_some_iff.1 h
    cases p' with
    | some p' => cases hdone
    | none =>
      simp only [mainAt] at hdone
      split at hdone <;> cases hdone
  case exit p =>
    obtain ⟨⟨sh, p'⟩, -, rfl⟩ := Option.map_eq_some_iff.1 h
    dsimp only at hdone ⊢
    split
    · exact .inl rfl
    · next hne =>
      rw [if_neg hne] at hdone
      exact absurd (Option.some.inj hdone) hne
  all_goals exact .inr rfl

theorem Late.step (L : Late t s) (I' : RunInv t s') {a : TreeActor n} (h : s.threadStep tr input a = some s')
    (I : RunInv t s) : Late t s' := by
  intro hdone q hq
  cases a with
  | main =>
    rcases exitPc_main h hdone with hmain | hmain
    · exact Late.of_mutex I' hmain hdone q hq
    · rcases (main_step I h).2.2 q with hpc | ⟨hpc, -⟩
      · rw [hpc]
        exact L hmain q hq
      · have harr := L hmain q hq
        rw [hpc] at harr
        cases harr
  | node i =>
    have hmove := nodeMove_of_step h
    have harr := L (hmove.main ▸ hdone) q hq
    by_cases hqi : q = i
    · subst hqi
      have := hmove.arrivals_le
      have := RunInv.arrivals_le (s'.pc q)
      omega
    · rwa [hmove.other hqi]

end

end

/-! ## Sums and lines -/

/-- What node `i` has printed. -/
def linesBy (s : TreeRun n M) (i : Fin n) : List (Line n M) := s.out.reverse.filter fun l => l.node = i

section
variable [AddCommMonoid M] (t : ParentTree (Fin n)) (input : Fin n → M)

/-- What node `i` has to print. -/
noncomputable def linesOf (i : Fin n) : List (Line n M) :=
  if t.IsLeaf i then [.prompt i]
  else .partialSum i (t.leafSum input i) :: if i = t.root then [.rootSum i (t.leafSum input i)] else []

theorem linesOf_take_two (i : Fin n) : (linesOf t input i).take 2 = linesOf t input i := by
  refine List.take_of_length_le ?_
  unfold linesOf
  split
  · exact Nat.le_succ 1
  · split <;> simp

/-- What `sum[i]` is at each statement of `node(i)`. -/
def Holds (i : Fin n) (x : M) : TreePc M → Prop
  | .unborn | .own _ | .lock => x = 0
  | .scan => t.IsLeaf i
  | .load j => ¬ t.IsLeaf i ∧ x = childSum t input i j
  | .store j v => ¬ t.IsLeaf i ∧ v = childSum t input i (j + 1)
  | .printPartial => ¬ t.IsLeaf i ∧ x = t.leafSum input i
  | .printRoot => ¬ t.IsLeaf i ∧ i = t.root ∧ x = t.leafSum input i
  | .unlock | .parent _ | .exit _ => x = t.leafSum input i

structure Printing (s : TreeRun n M) : Prop where
  sums : ∀ i, Holds t input i (s.sum i) (s.pc i)
  lines : ∀ i, s.linesBy i = (linesOf t input i).take (s.pc i).printed
  /-- the latest line first -/
  order : s.out.Pairwise fun l l' => l'.node = t.parent l.node → l'.node = l.node

variable {t input} {tr : TreeFile n} {s s' : TreeRun n M} {i j : Fin n}

/-- A thread that has arrived twice is through with its sum. -/
theorem Printing.final (P : Printing t input s) (h : (s.pc j).arrivals = 2) :
    s.sum j = t.leafSum input j ∧ (s.pc j).printed = 2 := by
  have hsum := P.sums j
  cases hpc : s.pc j <;> rw [hpc] at h hsum <;> simp only [TreePc.arrivals, reduceCtorEq] at h
  case own p =>
    have := RunInv.counted_le p
    omega
  case parent p => exact ⟨hsum, rfl⟩
  case exit p => exact ⟨hsum, rfl⟩
  all_goals omega

namespace Printing

/-- Node `i` goes on without printing. -/
theorem silent (P : Printing t input s) (hsum : ∀ j, j ≠ i → s'.sum j = s.sum j) (hout : s'.out = s.out)
    (hpc : ∀ j, j ≠ i → s'.pc j = s.pc j) (hprinted : (s'.pc i).printed = (s.pc i).printed)
    (hi : Holds t input i (s'.sum i) (s'.pc i)) : Printing t input s' := by
  refine ⟨fun j => ?_, fun j => ?_, hout ▸ P.order⟩
  · by_cases hj : j = i
    · exact hj ▸ hi
    · rw [hsum j hj, hpc j hj]
      exact P.sums j
  · rw [linesBy, hout, ← linesBy, P.lines j]
    by_cases hj : j = i
    · rw [hj, hprinted]
    · rw [hpc j hj]

/-- Node `i` prints a line; its parent has not printed yet. -/
theorem print (P : Printing t input s) {l : Line n M} (hl : l.node = i) (hsum : ∀ j, j ≠ i → s'.sum j = s.sum j)
    (hout : s'.out = l :: s.out) (hpc : ∀ j, j ≠ i → s'.pc j = s.pc j) (hi : Holds t input i (s'.sum i) (s'.pc i))
    (hparent : (s.pc (t.parent i)).printed = 0 ∨ t.parent i = i)
    (hlines : (linesOf t input i).take (s'.pc i).printed = (linesOf t input i).take (s.pc i).printed ++ [l]) :
    Printing t input s' := by
  refine ⟨fun j => ?_, fun j => ?_, ?_⟩
  · by_cases hj : j = i
    · exact hj ▸ hi
    · rw [hsum j hj, hpc j hj]
      exact P.sums j
  · rw [linesBy, hout, List.reverse_cons, List.filter_append, ← linesBy, P.lines j]
    by_cases hj : j = i
    · subst hj
      rw [hlines, List.filter_cons_of_pos (by simpa using hl)]
      rfl
    · rw [hpc j hj, List.filter_cons_of_neg (by simpa [hl] using Ne.symm hj)]
      simp
  · rw [hout, List.pairwise_cons]
    refine ⟨fun l' hl' hnode => ?_, P.order⟩
    rw [hl] at hnode ⊢
    rcases hparent with hzero | hroot
    · -- otherwise `l'` were one of no lines
      have hmem : l' ∈ s.linesBy (t.parent i) :=
        List.mem_filter.2 ⟨List.mem_reverse.2 hl', by simpa using hnode⟩
      rw [P.lines, hzero] at hmem
      cases hmem
    · exact hnode.trans hroot

theorem init (tr : TreeFile n) : Printing t input (TreeRun.init tr : TreeRun n M) where
  sums _ := rfl
  lines _ := rfl
  order := .nil

omit [AddCommMonoid M] in
/-- While a node prints, its parent waits for it. -/
theorem parent_printed (I : RunInv t s) (L : Late t s) (hi : (s.pc i).inCS = true) :
    (s.pc (t.parent i)).printed = 0 ∨ t.parent i = i := by
  by_cases hroot : t.parent i = i
  · exact .inr hroot
  refine .inl ?_
  have hchild : i ∈ t.children (t.parent i) := t.mem_children.2 ⟨rfl, fun h => hroot h.symm⟩
  by_contra hne
  have hpast : (s.pc (t.parent i)).pastBarrier = true := by
    cases hpc : s.pc (t.parent i) <;> rw [hpc] at hne
    case unborn | own => exact absurd rfl hne
    all_goals rfl
  have harr := L.first I hpast hchild
  cases hpc : s.pc i <;> rw [hpc] at hi harr <;> cases hi <;> cases harr

theorem stmt (P : Printing t input s) (D : Describes t tr) (I : RunInv t s) (L : Late t s) {sum : Fin n → M}
    {out : List (Line n M)} {p : TreePc M} (h : Stmt tr input s i sum out p) :
    Printing t input ({ s with sum := sum, out := out }.goto i p) := by
  have hother : ∀ j, j ≠ i → ({ s with sum := sum, out := out }.goto i p).pc j = s.pc j :=
    fun j hj => Function.update_of_ne hj _ _
  have hself : ({ s with sum := sum, out := out }.goto i p).pc i = p := Function.update_self _ _ _
  have hsumI := P.sums i
  have hroot : i.val = tr.rootNode ↔ i = t.root := by rw [D.rootNode, Fin.ext_iff]
  cases h with
  | scan hpc =>
    rw [hpc] at hsumI
    have hleaf : t.IsLeaf i := hsumI
    refine P.print (i := i) (l := .prompt i) rfl (fun j hj => Function.update_of_ne hj _ _) rfl hother ?_
      (parent_printed I L (by rw [hpc]; rfl)) ?_
    · rw [hself]
      show update s.sum i (input i) i = _
      rw [Function.update_self, t.leafSum_leaf input hleaf]
    · rw [hself, hpc]
      simp [linesOf, hleaf, TreePc.printed]
  | add j hpc hP hne =>
    rw [hpc] at hsumI
    have hchild : j ∈ t.children i := by
      rw [D.P, Option.some.injEq] at hP
      exact t.mem_children.2 ⟨hP, hne.symm⟩
    refine P.silent (fun _ _ => rfl) rfl hother (by rw [hself, hpc]; rfl) ?_
    rw [hself]
    have hfinal := (P.final (L.first I (by rw [hpc]; rfl) hchild)).1
    refine ⟨hsumI.1, ?_⟩
    rw [hsumI.2, hfinal, childSum_child t input hchild]
  | skip j hpc hskip =>
    rw [hpc] at hsumI
    have hchild : j ∉ t.children i := by
      rw [D.P, Option.some.injEq] at hskip
      exact fun h => hskip ⟨(t.mem_children.1 h).1, (t.mem_children.1 h).2.symm⟩
    refine P.silent (fun _ _ => rfl) rfl hother (by rw [hself, hpc]; rfl) ?_
    rw [hself]
    refine ⟨hsumI.1, ?_⟩
    rw [childSum_other t input hchild]
    exact hsumI.2
  | added j hpc hj =>
    rw [hpc] at hsumI
    refine P.silent (fun _ _ => rfl) rfl hother (by rw [hself, hpc]; rfl) ?_
    rw [hself]
    exact ⟨hsumI.1, hsumI.2.trans (childSum_all t input hsumI.1 hj)⟩
  | store j v hpc =>
    rw [hpc] at hsumI
    refine P.silent (fun j hj => Function.update_of_ne hj _ _) rfl hother (by rw [hself, hpc]; rfl) ?_
    rw [hself]
    refine ⟨hsumI.1, ?_⟩
    show update s.sum i v i = _
    rw [Function.update_self]
    exact hsumI.2
  | printPartial hpc =>
    rw [hpc] at hsumI
    refine P.print (i := i) (l := .partialSum i (s.sum i)) rfl (fun _ _ => rfl) rfl hother ?_
      (parent_printed I L (by rw [hpc]; rfl)) ?_
    · rw [hself]
      split
      · next hr => exact ⟨hsumI.1, hroot.1 hr, hsumI.2⟩
      · exact hsumI.2
    · rw [hself, hpc, linesOf, if_neg hsumI.1, ← hsumI.2]
      split
      · rfl
      · next hr =>
        rw [if_neg fun h => hr (hroot.2 h)]
        rfl
  | printRoot hpc =>
    rw [hpc] at hsumI
    refine P.print (i := i) (l := .rootSum i (s.sum i)) rfl (fun _ _ => rfl) rfl hother ?_
      (parent_printed I L (by rw [hpc]; rfl)) ?_
    · rw [hself]
      exact hsumI.2.2
    · rw [hself, hpc, linesOf, if_neg hsumI.1, if_pos hsumI.2.1, ← hsumI.2.2]
      rfl

theorem node (P : Printing t input s) (D : Describes t tr) (I : RunInv t s) (L : Late t s)
    (h : NodeMove tr input s i s') : Printing t input s' := by
  have hpc : ∀ j, j ≠ i → s'.pc j = s.pc j := fun j hj => h.other hj
  have hgoto : ∀ (r : TreeRun n M) (p : TreePc M), (r.goto i p).pc i = p := fun r p => Function.update_self _ _ _
  have hsumI := P.sums i
  cases h with
  | own p b p' hi =>
    rw [hi] at hsumI
    refine P.silent (fun _ _ => rfl) rfl hpc ?_ ?_
    · rw [hgoto, hi]
      cases p' <;> rfl
    · rw [hgoto]
      cases p' <;> exact hsumI
  | lock m hi =>
    rw [hi] at hsumI
    refine P.silent (fun _ _ => rfl) rfl hpc ?_ ?_
    · rw [hgoto, hi]
      split <;> rfl
    · have hleaf : tr.numChildren i = 0 ↔ t.IsLeaf i := by rw [D.numChildren, t.isLeaf_iff_children]
      rw [hgoto]
      split
      · next h => exact hleaf.1 h
      · next h => exact ⟨fun hl => h (hleaf.2 hl), hsumI.trans (childSum_zero t input i).symm⟩
  | stmt sum out p hstmt => exact P.stmt D I L hstmt
  | unlock hi =>
    rw [hi] at hsumI
    refine P.silent (fun _ _ => rfl) rfl hpc (by rw [hgoto, hi]; rfl) ?_
    rw [hgoto]
    exact hsumI
  | parent q p b p' hi =>
    rw [hi] at hsumI
    refine P.silent (fun _ _ => rfl) rfl hpc ?_ ?_
    · rw [hgoto, hi]
      cases p' <;> rfl
    · rw [hgoto]
      cases p' <;> exact hsumI
  | exit p p' sh hi =>
    rw [hi] at hsumI
    refine P.silent (fun _ _ => rfl) rfl hpc (by rw [hgoto, hi]; rfl) ?_
    rw [hgoto]
    exact hsumI

theorem main (P : Printing t input s) (I : RunInv t s) (h : s.threadStep tr input .main = some s') : Printing t input s' := by
  obtain ⟨hsum, hout, hpc⟩ := main_step I h
  refine ⟨fun i => ?_, fun i => ?_, hout ▸ P.order⟩
  · have hsumI := P.sums i
    rw [hsum]
    rcases hpc i with hi | ⟨hi, hi'⟩
    · rwa [hi]
    · rw [hi] at hsumI
      rw [hi']
      exact hsumI
  · rw [linesBy, hout, ← linesBy, P.lines i]
    rcases hpc i with hi | ⟨hi, hi'⟩
    · rw [hi]
    · rw [hi, hi']
      rfl

end Printing

/-- What holds in every state of a run. -/
theorem course (D : Describes t tr) (h : Trans.Reach (step tr input) (.init tr) s) :
    RunInv t s ∧ Late t s ∧ Printing t input s := by
  refine h.inv (I := fun s => RunInv t s ∧ Late t s ∧ Printing t input s) ⟨.init D, ?_, .init tr⟩ ?_
  · intro hdone
    simp only [init, mainAt] at hdone
    split at hdone <;> cases hdone
  · rintro s a s' - ⟨I, L, P⟩ - h
    have hs := threadStep_of_step h
    have I' := I.step D hs
    refine ⟨I', L.step I' hs I, ?_⟩
    cases a with
    | main => exact P.main I hs
    | node i => exact P.node D I L (nodeMove_of_step hs)

/-- Who has printed has seen all of its children's lines. -/
theorem Printing.children (P : Printing t input s) (I : RunInv t s) (L : Late t s) (hj : j ∈ t.children i)
    (hi : s.linesBy i ≠ []) : s.linesBy j = linesOf t input j := by
  have hpast : (s.pc i).pastBarrier = true := by
    rw [P.lines] at hi
    cases hpc : s.pc i <;> rw [hpc] at hi
    case unborn | own => exact absurd rfl hi
    all_goals rfl
  rw [P.lines, (P.final (L.first I hpast hj)).2, linesOf_take_two]

end

end TreeRun

/-- **The lines come from the leaves up**: what a node has printed is a beginning of its lines, with the right sum, a node
prints when all its children have, and when `main` returns only the root may not have printed yet. -/
theorem printed_before_return [AddCommMonoid M] (hn : n ≤ entries) (t : ParentTree (Fin n)) (lines : List (Fin n × Fin n))
    (hfile : lines.Perm (List.ofFn fun a => (a, t.parent a))) (input : Fin n → M) :
    ∃ tr, readTree lines = some tr ∧ ∀ s, Trans.Reach (TreeRun.step tr input) (.init tr) s →
      (∀ i, s.linesBy i <+: TreeRun.linesOf t input i) ∧
        (s.out.Pairwise fun l l' => l'.node = t.parent l.node → l'.node = l.node) ∧
        (∀ i, ∀ j ∈ t.children i, s.linesBy i ≠ [] → s.linesBy j = TreeRun.linesOf t input j) ∧
        (s.main = .returned → ∀ i, i ≠ t.root → s.linesBy i = TreeRun.linesOf t input i) := by
  obtain ⟨tr, htr⟩ := exists_readTree hn lines
  refine ⟨tr, htr, fun s h => ?_⟩
  obtain ⟨I, L, P⟩ := TreeRun.course (readTree_describes t hfile htr) h
  refine ⟨fun i => ?_, P.order, fun i j hj => P.children I L hj, fun hmain i hi => ?_⟩
  · rw [P.lines]
    exact List.take_prefix _ _
  · rw [P.lines, (P.final (L (by rw [hmain]; rfl) i hi)).2, TreeRun.linesOf_take_two]

/-- `main` returns while the root, which has been let through its barrier, has printed nothing. -/
theorem printed_before_return_fork :
    let input : Fin 3 → ℤ := fun i => i.val
    ∃ s, readTree [(1, 0), (2, 0), (0, 0)] = some forkFile ∧ Trans.Reach (TreeRun.step forkFile input) (.init forkFile) s ∧
      s.main = .returned ∧ s.linesBy 0 = [] ∧ ∀ i, i ≠ 0 → s.linesBy i = TreeRun.linesOf fork input i := by
  intro input
  obtain ⟨s, hr, hs⟩ := Trans.exists_reach_of_run (TreeRun.step forkFile input) (.init forkFile)
    (List.replicate 18 .main ++ List.replicate 4 (.node 0) ++ List.replicate 12 (.node 1) ++ List.replicate 12 (.node 2) ++
      List.replicate 7 (.node 1) ++ List.replicate 9 (.node 2) ++ List.replicate 7 .main ++ [.node 1, .main, .node 2] ++
      List.replicate 7 .main)
    (fun s => decide (s.main = .returned ∧ s.linesBy 0 = [])) (by decide +kernel)
  obtain ⟨hmain, hroot⟩ := of_decide_eq_true hs
  obtain ⟨tr, htr, hlines⟩ := printed_before_return (by decide) fork [(1, 0), (2, 0), (0, 0)] (by decide) input
  obtain rfl := eq_forkFile htr
  exact ⟨s, htr, hr, hmain, hroot, (hlines s hr).2.2.2 hmain⟩

end OsLab.A7
