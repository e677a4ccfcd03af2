import OsLab.A7.AtomicBarrier
import OsLab.A7.ComputeSum

/-!
# The run of the tree program (A7/computesum.c)

| here | there |
| --- | --- |
| `TreeRun.step .main`     | `main` from the creation of the threads to its end (:78-91) |
| `TreeRun.step (.node i)` | the thread of `node(i)` (:14), `foothread_exit` included |
| `TreeRun.sh`             | the globals of `foothread_create` and `foothread_exit` (`OsLab.A7.Exit`) |

The mutex calls are atomic (`OsLab.A7.AtomicBarrier`). `main` destroys `csmtx` and the semaphores of the barriers when
its `foothread_exit` has returned, which other threads may not have called yet. The end of `main` ends the process, whatever
its threads are about to do (`TreeRun.step`).
-/

namespace OsLab.A7

open Function (update)

/-- Where the thread of a node is: in its own barrier, in `node` (:19-44), in its parent's barrier, or in
`foothread_exit`. -/
inductive TreePc (M : Type)
  | unborn
  | own (p : WaitPc)
  | lock
  | scan
  | load (j : Nat) | store (j : Nat) (v : M)
  | printPartial | printRoot
  | unlock
  | parent (p : WaitPc)
  | exit (p : ExitPc)

inductive TreeMain
  | create (k : Nat) (p : CreatePc)
  | exit (p : ExitPc)
  | destroyMutex | destroyBarrier (k : Nat)
  | returned
deriving DecidableEq, Repr

structure TreeRun (n : Nat) (M : Type) where
  sh : Shared
  main : TreeMain
  csmtx : AtomicMutex (Fin n)
  barrier : Fin n → AtomicBarrier (Fin n)
  sum : Fin n → M
  out : List (Line n M)
  pc : Fin n → TreePc M

inductive TreeActor (n : Nat)
  | main | node (i : Fin n)
deriving DecidableEq, Repr

namespace TreeRun

variable {n : Nat} {M : Type}

/-- Where `main` stands before it creates the thread of node `k`. -/
def mainAt (n k : Nat) : TreeMain := if k < n then .create k .checkMtx else .exit .checkMtx

def init [Zero M] (tr : TreeFile n) : TreeRun n M where
  sh := ⟨none, none, 0, 0⟩
  main := mainAt n 0
  csmtx := .free
  barrier i := AtomicBarrier.init (tr.numChildren i + 1)
  sum _ := 0
  out := []
  pc _ := .unborn

def goto (s : TreeRun n M) (i : Fin n) (p : TreePc M) : TreeRun n M := { s with pc := update s.pc i p }

def setBarrier (s : TreeRun n M) (q : Fin n) (b : AtomicBarrier (Fin n)) : TreeRun n M :=
  { s with barrier := update s.barrier q b }

/-- `clone`: the thread of node `k` starts. -/
def clone (s : TreeRun n M) (k : Nat) : TreeRun n M := if h : k < n then s.goto ⟨k, h⟩ (.own .lock) else s

/-- One step of `main` (:78-91). -/
def stepMain (s : TreeRun n M) : Option (TreeRun n M) :=
  match s.main with
  | .create k p => (foothreadCreate .joinable s.sh p).map fun (sh, p') =>
      let s' := if p = .clone then s.clone k else s
      { s' with
        sh := sh
        main := match p' with
          | some p' => .create k p'
          | none => mainAt n (k + 1) }
  | .exit p => (foothreadExit s.sh p).map fun (sh, p') =>
      { s with sh := sh, main := if p' = .done then .destroyMutex else .exit p' }
  | .destroyMutex => some { s with csmtx := .removed, main := .destroyBarrier 0 }
  | .destroyBarrier k =>
    if h : k < n then some { s.setBarrier ⟨k, h⟩ (s.barrier ⟨k, h⟩).destroy with main := .destroyBarrier (k + 1) }
    else some { s with main := .returned }
  | .returned => none

variable [Add M] (tr : TreeFile n) (input : Fin n → M)

/-- One step of the thread of node `i` (:14). -/
def stepNode (s : TreeRun n M) (i : Fin n) : Option (TreeRun n M) :=
  match s.pc i with
  | .unborn => none
  | .own p => ((s.barrier i).exec i p).map fun (b, p') => (s.setBarrier i b).goto i (p'.elim .lock .own)
  | .lock => (s.csmtx.lock i).map fun m =>
      { s with csmtx := m }.goto i (if tr.numChildren i = 0 then .scan else .load 0)
  | .scan => some ({ s with sum := update s.sum i (input i), out := .prompt i :: s.out }.goto i .unlock)
  | .load j =>
    if h : j < n then
      if tr.P ⟨j, h⟩ = some i ∧ i.val ≠ j then some (s.goto i (.store j (s.sum i + s.sum ⟨j, h⟩)))
      else some (s.goto i (.load (j + 1)))
    else some (s.goto i .printPartial)
  | .store j v => some ({ s with sum := update s.sum i v }.goto i (.load (j + 1)))
  | .printPartial => some ({ s with out := .partialSum i (s.sum i) :: s.out }.goto i
      (if i.val = tr.rootNode then .printRoot else .unlock))
  | .printRoot => some ({ s with out := .rootSum i (s.sum i) :: s.out }.goto i .unlock)
  | .unlock => some ({ s with csmtx := s.csmtx.unlock i }.goto i (.parent .lock))
  | .parent p => (tr.P i).bind fun q => ((s.barrier q).exec i p).map fun (b, p') =>
      (s.setBarrier q b).goto i (p'.elim (.exit .checkMtx) .parent)
  | .exit p => (foothreadExit s.sh p).map fun (sh, p') => { s with sh := sh }.goto i (.exit p')

/-- What a thread does next. -/
def threadStep (s : TreeRun n M) : TreeActor n → Option (TreeRun n M)
  | .main => s.stepMain
  | .node i => s.stepNode tr input i

/-- One step of the process, which is there until `main` returns. -/
def step (s : TreeRun n M) (a : TreeActor n) : Option (TreeRun n M) :=
  if s.main = .returned then none else s.threadStep tr input a

end TreeRun

/-- The thread has called `foothread_exit`. -/
def TreePc.calledExit {M : Type} : TreePc M → Bool
  | .exit _ => true
  | _ => false

/-- Between `foothread_mutex_lock(&csmtx)` and `foothread_mutex_unlock(&csmtx)`. -/
def TreePc.inCS {M : Type} : TreePc M → Bool
  | .scan | .load _ | .store _ _ | .printPartial | .printRoot | .unlock => true
  | _ => false

namespace TreeRun

variable {n : Nat} {M : Type} [Add M] (tr : TreeFile n) (input : Fin n → M)

/-- A node has not called `foothread_exit`, and no thread can go on from where it is; that the process is gone blocks
nobody. -/
def Deadlocked (s : TreeRun n M) : Prop := (∃ i, (s.pc i).calledExit = false) ∧ ∀ a, s.threadStep tr input a = none

variable {tr input} in
theorem threadStep_of_step {s s' : TreeRun n M} {a : TreeActor n} (h : s.step tr input a = some s') :
    s.threadStep tr input a = some s' := by
  unfold step at h
  split at h
  · cases h
  · exact h

variable {tr input} in
/-- Nothing goes on when `main` has returned, or when all threads are blocked. -/
theorem returned_or_blocked {s : TreeRun n M} (h : ∀ a, s.step tr input a = none) :
    s.main = .returned ∨ ∀ a, s.threadStep tr input a = none := by
  refine or_iff_not_imp_left.2 fun hmain a => ?_
  have ha := h a
  rwa [step, if_neg hmain] at ha

/-- What a step can do. -/
inductive Move (s : TreeRun n M) : TreeRun n M → Prop
  | create (k : Nat) (p p' : CreatePc) (sh : Shared) : s.main = .create k p → p ≠ .clone →
      foothreadCreate .joinable s.sh p = some (sh, some p') → Move s { s with sh := sh, main := .create k p' }
  | clone (k : Nat) (h : k < n) : s.main = .create k .clone →
      Move s { s.goto ⟨k, h⟩ (.own .lock) with main := .create k .unlock }
  | created (k : Nat) (p : CreatePc) (sh : Shared) : s.main = .create k p → p ≠ .clone →
      foothreadCreate .joinable s.sh p = some (sh, none) → Move s { s with sh := sh, main := mainAt n (k + 1) }
  | mainExit (p p' : ExitPc) (sh : Shared) : s.main = .exit p → foothreadExit s.sh p = some (sh, p') →
      Move s { s with sh := sh, main := if p' = .done then .destroyMutex else .exit p' }
  | destroyMutex : s.main = .destroyMutex → Move s { s with csmtx := .removed, main := .destroyBarrier 0 }
  | destroyBarrier (k : Fin n) : s.main = .destroyBarrier k →
      Move s { s.setBarrier k (s.barrier k).destroy with main := .destroyBarrier (k + 1) }
  | returned (k : Nat) : s.main = .destroyBarrier k → n ≤ k → Move s { s with main := .returned }
  | own (i : Fin n) (p : WaitPc) (b : AtomicBarrier (Fin n)) (p' : Option WaitPc) : s.pc i = .own p →
      (s.barrier i).exec i p = some (b, p') → Move s ((s.setBarrier i b).goto i (p'.elim .lock .own))
  | lock (i : Fin n) (m : AtomicMutex (Fin n)) (p : TreePc M) : s.pc i = .lock → s.csmtx.lock i = some m →
      p.inCS = true → Move s ({ s with csmtx := m }.goto i p)
  | work (i : Fin n) (sum : Fin n → M) (out : List (Line n M)) (p : TreePc M) : (s.pc i).inCS = true → p.inCS = true →
      Move s ({ s with sum := sum, out := out }.goto i p)
  | unlock (i : Fin n) : s.pc i = .unlock → Move s ({ s with csmtx := s.csmtx.unlock i }.goto i (.parent .lock))
  | parent (i q : Fin n) (p : WaitPc) (b : AtomicBarrier (Fin n)) (p' : Option WaitPc) : s.pc i = .parent p →
      tr.P i = some q → (s.barrier q).exec i p = some (b, p') →
      Move s ((s.setBarrier q b).goto i (p'.elim (.exit .checkMtx) .parent))
  | exit (i : Fin n) (p p' : ExitPc) (sh : Shared) : s.pc i = .exit p → foothreadExit s.sh p = some (sh, p') →
      Move s ({ s with sh := sh }.goto i (.exit p'))

theorem move_of_step {s s' : TreeRun n M} {a : TreeActor n} (hmain : ∀ k p, s.main = .create k p → k < n)
    (h : s.threadStep tr input a = some s') : Move tr s s' := by
  cases a with
  | main =>
    cases hpc : s.main <;> simp only [threadStep, stepMain, hpc] at h
    case create k p =>
      obtain ⟨⟨sh, p'⟩, hsh, rfl⟩ := Option.map_eq_some_iff.1 h
      have hk := hmain k p hpc
      by_cases hp : p = .clone
      · subst hp
        cases hsh
        simp only [TreeRun.clone, hk, dite_true, if_true]
        exact .clone k hk hpc
      · simp only [hp, if_false]
        cases p' with
        | some p' => exact .create k p p' sh hpc hp hsh
        | none => exact .created k p sh hpc hp hsh
    case exit p =>
      obtain ⟨⟨sh, p'⟩, hsh, rfl⟩ := Option.map_eq_some_iff.1 h
      exact .mainExit p p' sh hpc hsh
    case destroyMutex => cases h; exact .destroyMutex hpc
    case destroyBarrier k =>
      split at h
      · rename_i hk
        cases h
        exact .destroyBarrier ⟨k, hk⟩ hpc
      · cases h
        exact .returned k hpc (by omega)
    case returned => cases h
  | node i =>
    cases hpc : s.pc i <;> simp only [threadStep, stepNode, hpc] at h
    case unborn => cases h
    case own p =>
      obtain ⟨⟨b, p'⟩, hb, rfl⟩ := Option.map_eq_some_iff.1 h
      exact .own i p b p' hpc hb
    case lock =>
      obtain ⟨m, hm, rfl⟩ := Option.map_eq_some_iff.1 h
      exact .lock i m _ hpc hm (by split_ifs <;> rfl)
    case scan => cases h; exact .work i _ _ _ (by rw [hpc]; rfl) rfl
    case load j =>
      split at h
      · split at h <;> cases h <;> exact .work i s.sum s.out _ (by rw [hpc]; rfl) rfl
      · cases h
        exact .work i s.sum s.out _ (by rw [hpc]; rfl) rfl
    case store j v => cases h; exact .work i _ s.out _ (by rw [hpc]; rfl) rfl
    case printPartial => cases h; exact .work i s.sum _ _ (by rw [hpc]; rfl) (by split_ifs <;> rfl)
    case printRoot => cases h; exact .work i s.sum _ _ (by rw [hpc]; rfl) rfl
    case unlock => cases h; exact .unlock i hpc
    case parent p =>
      obtain ⟨q, hq, h⟩ := Option.bind_eq_some_iff.1 h
      obtain ⟨⟨b, p'⟩, hb, rfl⟩ := Option.map_eq_some_iff.1 h
      exact .parent i q p b p' hpc hq hb
    case exit p =>
      obtain ⟨⟨sh, p'⟩, hsh, rfl⟩ := Option.map_eq_some_iff.1 h
      exact .exit i p p' sh hpc hsh

end TreeRun

end OsLab.A7
