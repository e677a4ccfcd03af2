import OsLab.Lib.Precedence
import OsLab.Lib.Trans

/-!
# The workers of the topological sort (A5/worker.c, A5/boss.c)

| here | there |
| --- | --- |
| `A i j`                        | the entry `A[i*n+j]` of the shared matrix; an edge is an entry 1 |
| `Workers.sync`                 | the semaphore set `syncid`, one value for each index of the set |
| `Workers.mtx`, `.ntfy`, `.T`, `.idx` | the semaphores and the shared memory of the same names |
| `semNum`                       | `pop.sem_num = vop.sem_num = 0` (worker.c:48): the index every `semop` addresses |
| `Workers.init`                 | the set-up by `boss` (boss.c:45-59); `T` holds whatever the segment held |
| `Workers.exec`                 | the statements of a worker (worker.c:61-78) |
| `Workers.boss`                 | how many of its `n` `P(ntfy)` (boss.c:76) the boss has passed |

Each semaphore operation and each statement of the critical section is one step. Semaphore values are
unbounded.
-/

namespace OsLab.A5

open Function (update)

/-- The statement a worker is about to execute; `wait j` and `post j` are at the head of the loops
with that index. -/
inductive WorkerPc
  | wait (j : Nat)
  | lock | store | incr | unlock
  | ntfy
  | post (j : Nat)
  | done
deriving DecidableEq, Repr

structure Workers (n : Nat) where
  sync : Nat → Nat
  mtx : Nat
  ntfy : Nat
  T : Nat → Nat
  idx : Nat
  pc : Fin n → WorkerPc
  boss : Nat

inductive Actor (n : Nat)
  | worker (i : Fin n) | boss
deriving DecidableEq, Repr

/-- `A[i*n+j] == 1`. -/
def Edge {n : Nat} (A : Fin n → Fin n → Int) (i j : Fin n) : Prop := A i j = 1

instance {n : Nat} (A : Fin n → Fin n → Int) : DecidableRel (Edge A) :=
  fun i j => inferInstanceAs (Decidable (A i j = 1))

/-- The loop over column `i` (worker.c:55). -/
def indegree {n : Nat} (A : Fin n → Fin n → Int) (i : Fin n) : Nat :=
  (List.finRange n).countP fun j => A j i = 1

/-- `pop.sem_num = vop.sem_num = 0` (worker.c:48). -/
def semNum : Nat := 0

namespace Workers

variable {n : Nat}

def init (T0 : Nat → Nat) : Workers n where
  sync _ := 0
  mtx := 1
  ntfy := 0
  T := T0
  idx := 0
  pc _ := .wait 0
  boss := 0

def goto (s : Workers n) (i : Fin n) (p : WorkerPc) : Workers n := { s with pc := update s.pc i p }

/-- `V(syncid)`. -/
def syncV (s : Workers n) : Workers n := { s with sync := update s.sync semNum (s.sync semNum + 1) }

/-- `P(syncid)`. -/
def syncP (s : Workers n) : Option (Workers n) :=
  if 0 < s.sync semNum then some { s with sync := update s.sync semNum (s.sync semNum - 1) } else none

variable (A : Fin n → Fin n → Int)

/-- One step of worker `i`. -/
def exec (s : Workers n) (i : Fin n) : WorkerPc → Option (Workers n)
  | .wait j =>
    if j < indegree A i then s.syncP.map (·.goto i (.wait (j + 1))) else some (s.goto i .lock)
  | .lock => if 0 < s.mtx then some ({ s with mtx := s.mtx - 1 }.goto i .store) else none
  | .store => some ({ s with T := update s.T s.idx i }.goto i .incr)
  | .incr => some ({ s with idx := s.idx + 1 }.goto i .unlock)
  | .unlock => some ({ s with mtx := s.mtx + 1 }.goto i .ntfy)
  | .ntfy => some ({ s with ntfy := s.ntfy + 1 }.goto i (.post 0))
  | .post j =>
    if h : j < n then some ((if A i ⟨j, h⟩ = 1 then s.syncV else s).goto i (.post (j + 1)))
    else some (s.goto i .done)
  | .done => none

def step (s : Workers n) : Actor n → Option (Workers n)
  | .worker i => s.exec A i (s.pc i)
  | .boss => if s.boss < n ∧ 0 < s.ntfy then some { s with ntfy := s.ntfy - 1, boss := s.boss + 1 } else none

theorem goto_pc (s : Workers n) (i j : Fin n) (p) : (s.goto i p).pc j = if j = i then p else s.pc j := by
  simp [goto, Function.update_apply]
@[simp] theorem goto_pc_same (s : Workers n) (i : Fin n) (p) : (s.goto i p).pc i = p := by simp [goto]

theorem step_worker {s : Workers n} {i : Fin n} {p : WorkerPc} (h : s.pc i = p) :
    s.step A (.worker i) = s.exec A i p := by rw [step, h]

/-- What a step can do. -/
inductive Move (s : Workers n) : Actor n → Workers n → Prop
  | take (i j) : s.pc i = .wait j → j < indegree A i → 0 < s.sync semNum →
      Move s (.worker i) ({ s with sync := update s.sync semNum (s.sync semNum - 1) }.goto i (.wait (j + 1)))
  | taken (i j) : s.pc i = .wait j → ¬ j < indegree A i → Move s (.worker i) (s.goto i .lock)
  | lock (i) : s.pc i = .lock → 0 < s.mtx → Move s (.worker i) ({ s with mtx := s.mtx - 1 }.goto i .store)
  | store (i) : s.pc i = .store → Move s (.worker i) ({ s with T := update s.T s.idx i }.goto i .incr)
  | incr (i) : s.pc i = .incr → Move s (.worker i) ({ s with idx := s.idx + 1 }.goto i .unlock)
  | unlock (i) : s.pc i = .unlock → Move s (.worker i) ({ s with mtx := s.mtx + 1 }.goto i .ntfy)
  | ntfy (i) : s.pc i = .ntfy → Move s (.worker i) ({ s with ntfy := s.ntfy + 1 }.goto i (.post 0))
  | post (i j : Fin n) : s.pc i = .post j → Edge A i j → Move s (.worker i) (s.syncV.goto i (.post (j + 1)))
  | skip (i j : Fin n) : s.pc i = .post j → ¬ Edge A i j → Move s (.worker i) (s.goto i (.post (j + 1)))
  | posted (i j) : s.pc i = .post j → n ≤ j → Move s (.worker i) (s.goto i .done)
  | boss : Move s .boss { s with ntfy := s.ntfy - 1, boss := s.boss + 1 }

theorem move_of_step {s s' : Workers n} {a : Actor n} (h : s.step A a = some s') : Move A s a s' := by
  cases a with
  | boss =>
    simp only [step, Option.ite_none_right_eq_some, Option.some.injEq] at h
    obtain ⟨-, rfl⟩ := h
    exact .boss
  | worker i =>
    cases hpc : s.pc i <;> simp only [step, hpc, exec] at h
    case wait j =>
      split at h
      · rename_i hj
        unfold syncP at h
        split at h <;> cases h
        exact .take i j hpc hj (by assumption)
      · cases h; exact .taken i j hpc (by assumption)
    case lock =>
      split at h <;> cases h
      exact .lock i hpc (by assumption)
    case store => cases h; exact .store i hpc
    case incr => cases h; exact .incr i hpc
    case unlock => cases h; exact .unlock i hpc
    case ntfy => cases h; exact .ntfy i hpc
    case post j =>
      split at h
      · rename_i hj
        cases h
        split
        · exact .post i ⟨j, hj⟩ hpc (by assumption)
        · exact .skip i ⟨j, hj⟩ hpc (by assumption)
      · cases h; exact .posted i j hpc (by omega)
    case done => cases h

end Workers

/-! ## What the loops count -/

section
variable {n : Nat} (A : Fin n → Fin n → Int)

theorem indegree_eq (i : Fin n) : indegree A i = Precedence.indegree (Edge A) i := by
  have hset : Finset.univ.filter (Edge A · i) = ((List.finRange n).filter fun j => A j i = 1).toFinset := by
    ext j
    rw [List.mem_toFinset, List.mem_filter, Finset.mem_filter]
    simp [Edge]
  rw [indegree, Precedence.indegree, hset, List.toFinset_card_of_nodup ((List.nodup_finRange n).filter _),
    List.countP_eq_length_filter]

/-- The successors of `i` that the loop of worker.c:74 has passed at index `j`. -/
def succBelow (i : Fin n) (j : Nat) : Nat := (Finset.univ.filter fun k => Edge A i k ∧ k.val < j).card

theorem succBelow_zero (i : Fin n) : succBelow A i 0 = 0 := by simp [succBelow]

theorem succBelow_edge {i j : Fin n} (h : Edge A i j) : succBelow A i (j + 1) = succBelow A i j + 1 := by
  have hset : (Finset.univ.filter fun k => Edge A i k ∧ k.val < j.val + 1) =
      insert j (Finset.univ.filter fun k => Edge A i k ∧ k.val < j.val) := by
    ext k
    simp only [Finset.mem_filter, Finset.mem_univ, true_and, Finset.mem_insert, Fin.ext_iff]
    constructor
    · rintro ⟨he, hlt⟩
      by_cases e : k.val = j.val
      · exact .inl e
      · exact .inr ⟨he, by omega⟩
    · rintro (e | ⟨he, hlt⟩)
      · rw [Fin.ext e]; exact ⟨h, by omega⟩
      · exact ⟨he, by omega⟩
  rw [succBelow, hset, Finset.card_insert_of_notMem (by simp), succBelow]

theorem succBelow_skip {i j : Fin n} (h : ¬ Edge A i j) : succBelow A i (j + 1) = succBelow A i j := by
  unfold succBelow
  congr 1
  refine Finset.filter_congr fun k _ => and_congr_right fun he => ?_
  have hne : k.val ≠ j.val := fun e => h (Fin.ext e ▸ he)
  omega

theorem succBelow_le (i : Fin n) (j : Nat) : succBelow A i j ≤ Precedence.outdegree (Edge A) i :=
  Finset.card_le_card fun k hk => by
    rw [Finset.mem_filter] at hk ⊢
    exact ⟨hk.1, hk.2.1⟩

theorem succBelow_all (i : Fin n) {j : Nat} (hj : n ≤ j) : succBelow A i j = Precedence.outdegree (Edge A) i := by
  unfold succBelow Precedence.outdegree
  congr 1
  refine Finset.filter_congr fun k _ => and_iff_left ?_
  omega

end

end OsLab.A5
