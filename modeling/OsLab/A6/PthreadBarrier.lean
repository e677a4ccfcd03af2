import Mathlib.Data.Fintype.Card
import Mathlib.Data.Fintype.EquivFin
import OsLab.Lib.Trans

/-!
# The session's own barrier (A6/session.c:15-58)

| here | there |
| --- | --- |
| `PthreadBarrier.init`  | `pthread_barrier_init` (:15) with the count it is given |
| `WaitPc`, `exec`       | the statements of `pthread_barrier_wait` (:41) |
| `owner`, `WaitPc.blocked` | the mutex, and who is blocked on `cond` |
| `BarrierOp.wake`       | `pthread_cond_wait` unblocks without a broadcast, as POSIX permits |

`pthread_cond_wait` is one step that gives the mutex back and blocks, and, once woken, a wait for the
mutex. `entered` and `returned` count each thread's calls.

A waiter that wakes up does not look at anything again (`if` at :45, not `while`), so a spurious
wake-up lets it through before the others have arrived. Without one the rounds stay apart, for any
number of threads and calls: a broadcast wakes exactly the waiters of its round, and none of the next
round can have joined them, because the thread that trips the barrier holds the mutex.
-/

namespace OsLab.A6

open Function (update)
open Trans (Reach ReachIf)

/-- The statement a thread is about to execute inside `pthread_barrier_wait`. -/
inductive WaitPc
  | lock
  /-- `++(barrier->count)` -/
  | incr
  | test
  | reset
  | broadcast
  /-- `pthread_mutex_unlock; return 1` -/
  | unlockTrip
  /-- About to call `pthread_cond_wait`. -/
  | wait
  | blocked
  /-- Woken, on the way back into the mutex. -/
  | relock
  /-- `pthread_mutex_unlock; return 0` -/
  | unlock
deriving DecidableEq, Repr

structure PthreadBarrier (ι : Type) where
  owner : Option ι
  count : Nat
  tripCount : Nat
  /-- `none`: outside `pthread_barrier_wait`. -/
  pc : ι → Option WaitPc
  entered : ι → Nat
  returned : ι → Nat

inductive BarrierOp (ι : Type)
  | enter (i : ι) | step (i : ι) | wake (i : ι)
deriving DecidableEq, Repr

namespace PthreadBarrier

variable {ι : Type}

def init (count : Nat) : PthreadBarrier ι := ⟨none, 0, count, fun _ => none, fun _ => 0, fun _ => 0⟩

/-- `pthread_cond_broadcast`: who is blocked now is on its way back. -/
def wakeAll (b : PthreadBarrier ι) : PthreadBarrier ι :=
  { b with pc := fun j => if b.pc j = some .blocked then some .relock else b.pc j }

variable [DecidableEq ι]

def goto (b : PthreadBarrier ι) (i : ι) (p : WaitPc) : PthreadBarrier ι := { b with pc := update b.pc i (some p) }

/-- `pthread_mutex_unlock` and out of `pthread_barrier_wait`. -/
def ret (b : PthreadBarrier ι) (i : ι) : PthreadBarrier ι :=
  { b with owner := none, pc := update b.pc i none, returned := update b.returned i (b.returned i + 1) }

/-- `pthread_mutex_lock`: blocks while another thread has the mutex. -/
def acquire (b : PthreadBarrier ι) (i : ι) (p : WaitPc) : Option (PthreadBarrier ι) :=
  if b.owner = none then some ({ b with owner := some i }.goto i p) else none

/-- One step of `pthread_barrier_wait` (:41) by thread `i`. -/
def exec (b : PthreadBarrier ι) (i : ι) : WaitPc → Option (PthreadBarrier ι)
  | .lock => b.acquire i .incr
  | .incr => some ({ b with count := b.count + 1 }.goto i .test)
  | .test => some (if b.count ≥ b.tripCount then b.goto i .reset else b.goto i .wait)
  | .reset => some ({ b with count := 0 }.goto i .broadcast)
  | .broadcast => some (b.wakeAll.goto i .unlockTrip)
  | .unlockTrip => some (b.ret i)
  | .wait => some ({ b with owner := none }.goto i .blocked)
  | .blocked => none
  | .relock => b.acquire i .unlock
  | .unlock => some (b.ret i)

def step (b : PthreadBarrier ι) : BarrierOp ι → Option (PthreadBarrier ι)
  | .enter i =>
    if b.pc i = none then some ({ b with entered := update b.entered i (b.entered i + 1) }.goto i .lock) else none
  | .step i => (b.pc i).bind (b.exec i)
  | .wake i => if b.pc i = some .blocked then some (b.goto i .relock) else none

@[simp] theorem goto_pc_same (b : PthreadBarrier ι) (i : ι) (p : WaitPc) : (b.goto i p).pc i = some p := by simp [goto]

theorem goto_pc (b : PthreadBarrier ι) (i j : ι) (p : WaitPc) :
    (b.goto i p).pc j = if j = i then some p else b.pc j := by
  simp [goto, Function.update_apply]

inductive Move (b : PthreadBarrier ι) : BarrierOp ι → PthreadBarrier ι → Prop
  | enter (i) : b.pc i = none →
      Move b (.enter i) ({ b with entered := update b.entered i (b.entered i + 1) }.goto i .lock)
  | lock (i) : b.pc i = some .lock → b.owner = none → Move b (.step i) ({ b with owner := some i }.goto i .incr)
  | incr (i) : b.pc i = some .incr → Move b (.step i) ({ b with count := b.count + 1 }.goto i .test)
  | trip (i) : b.pc i = some .test → b.tripCount ≤ b.count → Move b (.step i) (b.goto i .reset)
  | noTrip (i) : b.pc i = some .test → b.count < b.tripCount → Move b (.step i) (b.goto i .wait)
  | reset (i) : b.pc i = some .reset → Move b (.step i) ({ b with count := 0 }.goto i .broadcast)
  | broadcast (i) : b.pc i = some .broadcast → Move b (.step i) (b.wakeAll.goto i .unlockTrip)
  | wait (i) : b.pc i = some .wait → Move b (.step i) ({ b with owner := none }.goto i .blocked)
  | relock (i) : b.pc i = some .relock → b.owner = none → Move b (.step i) ({ b with owner := some i }.goto i .unlock)
  | ret (i) : b.pc i = some .unlockTrip ∨ b.pc i = some .unlock → Move b (.step i) (b.ret i)
  | wake (i) : b.pc i = some .blocked → Move b (.wake i) (b.goto i .relock)

theorem move_of_step {b b' : PthreadBarrier ι} {op : BarrierOp ι} (h : b.step op = some b') : Move b op b' := by
  cases op with
  | enter i =>
    simp only [step, Option.ite_none_right_eq_some, Option.some.injEq] at h
    obtain ⟨hpc, rfl⟩ := h
    exact .enter i hpc
  | step i =>
    simp only [step, Option.bind_eq_some_iff] at h
    obtain ⟨p, hpc, h⟩ := h
    cases p with
    | lock =>
      simp only [exec, acquire, Option.ite_none_right_eq_some, Option.some.injEq] at h
      obtain ⟨ho, rfl⟩ := h
      exact .lock i hpc ho
    | relock =>
      simp only [exec, acquire, Option.ite_none_right_eq_some, Option.some.injEq] at h
      obtain ⟨ho, rfl⟩ := h
      exact .relock i hpc ho
    | test =>
      simp only [exec, Option.some.injEq] at h
      split at h <;> subst h
      · exact .trip i hpc ‹_›
      · exact .noTrip i hpc (not_le.1 ‹_›)
    | blocked => cases h
    | incr => cases h; exact .incr i hpc
    | reset => cases h; exact .reset i hpc
    | broadcast => cases h; exact .broadcast i hpc
    | unlockTrip => cases h; exact .ret i (.inl hpc)
    | wait => cases h; exact .wait i hpc
    | unlock => cases h; exact .ret i (.inr hpc)
  | wake i =>
    simp only [step, Option.ite_none_right_eq_some, Option.some.injEq] at h
    obtain ⟨hpc, rfl⟩ := h
    exact .wake i hpc

end PthreadBarrier

/-! ## Where a thread is in its round -/

/-- The thread has the mutex. -/
def holds : Option WaitPc → Bool
  | none | some .lock | some .blocked | some .relock => false
  | some .incr | some .test | some .reset | some .broadcast | some .unlockTrip | some .wait | some .unlock => true

/-- The thread is counted in the round that has not tripped yet. -/
def arrived : Option WaitPc → Bool
  | none | some .lock | some .incr | some .unlockTrip | some .relock | some .unlock => false
  | some .test | some .reset | some .broadcast | some .wait | some .blocked => true

/-- The round of the thread's call has tripped. -/
def leaving : Option WaitPc → Bool
  | none | some .lock | some .incr | some .test | some .reset | some .broadcast | some .wait | some .blocked => false
  | some .unlockTrip | some .relock | some .unlock => true

/-- The calls entered and not tripped yet. -/
def pending (p : Option WaitPc) : Nat := if p = none ∨ leaving p then 0 else 1

/-- The calls tripped and not returned from yet. -/
def exiting (p : Option WaitPc) : Nat := if leaving p then 1 else 0

namespace PthreadBarrier

variable {ι : Type} [Fintype ι] {b b' : PthreadBarrier ι} {R : Nat} {i : ι}

/-- `R` rounds have tripped: every thread has returned from them or is on its way out of the last, and
`count` counts who has arrived for the next. -/
structure Rounds (R : Nat) (b : PthreadBarrier ι) : Prop where
  tripCount : b.tripCount = Fintype.card ι
  owner : ∀ i, b.owner = some i ↔ holds (b.pc i) = true
  entered : ∀ i, b.entered i = R + pending (b.pc i)
  returned : ∀ i, b.returned i + exiting (b.pc i) = R
  count : (∀ i, b.pc i ≠ some .broadcast) → b.count = (Finset.univ.filter fun i => arrived (b.pc i)).card
  full : ∀ i, b.pc i = some .reset ∨ b.pc i = some .broadcast → ∀ j, arrived (b.pc j) = true
  zero : ∀ i, b.pc i = some .broadcast → b.count = 0

namespace Rounds

theorem init : Rounds 0 (PthreadBarrier.init (Fintype.card ι) : PthreadBarrier ι) := by
  constructor <;> simp [PthreadBarrier.init, holds, arrived, leaving, pending, exiting]

/-- The mutex excludes. -/
theorem holds_unique (B : Rounds R b) {i j : ι} (hi : holds (b.pc i) = true) (hj : holds (b.pc j) = true) : i = j := by
  have h1 := (B.owner i).2 hi
  have h2 := (B.owner j).2 hj
  exact Option.some.inj (h1.symm.trans h2)

/-- At a broadcast everybody else is blocked. -/
theorem blocked_of_broadcast (B : Rounds R b) (hpc : b.pc i = some .broadcast) {j : ι} (hj : j ≠ i) :
    b.pc j = some .blocked := by
  have harr := B.full i (.inr hpc) j
  have hnot : holds (b.pc j) ≠ true := fun h => hj (B.holds_unique h (by simp [hpc, holds]))
  rcases hp : b.pc j with _ | p
  · simp [hp, arrived] at harr
  · cases p <;> simp_all [arrived, holds]

variable [DecidableEq ι]

omit [Fintype ι] in
theorem owner_keep (h : ∀ j, b.owner = some j ↔ holds (b.pc j) = true) {q : Option WaitPc}
    (hq : holds q = holds (b.pc i)) (ho : b'.owner = b.owner) (hpc : b'.pc = update b.pc i q) (j : ι) :
    b'.owner = some j ↔ holds (b'.pc j) = true := by
  rw [ho, hpc, h j]
  by_cases e : j = i
  · simp [e, hq]
  · simp [e]

omit [Fintype ι] in
theorem owner_acquire (h : ∀ j, b.owner = some j ↔ holds (b.pc j) = true) {q : Option WaitPc} (hfree : b.owner = none)
    (hq : holds q = true) (ho : b'.owner = some i) (hpc : b'.pc = update b.pc i q) (j : ι) :
    b'.owner = some j ↔ holds (b'.pc j) = true := by
  rw [ho, hpc]
  by_cases e : j = i
  · simp [e, hq]
  · have := h j
    simp only [hfree, reduceCtorEq, false_iff] at this
    simp [e, this, Ne.symm e]

omit [Fintype ι] in
theorem owner_release (h : ∀ j, b.owner = some j ↔ holds (b.pc j) = true) {q : Option WaitPc}
    (hi : holds (b.pc i) = true) (hq : holds q = false) (ho : b'.owner = none) (hpc : b'.pc = update b.pc i q) (j : ι) :
    b'.owner = some j ↔ holds (b'.pc j) = true := by
  rw [ho, hpc]
  by_cases e : j = i
  · simp [e, hq]
  · have := h j
    rw [(h i).2 hi] at this
    simp only [Option.some.injEq, Ne.symm e, false_iff] at this
    simp [e, this]

/-- A step of thread `i` alone that does not change who has arrived. -/
theorem setPc (B : Rounds R b) (q : Option WaitPc) (hpc : b'.pc = update b.pc i q) (htc : b'.tripCount = b.tripCount)
    (hcount : b'.count = b.count) (harr : arrived q = arrived (b.pc i)) (hold : b.pc i ≠ some .broadcast)
    (hreset : q ≠ some .reset) (hbroadcast : q ≠ some .broadcast)
    (howner : ∀ j, b'.owner = some j ↔ holds (b'.pc j) = true)
    (hent : b'.entered i + pending (b.pc i) = b.entered i + pending q)
    (hret : b'.returned i + exiting q = b.returned i + exiting (b.pc i))
    (hcalls : ∀ j, j ≠ i → b'.entered j = b.entered j ∧ b'.returned j = b.returned j) : Rounds R b' := by
  have hsame : ∀ j, arrived (b'.pc j) = arrived (b.pc j) := by
    intro j
    by_cases e : j = i
    · simp [e, hpc, harr]
    · simp [e, hpc]
  have hother : ∀ j, b'.pc j = some .reset ∨ b'.pc j = some .broadcast → j ≠ i ∧ b'.pc j = b.pc j := by
    intro j hj
    by_cases e : j = i
    · subst e
      simp [hpc, hreset, hbroadcast] at hj
    · exact ⟨e, by simp [hpc, e]⟩
  constructor
  · rw [htc]; exact B.tripCount
  · exact howner
  · intro j
    by_cases e : j = i
    · have := B.entered i
      simp only [e, hpc, Function.update_self]
      omega
    · simpa [e, (hcalls j e).1, hpc] using B.entered j
  · intro j
    by_cases e : j = i
    · simpa [e, hpc, hret] using B.returned i
    · simpa [e, (hcalls j e).2, hpc] using B.returned j
  · intro hno
    simp only [hcount, hsame]
    refine B.count fun j => ?_
    by_cases e : j = i
    · exact e ▸ hold
    · simpa [e, hpc] using hno j
  · intro j hj k
    obtain ⟨-, he⟩ := hother j hj
    rw [he] at hj
    rw [hsame]
    exact B.full j hj k
  · intro j hj
    obtain ⟨-, he⟩ := hother j (.inr hj)
    rw [hcount]
    exact B.zero j (he ▸ hj)

/-- `++(barrier->count)`: one more has arrived. -/
theorem incr (B : Rounds R b) (hpc : b.pc i = some .incr) : Rounds R ({ b with count := b.count + 1 }.goto i .test) := by
  have hno : ∀ j, b.pc j ≠ some .reset ∧ b.pc j ≠ some .broadcast := by
    intro j
    constructor
    all_goals
      intro e
      obtain rfl := B.holds_unique (i := i) (j := j) (by simp [hpc, holds]) (by simp [e, holds])
      simp [hpc] at e
  have harrived : (Finset.univ.filter fun j => arrived (({ b with count := b.count + 1 }.goto i .test).pc j)) =
      insert i (Finset.univ.filter fun j => arrived (b.pc j)) := by
    ext j
    simp only [Finset.mem_filter, Finset.mem_univ, true_and, Finset.mem_insert, goto_pc]
    by_cases e : j = i
    · simp [e, arrived]
    · simp [e]
  have hnotMem : i ∉ Finset.univ.filter fun j => arrived (b.pc j) := by
    rw [Finset.mem_filter, hpc]
    simp [arrived]
  have hnew : ∀ j, ({ b with count := b.count + 1 }.goto i .test).pc j ≠ some .reset ∧
      ({ b with count := b.count + 1 }.goto i .test).pc j ≠ some .broadcast := by
    intro j
    by_cases e : j = i
    · simp [e]
    · simpa [e, goto_pc] using hno j
  constructor
  · exact B.tripCount
  · exact owner_keep B.owner (by simp [hpc, holds]) rfl rfl
  · intro j
    by_cases e : j = i
    · simpa [e, goto, hpc, pending, leaving] using B.entered i
    · simpa [e, goto] using B.entered j
  · intro j
    by_cases e : j = i
    · simpa [e, goto, hpc, leaving, exiting] using B.returned i
    · simpa [e, goto] using B.returned j
  · intro _
    rw [harrived, Finset.card_insert_of_notMem hnotMem, ← B.count fun j => (hno j).2]
    rfl
  · intro j hj
    rcases hj with hj | hj
    · exact absurd hj (hnew j).1
    · exact absurd hj (hnew j).2
  · intro j hj
    exact absurd hj (hnew j).2

/-- The count has reached `tripCount`: everybody has arrived. -/
theorem trip (B : Rounds R b) (hpc : b.pc i = some .test) (hc : b.tripCount ≤ b.count) : Rounds R (b.goto i .reset) := by
  have hno : ∀ j, b.pc j ≠ some .broadcast := by
    intro j e
    obtain rfl := B.holds_unique (i := i) (j := j) (by simp [hpc, holds]) (by simp [e, holds])
    simp [hpc] at e
  have hall : ∀ j, arrived (b.pc j) = true := by
    have hcard : (Finset.univ.filter fun j => arrived (b.pc j)) = Finset.univ := by
      refine Finset.eq_univ_of_card _ (le_antisymm (Finset.card_le_univ _) ?_)
      rw [← B.count hno, ← B.tripCount]
      exact hc
    intro j
    exact (Finset.filter_eq_self.1 hcard) j (Finset.mem_univ j)
  have hall' : ∀ j, arrived ((b.goto i .reset).pc j) = true := by
    intro j
    by_cases e : j = i
    · simp [e, arrived]
    · simpa [e, goto_pc] using hall j
  have hno' : ∀ j, (b.goto i .reset).pc j ≠ some .broadcast := by
    intro j
    by_cases e : j = i
    · simp [e]
    · simpa [e, goto_pc] using hno j
  constructor
  · exact B.tripCount
  · exact owner_keep B.owner (by simp [hpc, holds]) rfl rfl
  · intro j
    by_cases e : j = i
    · simpa [e, goto, hpc, pending, leaving] using B.entered i
    · simpa [e, goto] using B.entered j
  · intro j
    by_cases e : j = i
    · simpa [e, goto, hpc, leaving, exiting] using B.returned i
    · simpa [e, goto] using B.returned j
  · intro _
    rw [show (b.goto i .reset).count = b.count from rfl, B.count hno]
    simp only [hall, hall']
  · intro j _
    exact hall'
  · intro j hj
    exact absurd hj (hno' j)

theorem reset (B : Rounds R b) (hpc : b.pc i = some .reset) : Rounds R ({ b with count := 0 }.goto i .broadcast) := by
  constructor
  · exact B.tripCount
  · exact owner_keep B.owner (by simp [hpc, holds]) rfl rfl
  · intro j
    by_cases e : j = i
    · simpa [e, goto, hpc, pending, leaving] using B.entered i
    · simpa [e, goto] using B.entered j
  · intro j
    by_cases e : j = i
    · simpa [e, goto, hpc, leaving, exiting] using B.returned i
    · simpa [e, goto] using B.returned j
  · intro hno
    exact absurd (goto_pc_same _ _ _) (hno i)
  · intro _ _ j
    by_cases e : j = i
    · simp [e, arrived]
    · simpa [e, goto_pc] using B.full i (.inl hpc) j
  · intro _ _
    rfl

/-- The broadcast ends the round: everybody is on the way out of it. -/
theorem broadcast (B : Rounds R b) (hpc : b.pc i = some .broadcast) :
    Rounds (R + 1) (b.wakeAll.goto i .unlockTrip) := by
  have hnew : ∀ j, (b.wakeAll.goto i .unlockTrip).pc j = if j = i then some .unlockTrip else some .relock := by
    intro j
    by_cases e : j = i
    · simp [e]
    · simp [e, goto_pc, wakeAll, B.blocked_of_broadcast hpc e]
  constructor
  · exact B.tripCount
  · intro j
    have h := B.owner j
    rw [hnew]
    by_cases e : j = i
    · simpa [e, goto, wakeAll, hpc, holds] using B.owner i
    · rw [B.blocked_of_broadcast hpc e] at h
      simpa [e, goto, wakeAll, holds] using h
  · intro j
    have h := B.entered j
    rw [hnew]
    by_cases e : j = i
    · simpa [e, goto, wakeAll, hpc, pending, leaving] using B.entered i
    · rw [B.blocked_of_broadcast hpc e] at h
      simpa [e, goto, wakeAll, pending, leaving] using h
  · intro j
    have h := B.returned j
    rw [hnew]
    by_cases e : j = i
    · simpa [e, goto, wakeAll, hpc, leaving, exiting] using B.returned i
    · rw [B.blocked_of_broadcast hpc e] at h
      simpa [e, goto, wakeAll, leaving, exiting] using h
  · intro _
    have hnone : ∀ j, arrived ((b.wakeAll.goto i .unlockTrip).pc j) = false := by
      intro j
      rw [hnew]
      split <;> rfl
    simp only [hnone, Bool.false_eq_true, Finset.filter_false, Finset.card_empty]
    exact B.zero i hpc
  · intro j hj
    rw [hnew] at hj
    split at hj <;> simp at hj
  · intro j hj
    rw [hnew] at hj
    split at hj <;> simp at hj

theorem step (B : Rounds R b) {op : BarrierOp ι} (hop : ∀ i, op ≠ .wake i) (h : b.step op = some b') :
    ∃ R', Rounds R' b' := by
  cases move_of_step h with
  | enter i hpc =>
    exact ⟨R, B.setPc (some .lock) rfl rfl rfl (by simp [hpc, arrived]) (by simp [hpc]) (by simp) (by simp)
      (owner_keep B.owner (by simp [hpc, holds]) rfl rfl) (by simp [hpc, pending, leaving, goto])
      (by simp [hpc, exiting, leaving, goto]) fun j hj => by simp [goto, hj]⟩
  | lock i hpc ho =>
    exact ⟨R, B.setPc (some .incr) rfl rfl rfl (by simp [hpc, arrived]) (by simp [hpc]) (by simp) (by simp)
      (owner_acquire B.owner ho (by simp [holds]) rfl rfl) (by simp [hpc, pending, leaving, goto])
      (by simp [hpc, exiting, leaving, goto]) fun j _ => ⟨rfl, rfl⟩⟩
  | incr i hpc => exact ⟨R, B.incr hpc⟩
  | trip i hpc hc => exact ⟨R, B.trip hpc hc⟩
  | noTrip i hpc hc =>
    exact ⟨R, B.setPc (some .wait) rfl rfl rfl (by simp [hpc, arrived]) (by simp [hpc]) (by simp) (by simp)
      (owner_keep B.owner (by simp [hpc, holds]) rfl rfl) (by simp [hpc, pending, leaving, goto])
      (by simp [hpc, exiting, leaving, goto]) fun j _ => ⟨rfl, rfl⟩⟩
  | reset i hpc => exact ⟨R, B.reset hpc⟩
  | broadcast i hpc => exact ⟨R + 1, B.broadcast hpc⟩
  | wait i hpc =>
    exact ⟨R, B.setPc (some .blocked) rfl rfl rfl (by simp [hpc, arrived]) (by simp [hpc]) (by simp) (by simp)
      (owner_release B.owner (by simp [hpc, holds]) (by simp [holds]) rfl rfl) (by simp [hpc, pending, leaving, goto])
      (by simp [hpc, exiting, leaving, goto]) fun j _ => ⟨rfl, rfl⟩⟩
  | relock i hpc ho =>
    exact ⟨R, B.setPc (some .unlock) rfl rfl rfl (by simp [hpc, arrived]) (by simp [hpc]) (by simp) (by simp)
      (owner_acquire B.owner ho (by simp [holds]) rfl rfl) (by simp [hpc, pending, leaving, goto])
      (by simp [hpc, exiting, leaving, goto]) fun j _ => ⟨rfl, rfl⟩⟩
  | ret i hpc =>
    refine ⟨R, B.setPc none rfl rfl rfl ?_ ?_ (by simp) (by simp) (owner_release B.owner ?_ (by simp [holds]) rfl rfl)
      ?_ ?_ fun j hj => by simp [PthreadBarrier.ret, hj]⟩
    all_goals rcases hpc with hpc | hpc <;> simp [hpc, arrived, holds, pending, exiting, leaving, PthreadBarrier.ret]
  | wake i hpc => exact absurd rfl (hop i)

end Rounds

end PthreadBarrier

/-! ## The rounds -/

section
variable {ι : Type} [DecidableEq ι]

/-- No thread returns from its `r`-th call before all threads have entered their `r`-th call. -/
def RoundsApart (b : PthreadBarrier ι) : Prop := ∀ r i, r ≤ b.returned i → ∀ j, r ≤ b.entered j

/-- Only the threads in `W` are ever woken up spuriously. -/
def WakesOnly (W : Set ι) (_ : PthreadBarrier ι) (op : BarrierOp ι) : Prop := ∀ i, op = .wake i → i ∈ W

namespace PthreadBarrier

variable {b : PthreadBarrier ι} {n : Nat}

theorem returned_le_entered (h : Reach step (init n) b) (i : ι) : b.returned i ≤ b.entered i := by
  suffices b.returned i + (if b.pc i = none then 0 else 1) = b.entered i by omega
  refine h.inv (I := fun b => b.returned i + (if b.pc i = none then 0 else 1) = b.entered i) rfl
    fun b op b' _ hI _ hs => ?_
  cases move_of_step hs with
  | enter j hpc => by_cases e : i = j <;> simp_all [goto]
  | ret j hpc => by_cases e : i = j <;> rcases hpc with hpc | hpc <;> simp_all [ret]
  | broadcast j hpc =>
    by_cases e : i = j
    · simp_all [goto, wakeAll]
    · by_cases hb : b.pc i = some .blocked <;> simp_all [goto, wakeAll]
  | lock j hpc | incr j hpc | trip j hpc | noTrip j hpc | reset j hpc | wait j hpc | relock j hpc | wake j hpc =>
    by_cases e : i = j <;> simp_all [goto]

/-- One thread calls, waits, and is woken before anybody else has called. -/
theorem reach_spurious {W : Set ι} {i : ι} (hi : i ∈ W) (hn : 1 < n) :
    ∃ b, ReachIf step (WakesOnly W) (init n) b ∧ b.returned i = 1 ∧ ∀ j, j ≠ i → b.entered j = 0 := by
  refine ⟨⟨none, 1, n, update (fun _ => none) i none, update (fun _ => 0) i 1, update (fun _ => 0) i 1⟩, ?_, ?_, ?_⟩
  · refine Trans.reachIf_of_run_forall
      (.enter i :: List.replicate 4 (.step i) ++ .wake i :: List.replicate 2 (.step i)) (fun a ha s j hj => ?_) ?_
    · subst hj
      simp only [List.cons_append, List.mem_cons, List.mem_append, List.mem_replicate, reduceCtorEq, and_false,
        false_or, or_false, BarrierOp.wake.injEq] at ha
      exact ha ▸ hi
    · simp [Trans.run, step, exec, acquire, goto, ret, init, List.replicate, show ¬ n ≤ 1 by omega]
  · simp
  · intro j hj
    simp [hj]

end PthreadBarrier

end

/-- **When the session's barrier is safe**: with one thread, or when `pthread_cond_wait` wakes no thread
spuriously. -/
theorem roundsApart_iff_no_spurious {ι : Type} [Fintype ι] [DecidableEq ι] (W : Set ι) :
    (∀ b : PthreadBarrier ι, ReachIf PthreadBarrier.step (WakesOnly W) (PthreadBarrier.init (Fintype.card ι)) b →
      RoundsApart b) ↔ Fintype.card ι = 1 ∨ W = ∅ := by
  constructor
  · intro hall
    by_contra hno
    simp only [not_or, ← ne_eq, ← Set.nonempty_iff_ne_empty] at hno
    obtain ⟨hN, i, hi⟩ := hno
    obtain ⟨j, hj⟩ : ∃ j, j ≠ i := by
      by_contra hc
      exact hN (Fintype.card_eq_one_iff.2 ⟨i, fun j => not_not.1 fun h => hc ⟨j, h⟩⟩)
    obtain ⟨b, hb, hret, hent⟩ := PthreadBarrier.reach_spurious hi (Fintype.one_lt_card_iff.2 ⟨j, i, hj⟩)
    have := hall b hb 1 i hret.ge j
    rw [hent j hj] at this
    omega
  · rintro (hN | rfl) b hb r i hr j
    · obtain ⟨a, ha⟩ := Fintype.card_eq_one_iff.1 hN
      rw [ha j, ← ha i]
      exact hr.trans (PthreadBarrier.returned_le_entered hb.reach i)
    · obtain ⟨R, B⟩ := hb.inv (I := fun b => ∃ R, PthreadBarrier.Rounds R b) ⟨0, .init⟩
        fun s op s' _ hI hop hs => hI.elim fun R B => B.step (fun k hk => (hop k hk).elim) hs
      have := B.returned i
      have := B.entered j
      omega

/-- Two threads: the first waits, is woken spuriously and returns before the second calls. -/
theorem rounds_mixed_by_spurious_wake :
    ¬ ∀ N, 1 ≤ N → ∀ b : PthreadBarrier (Fin N), Reach PthreadBarrier.step (PthreadBarrier.init N) b → RoundsApart b := by
  intro hall
  obtain ⟨b, hb, hp⟩ := Trans.exists_reach_of_run PthreadBarrier.step (PthreadBarrier.init 2)
    (.enter 0 :: List.replicate 4 (.step 0) ++ .wake 0 :: List.replicate 2 (.step (0 : Fin 2)))
    (fun b => b.returned 0 == 1 && b.entered 1 == 0) (by decide)
  simp only [Bool.and_eq_true, beq_iff_eq] at hp
  have := hall 2 (by omega) b hb 1 0 (by omega) 1
  omega

end OsLab.A6
