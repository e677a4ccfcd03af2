import Mathlib.Data.Fin.Basic
import OsLab.Lib.Trans

/-!
# `foothread_mutex` (A7/foothread.c:82-105)

| here | there |
| --- | --- |
| `Threads.gettid`                        | `gettid()`: every thread has a nonzero id of its own |
| `Mutex.sem`, `Mutex.tid`                | the value of semaphore `mutex->semid`, `mutex->tid` |
| `Mutex.init`                            | `foothread_mutex_init` (:82) |
| `MutexPc.lockP`, `.lockStore`           | the two statements of `foothread_mutex_lock` (:88) |
| `MutexPc.unlockLoad` ... `.unlockClear` | the statements of `foothread_mutex_unlock` (:93) |

A call is entered by `.lock i` or `.unlock i`; nothing restricts which call a thread makes next, so
unlocks by non-owners and double unlocks are runs of the model. `.step i` is the next atomic step of
the call thread `i` is in: a semaphore operation, the `GETVAL`, a load or a store of `tid`. `holds i`
is a ghost: the `P` of thread `i` has completed and its `V` has not. `log` is what the two `printf`s
of `foothread_mutex_unlock` print.

`MutexInv` relates the semaphore, `tid` and every thread's program counter. Its point is `owner`:
although `tid` is written outside the semaphore's protection, it names a thread only while that
thread holds the mutex or stands just before clearing it.
-/

namespace OsLab.A7

open Function (update)

/-- The threads of the process with their `gettid()`. -/
structure Threads (ι : Type) where
  gettid : ι → Nat
  inj : Function.Injective gettid
  ne_zero : ∀ i, gettid i ≠ 0

/-- `n` threads with the ids `1, ..., n`. -/
def Threads.ofFin (n : Nat) : Threads (Fin n) where
  gettid i := i.val + 1
  inj i j h := Fin.ext (by simpa using h)
  ne_zero _ := by simp

/-- The statement a thread is about to execute inside a mutex call. -/
inductive MutexPc
  | lockP | lockStore
  | unlockLoad | unlockGetval | unlockV | unlockClear
deriving DecidableEq, Repr

/-- The two errors `foothread_mutex_unlock` reports. -/
inductive MutexError
  /-- "Error: Mutex can only be unlocked by the same thread that locked it" -/
  | notOwner
  /-- "Error: Mutex is already unlocked" -/
  | alreadyUnlocked
deriving DecidableEq, Repr

structure Mutex (ι : Type) where
  sem : Nat
  tid : Nat
  /-- `none`: outside every call on this mutex. -/
  pc : ι → Option MutexPc
  holds : ι → Bool
  log : List (ι × MutexError)

inductive MutexOp (ι : Type)
  | lock (i : ι) | unlock (i : ι) | step (i : ι)
deriving DecidableEq, Repr

/-- The thread that makes the move. -/
def MutexOp.thread {ι : Type} : MutexOp ι → ι
  | .lock i | .unlock i | .step i => i

namespace Mutex

/-- `foothread_mutex_init` (:82): `SETVAL 1`, `tid = 0`. -/
def init {ι : Type} : Mutex ι := ⟨1, 0, fun _ => none, fun _ => false, []⟩

variable {ι : Type} [DecidableEq ι] (T : Threads ι)

def goto (m : Mutex ι) (i : ι) (p : Option MutexPc) : Mutex ι := { m with pc := update m.pc i p }

/-- One atomic step of `foothread_mutex_lock` (:88) or `foothread_mutex_unlock` (:93) by thread `i`. -/
def exec (m : Mutex ι) (i : ι) : MutexPc → Option (Mutex ι)
  | .lockP =>
    if 0 < m.sem then some ({ m with sem := m.sem - 1, holds := update m.holds i true }.goto i (some .lockStore))
    else none
  | .lockStore => some ({ m with tid := T.gettid i }.goto i none)
  | .unlockLoad =>
    if m.tid ≠ T.gettid i then some ({ m with log := (i, .notOwner) :: m.log }.goto i none)
    else some (m.goto i (some .unlockGetval))
  | .unlockGetval =>
    if m.sem = 1 then some ({ m with log := (i, .alreadyUnlocked) :: m.log }.goto i none)
    else some (m.goto i (some .unlockV))
  | .unlockV =>
    some ({ m with sem := m.sem + 1, holds := update m.holds i false }.goto i (some .unlockClear))
  | .unlockClear => some ({ m with tid := 0 }.goto i none)

/-- The moves of the system: a thread outside every call enters one, or a thread inside one takes its
next step. -/
def step (m : Mutex ι) : MutexOp ι → Option (Mutex ι)
  | .lock i => if m.pc i = none then some (m.goto i (some .lockP)) else none
  | .unlock i => if m.pc i = none then some (m.goto i (some .unlockLoad)) else none
  | .step i => (m.pc i).bind (m.exec T i)

@[simp, grind =] theorem goto_sem (m : Mutex ι) (i : ι) (p) : (m.goto i p).sem = m.sem := rfl
@[simp, grind =] theorem goto_tid (m : Mutex ι) (i : ι) (p) : (m.goto i p).tid = m.tid := rfl
@[simp, grind =] theorem goto_holds (m : Mutex ι) (i j : ι) (p) : (m.goto i p).holds j = m.holds j := rfl
@[simp] theorem goto_pc_same (m : Mutex ι) (i : ι) (p) : (m.goto i p).pc i = p := by simp [goto]
@[grind =] theorem goto_pc (m : Mutex ι) (i j : ι) (p) : (m.goto i p).pc j = if j = i then p else m.pc j := by
  simp [goto, Function.update_apply]

/-- What a step can do, one constructor for each branch of the code. -/
inductive Move (m : Mutex ι) : MutexOp ι → Mutex ι → Prop
  | lock (i) : m.pc i = none → Move m (.lock i) (m.goto i (some .lockP))
  | unlock (i) : m.pc i = none → Move m (.unlock i) (m.goto i (some .unlockLoad))
  | acquire (i) : m.pc i = some .lockP → 0 < m.sem →
      Move m (.step i) ({ m with sem := m.sem - 1, holds := update m.holds i true }.goto i (some .lockStore))
  | storeTid (i) : m.pc i = some .lockStore → Move m (.step i) ({ m with tid := T.gettid i }.goto i none)
  | notOwner (i) : m.pc i = some .unlockLoad → m.tid ≠ T.gettid i →
      Move m (.step i) ({ m with log := (i, .notOwner) :: m.log }.goto i none)
  | isOwner (i) : m.pc i = some .unlockLoad → m.tid = T.gettid i →
      Move m (.step i) (m.goto i (some .unlockGetval))
  | alreadyUnlocked (i) : m.pc i = some .unlockGetval → m.sem = 1 →
      Move m (.step i) ({ m with log := (i, .alreadyUnlocked) :: m.log }.goto i none)
  | stillLocked (i) : m.pc i = some .unlockGetval → m.sem ≠ 1 → Move m (.step i) (m.goto i (some .unlockV))
  | release (i) : m.pc i = some .unlockV →
      Move m (.step i) ({ m with sem := m.sem + 1, holds := update m.holds i false }.goto i (some .unlockClear))
  | clearTid (i) : m.pc i = some .unlockClear → Move m (.step i) ({ m with tid := 0 }.goto i none)

theorem move_of_step {m m' : Mutex ι} {op : MutexOp ι} (h : m.step T op = some m') : Move T m op m' := by
  cases op with
  | lock i =>
    simp only [step, Option.ite_none_right_eq_some, Option.some.injEq] at h
    obtain ⟨hpc, rfl⟩ := h
    exact .lock i hpc
  | unlock i =>
    simp only [step, Option.ite_none_right_eq_some, Option.some.injEq] at h
    obtain ⟨hpc, rfl⟩ := h
    exact .unlock i hpc
  | step i =>
    simp only [step, Option.bind_eq_some_iff] at h
    obtain ⟨p, hpc, h⟩ := h
    cases p <;> simp only [exec] at h
    case lockP =>
      split at h <;> cases h
      exact .acquire i hpc (by assumption)
    case lockStore => cases h; exact .storeTid i hpc
    case unlockLoad =>
      split at h <;> rename_i hb <;> cases h
      · exact .notOwner i hpc hb
      · exact .isOwner i hpc (by simpa using hb)
    case unlockGetval =>
      split at h <;> rename_i hb <;> cases h
      · exact .alreadyUnlocked i hpc hb
      · exact .stillLocked i hpc hb
    case unlockV => cases h; exact .release i hpc
    case unlockClear => cases h; exact .clearTid i hpc

/-- A step changes position and ownership of the moving thread only. -/
theorem Move.other {m m' : Mutex ι} {op : MutexOp ι} (h : Move T m op m') {j : ι} (hj : j ≠ op.thread) :
    m'.pc j = m.pc j ∧ m'.holds j = m.holds j := by
  cases h <;> simp only [MutexOp.thread] at hj <;> simp [goto_pc, hj]

/-- Only a store to `tid` changes `tid`. -/
theorem Move.tid {m m' : Mutex ι} {op : MutexOp ι} (h : Move T m op m') :
    m'.tid = m.tid ∨ ∃ i, op = .step i ∧
      (m.pc i = some .lockStore ∧ m'.tid = T.gettid i ∨ m.pc i = some .unlockClear ∧ m'.tid = 0) := by
  cases h with
  | storeTid i hpc => exact .inr ⟨i, rfl, .inl ⟨hpc, rfl⟩⟩
  | clearTid i hpc => exact .inr ⟨i, rfl, .inr ⟨hpc, rfl⟩⟩
  | _ => exact .inl rfl

/-- A step inside `foothread_mutex_lock` is the `P` or the returning store. -/
theorem lock_step {m m' : Mutex ι} {i : ι} (hpc : m.pc i = some .lockP ∨ m.pc i = some .lockStore)
    (h : m.step T (.step i) = some m') :
    m'.pc i = some .lockStore ∨ m.pc i = some .lockStore ∧ m'.pc i = none ∧ m'.holds i = m.holds i := by
  rcases hpc with hpc | hpc
  · simp only [step, hpc, Option.bind_some, exec, Option.ite_none_right_eq_some, Option.some.injEq] at h
    obtain ⟨_, rfl⟩ := h
    exact .inl (by simp)
  · simp only [step, hpc, Option.bind_some, exec, Option.some.injEq] at h
    subst h
    exact .inr ⟨hpc, by simp, rfl⟩

end Mutex

/-! ## The invariant -/

/-- What holds of a mutex under any calls by any threads. -/
structure MutexInv {ι : Type} (T : Threads ι) (m : Mutex ι) : Prop where
  /-- The semaphore is free exactly when nobody holds it. -/
  free : m.sem = 1 ∧ (∀ i, m.holds i = false) ∨ m.sem = 0 ∧ ∃ i, m.holds i = true
  excl : ∀ i j, m.holds i = true → m.holds j = true → i = j
  lockStore : ∀ i, m.pc i = some .lockStore → m.holds i = true
  getval : ∀ i, m.pc i = some .unlockGetval → m.holds i = true
  unlockV : ∀ i, m.pc i = some .unlockV → m.holds i = true
  clear : ∀ i, m.pc i = some .unlockClear → m.holds i = false
  owner : ∀ i, m.tid = T.gettid i → m.holds i = true ∨ m.pc i = some .unlockClear
  log : ∀ i, (i, .alreadyUnlocked) ∉ m.log

namespace MutexInv

variable {ι : Type} {T : Threads ι} {m m' : Mutex ι}

theorem init (T : Threads ι) : MutexInv T Mutex.init where
  free := .inl ⟨rfl, fun _ => rfl⟩
  excl := by simp [Mutex.init]
  lockStore := by simp [Mutex.init]
  getval := by simp [Mutex.init]
  unlockV := by simp [Mutex.init]
  clear := by simp [Mutex.init]
  owner := fun i h => absurd h.symm (T.ne_zero i)
  log := by simp [Mutex.init]

theorem sem_of_holds (I : MutexInv T m) {i : ι} (h : m.holds i = true) : m.sem = 0 := by
  rcases I.free with ⟨_, hf⟩ | ⟨h0, _⟩
  · rw [hf i] at h; cases h
  · exact h0

theorem not_holds_of_sem (I : MutexInv T m) (h : 0 < m.sem) (i : ι) : m.holds i = false := by
  cases hh : m.holds i with
  | false => rfl
  | true => have := I.sem_of_holds hh; omega

section
variable [DecidableEq ι]

/-- Moving a thread to a statement that claims nothing about the mutex keeps the invariant. -/
theorem goto (I : MutexInv T m) (i : ι) (p : Option MutexPc) (hi : m.pc i ≠ some .unlockClear)
    (hp : p = some .lockStore ∨ p = some .unlockGetval ∨ p = some .unlockV → m.holds i = true)
    (hc : p ≠ some .unlockClear) : MutexInv T (m.goto i p) where
  free := I.free
  excl := I.excl
  lockStore := fun j hj => by
    rw [Mutex.goto_pc] at hj
    split at hj
    · subst j; exact hp (.inl hj)
    · exact I.lockStore j hj
  getval := fun j hj => by
    rw [Mutex.goto_pc] at hj
    split at hj
    · subst j; exact hp (.inr (.inl hj))
    · exact I.getval j hj
  unlockV := fun j hj => by
    rw [Mutex.goto_pc] at hj
    split at hj
    · subst j; exact hp (.inr (.inr hj))
    · exact I.unlockV j hj
  clear := fun j hj => by
    rw [Mutex.goto_pc] at hj
    split at hj
    · exact absurd hj hc
    · exact I.clear j hj
  owner := fun j hj => by
    rcases I.owner j hj with h | h
    · exact .inl h
    · refine .inr ?_
      have hne : j ≠ i := fun e => hi (e ▸ h)
      rw [Mutex.goto_pc, if_neg hne]; exact h
  log := I.log

/-- `P` succeeds: nobody held the mutex, now `i` does. -/
theorem acquire (I : MutexInv T m) {i : ι} (hs : 0 < m.sem) :
    MutexInv T ({ m with sem := m.sem - 1, holds := update m.holds i true }.goto i (some .lockStore)) := by
  have hfree := I.not_holds_of_sem hs
  have h1 : m.sem = 1 := by
    rcases I.free with ⟨h1, _⟩ | ⟨h0, _⟩
    · exact h1
    · omega
  refine ⟨.inr ⟨by simp [h1], i, by simp⟩, ?_, ?_, ?_, ?_, ?_, ?_, I.log⟩
  · -- excl
    intro a b ha hb
    simp only [Mutex.goto_holds, Function.update_apply, hfree] at ha hb
    grind
  · -- lockStore
    intro j hj
    have := I.lockStore j
    grind [Function.update_apply]
  · -- getval
    intro j hj
    have := I.getval j
    grind [Function.update_apply]
  · -- unlockV
    intro j hj
    have := I.unlockV j
    grind [Function.update_apply]
  · -- clear
    intro j hj
    have := hfree j
    grind [Function.update_apply]
  · -- owner
    intro j hj
    have := I.owner j hj
    have := hfree j
    grind [Function.update_apply]

/-- `mutex->tid = gettid()`: the storing thread holds the mutex. -/
theorem storeTid (I : MutexInv T m) {i : ι} (hpc : m.pc i = some .lockStore) :
    MutexInv T ({ m with tid := T.gettid i }.goto i none) := by
  have hi := I.lockStore i hpc
  have J : MutexInv T { m with tid := T.gettid i } :=
    ⟨I.free, I.excl, I.lockStore, I.getval, I.unlockV, I.clear, fun j hj => by
      have : j = i := T.inj hj.symm
      subst j; exact .inl hi, I.log⟩
  exact J.goto i none (by simp [hpc]) (by simp) (by simp)

omit [DecidableEq ι] in
/-- A thread whose owner check succeeds is the holder: it is not at its own `tid = 0`. -/
theorem holds_of_owner (I : MutexInv T m) {i : ι} (hpc : m.pc i = some .unlockLoad) (ht : m.tid = T.gettid i) :
    m.holds i = true := by
  rcases I.owner i ht with h | h
  · exact h
  · rw [hpc] at h; cases h

/-- `V` by the holder. -/
theorem release (I : MutexInv T m) {i : ι} (hpc : m.pc i = some .unlockV) :
    MutexInv T ({ m with sem := m.sem + 1, holds := update m.holds i false }.goto i (some .unlockClear)) := by
  have hi := I.unlockV i hpc
  have h0 := I.sem_of_holds hi
  have hother : ∀ j, m.holds j = true → j = i := fun j hj => I.excl j i hj hi
  refine ⟨.inl ⟨by simp [h0], fun j => ?_⟩, ?_, ?_, ?_, ?_, ?_, ?_, I.log⟩
  · have := hother j
    simp only [Mutex.goto_holds, Function.update_apply]
    grind
  · -- excl
    intro a b ha
    have := hother a
    grind [Function.update_apply]
  · -- lockStore
    intro j hj
    have := I.lockStore j
    have := hother j
    grind [Function.update_apply]
  · -- getval
    intro j hj
    have := I.getval j
    have := hother j
    grind [Function.update_apply]
  · -- unlockV
    intro j hj
    have := I.unlockV j
    have := hother j
    grind [Function.update_apply]
  · -- clear
    intro j hj
    have := I.clear j
    grind [Function.update_apply]
  · -- owner
    intro j hj
    have := I.owner j hj
    have := hother j
    grind [Function.update_apply]

/-- `mutex->tid = 0`: no thread is named `0`. -/
theorem clearTid (I : MutexInv T m) {i : ι} : MutexInv T ({ m with tid := 0 }.goto i none) := by
  refine ⟨I.free, I.excl, ?_, ?_, ?_, ?_, fun j hj => absurd hj.symm (T.ne_zero j), I.log⟩
  · intro j hj
    have := I.lockStore j
    grind
  · intro j hj
    have := I.getval j
    grind
  · intro j hj
    have := I.unlockV j
    grind
  · intro j hj
    have := I.clear j
    grind

/-- **Every step keeps the invariant.** -/
theorem step (I : MutexInv T m) {op : MutexOp ι} (h : m.step T op = some m') : MutexInv T m' := by
  cases Mutex.move_of_step T h with
  | lock i hpc => exact I.goto i _ (by simp [hpc]) (by simp) (by simp)
  | unlock i hpc => exact I.goto i _ (by simp [hpc]) (by simp) (by simp)
  | acquire i hpc hs => exact I.acquire hs
  | storeTid i hpc => exact I.storeTid hpc
  | notOwner i hpc ht =>
    have J : MutexInv T { m with log := (i, .notOwner) :: m.log } :=
      ⟨I.free, I.excl, I.lockStore, I.getval, I.unlockV, I.clear, I.owner, by simpa using I.log⟩
    exact J.goto i none (by simp [hpc]) (by simp) (by simp)
  | isOwner i hpc ht => exact I.goto i _ (by simp [hpc]) (fun _ => I.holds_of_owner hpc ht) (by simp)
  | alreadyUnlocked i hpc hs =>
    have := I.sem_of_holds (I.getval i hpc)
    omega
  | stillLocked i hpc hs => exact I.goto i _ (by simp [hpc]) (fun _ => I.getval i hpc) (by simp)
  | release i hpc => exact I.release hpc
  | clearTid i hpc => exact I.clearTid

theorem of_reach (h : Trans.Reach (Mutex.step T) Mutex.init m) : MutexInv T m :=
  h.inv (init T) fun _ _ _ _ I _ hs => I.step hs

end

end MutexInv

/-- **Mutual exclusion and ownership**, under any calls by any threads. -/
theorem mutex_ownership {ι : Type} [DecidableEq ι] (T : Threads ι) {m : Mutex ι}
    (h : Trans.Reach (Mutex.step T) Mutex.init m) :
    (m.sem = 0 ∨ m.sem = 1) ∧
    (∀ i j, m.holds i = true → m.holds j = true → i = j) ∧
    (∀ i, m.pc i = some .unlockV → m.holds i = true) ∧
    (∀ i, m.pc i = some .unlockGetval → m.sem ≠ 1) ∧
    ∀ i, (i, .alreadyUnlocked) ∉ m.log := by
  have I := MutexInv.of_reach h
  refine ⟨?_, I.excl, I.unlockV, fun i hpc => ?_, I.log⟩
  · rcases I.free with ⟨h1, _⟩ | ⟨h0, _⟩
    · exact .inr h1
    · exact .inl h0
  · have := I.sem_of_holds (I.getval i hpc)
    omega

/-- Thread 1 is refused an unlock and waits in its own `lock` while thread 0 is about to `V`. -/
theorem mutex_ownership_contended :
    ∃ m, Trans.Reach (Mutex.step (.ofFin 2)) Mutex.init m ∧ m.pc 0 = some .unlockV ∧ m.holds 0 = true := by
  obtain ⟨m, hm, hpc⟩ := Trans.exists_reach_of_run (Mutex.step (.ofFin 2)) Mutex.init
    [.lock 0, .step 0, .step 0, .unlock 1, .step 1, .lock 1, .unlock 0, .step 0, .step 0]
    (fun m => m.pc 0 == some .unlockV) (by decide)
  have hpc : m.pc 0 = some .unlockV := by simpa using hpc
  exact ⟨m, hm, hpc, (mutex_ownership (.ofFin 2) hm).2.2.1 0 hpc⟩

end OsLab.A7
