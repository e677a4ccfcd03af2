import Mathlib.Data.Fintype.Card
import OsLab.A7.Mutex

/-!
# `foothread_barrier` (A7/foothread.c:111-135)

| here | there |
| --- | --- |
| `Barrier.mtx`, `.sem`, `.tripCount`, `.count` | the fields of `foothread_barrier_t`; `sem` is the value of `semid` |
| `Barrier.init`                                | `foothread_barrier_init` (:111) |
| `BarrierPc`                                   | the statements of `foothread_barrier_wait` (:120) |

The mutex is the one of `OsLab.A7.Mutex`: while a thread is at `.lock`, `.unlock` or `.unlockTrip` its
steps are steps of the mutex call it is in. `barrier->count++` is a load and a store. `entered` and
`returned` count each thread's calls of `foothread_barrier_wait`.

The semaphore's tokens are anonymous, so a fast thread can take in its next round a token meant for a
thread that has not left the last one. What the barrier does guarantee is its first round
(`usedBarrier_of_reach`): nobody gets past it before all its users have arrived.
-/

namespace OsLab.A7

open Function (update)

/-- The statement a thread is about to execute inside `foothread_barrier_wait`. -/
inductive BarrierPc
  | lock
  | load | store (c : Nat)
  | test
  | post (i : Nat) | reset | unlockTrip
  | unlock | wait
deriving DecidableEq, Repr

structure Barrier (ι : Type) where
  mtx : Mutex ι
  sem : Nat
  tripCount : Nat
  count : Nat
  /-- `none`: outside `foothread_barrier_wait`. -/
  pc : ι → Option BarrierPc
  entered : ι → Nat
  returned : ι → Nat

inductive BarrierOp (ι : Type)
  | wait (i : ι) | step (i : ι)
deriving DecidableEq, Repr

/-- The thread that makes the move. -/
def BarrierOp.thread {ι : Type} : BarrierOp ι → ι
  | .wait i | .step i => i

namespace Barrier

/-- `foothread_barrier_init` (:111). -/
def init {ι : Type} (count : Nat) : Barrier ι :=
  ⟨Mutex.init, 0, count, 0, fun _ => none, fun _ => 0, fun _ => 0⟩

variable {ι : Type} [DecidableEq ι] (T : Threads ι)

def goto (b : Barrier ι) (i : ι) (p : Option BarrierPc) : Barrier ι := { b with pc := update b.pc i p }

/-- Thread `i` leaves `foothread_barrier_wait`. -/
def ret (b : Barrier ι) (i : ι) : Barrier ι :=
  { b with pc := update b.pc i none, returned := update b.returned i (b.returned i + 1) }

/-- One step of the mutex call thread `i` is in; `k` continues after the call returns. -/
def inMutex (b : Barrier ι) (i : ι) (k : Barrier ι → Barrier ι) : Option (Barrier ι) :=
  (b.mtx.step T (.step i)).map fun m => if m.pc i = none then k { b with mtx := m } else { b with mtx := m }

/-- One atomic step of `foothread_barrier_wait` (:120) by thread `i`. -/
def exec (b : Barrier ι) (i : ι) : BarrierPc → Option (Barrier ι)
  | .lock => b.inMutex T i (·.goto i (some .load))
  | .load => some (b.goto i (some (.store b.count)))
  | .store c => some ({ b with count := c + 1 }.goto i (some .test))
  | .test =>
    if b.count = b.tripCount then some (b.goto i (some (.post 0)))
    else (b.mtx.step T (.unlock i)).map fun m => { b with mtx := m }.goto i (some .unlock)
  | .post k =>
    if k < b.tripCount - 1 then some ({ b with sem := b.sem + 1 }.goto i (some (.post (k + 1))))
    else some (b.goto i (some .reset))
  | .reset => (b.mtx.step T (.unlock i)).map fun m => { b with mtx := m, count := 0 }.goto i (some .unlockTrip)
  | .unlockTrip => b.inMutex T i (·.ret i)
  | .unlock => b.inMutex T i (·.goto i (some .wait))
  | .wait => if 0 < b.sem then some ({ b with sem := b.sem - 1 }.ret i) else none

def step (b : Barrier ι) : BarrierOp ι → Option (Barrier ι)
  | .wait i =>
    if b.pc i = none then (b.mtx.step T (.lock i)).map fun m =>
      { b with mtx := m, entered := update b.entered i (b.entered i + 1) }.goto i (some .lock)
    else none
  | .step i => (b.pc i).bind (b.exec T i)

@[simp] theorem goto_pc_same (b : Barrier ι) (i : ι) (p) : (b.goto i p).pc i = p := by simp [goto]
theorem goto_pc (b : Barrier ι) (i j : ι) (p) : (b.goto i p).pc j = if j = i then p else b.pc j := by
  simp [goto, Function.update_apply]
theorem ret_pc (b : Barrier ι) (i j : ι) : (b.ret i).pc j = if j = i then none else b.pc j := by
  simp [ret, Function.update_apply]

/-- What a step can do: the mutex moves by `op` (or not at all), the rest by one branch of the code. -/
inductive Move (b : Barrier ι) : BarrierOp ι → Barrier ι → Prop
  | enter (i m) : b.pc i = none → b.mtx.step T (.lock i) = some m →
      Move b (.wait i)
        ({ b with mtx := m, entered := update b.entered i (b.entered i + 1) }.goto i (some .lock))
  | inCall (i p m) : b.pc i = some p → p = .lock ∨ p = .unlockTrip ∨ p = .unlock →
      b.mtx.step T (.step i) = some m → m.pc i ≠ none → Move b (.step i) { b with mtx := m }
  | locked (i m) : b.pc i = some .lock → b.mtx.step T (.step i) = some m → m.pc i = none →
      Move b (.step i) ({ b with mtx := m }.goto i (some .load))
  | load (i) : b.pc i = some .load → Move b (.step i) (b.goto i (some (.store b.count)))
  | store (i c) : b.pc i = some (.store c) → Move b (.step i) ({ b with count := c + 1 }.goto i (some .test))
  | trip (i) : b.pc i = some .test → b.count = b.tripCount → Move b (.step i) (b.goto i (some (.post 0)))
  | noTrip (i m) : b.pc i = some .test → b.count ≠ b.tripCount → b.mtx.step T (.unlock i) = some m →
      Move b (.step i) ({ b with mtx := m }.goto i (some .unlock))
  | post (i k) : b.pc i = some (.post k) → k < b.tripCount - 1 →
      Move b (.step i) ({ b with sem := b.sem + 1 }.goto i (some (.post (k + 1))))
  | posted (i k) : b.pc i = some (.post k) → ¬ k < b.tripCount - 1 → Move b (.step i) (b.goto i (some .reset))
  | reset (i m) : b.pc i = some .reset → b.mtx.step T (.unlock i) = some m →
      Move b (.step i) ({ b with mtx := m, count := 0 }.goto i (some .unlockTrip))
  | tripped (i m) : b.pc i = some .unlockTrip → b.mtx.step T (.step i) = some m → m.pc i = none →
      Move b (.step i) ({ b with mtx := m }.ret i)
  | unlocked (i m) : b.pc i = some .unlock → b.mtx.step T (.step i) = some m → m.pc i = none →
      Move b (.step i) ({ b with mtx := m }.goto i (some .wait))
  | take (i) : b.pc i = some .wait → 0 < b.sem → Move b (.step i) ({ b with sem := b.sem - 1 }.ret i)

theorem inMutex_cases {b b' : Barrier ι} {i : ι} {k : Barrier ι → Barrier ι} (h : b.inMutex T i k = some b') :
    ∃ m, b.mtx.step T (.step i) = some m ∧
      (m.pc i = none ∧ b' = k { b with mtx := m } ∨ m.pc i ≠ none ∧ b' = { b with mtx := m }) := by
  simp only [inMutex, Option.map_eq_some_iff] at h
  obtain ⟨m, hm, rfl⟩ := h
  refine ⟨m, hm, ?_⟩
  split
  · exact .inl ⟨by assumption, rfl⟩
  · exact .inr ⟨by assumption, rfl⟩

theorem move_of_step {b b' : Barrier ι} {op : BarrierOp ι} (h : b.step T op = some b') : Move T b op b' := by
  cases op with
  | wait i =>
    simp only [step, Option.ite_none_right_eq_some, Option.map_eq_some_iff] at h
    obtain ⟨hpc, m, hm, rfl⟩ := h
    exact .enter i m hpc hm
  | step i =>
    simp only [step, Option.bind_eq_some_iff] at h
    obtain ⟨p, hpc, h⟩ := h
    cases p <;> simp only [exec] at h
    case lock =>
      obtain ⟨m, hm, ⟨hr, rfl⟩ | ⟨hr, rfl⟩⟩ := inMutex_cases T h
      · exact .locked i m hpc hm hr
      · exact .inCall i _ m hpc (.inl rfl) hm hr
    case load => cases h; exact .load i hpc
    case store c => cases h; exact .store i c hpc
    case test =>
      split at h
      · rename_i hc; cases h; exact .trip i hpc hc
      · rename_i hc
        simp only [Option.map_eq_some_iff] at h
        obtain ⟨m, hm, rfl⟩ := h
        exact .noTrip i m hpc hc hm
    case post k =>
      split at h <;> rename_i hk <;> cases h
      · exact .post i k hpc hk
      · exact .posted i k hpc hk
    case reset =>
      simp only [Option.map_eq_some_iff] at h
      obtain ⟨m, hm, rfl⟩ := h
      exact .reset i m hpc hm
    case unlockTrip =>
      obtain ⟨m, hm, ⟨hr, rfl⟩ | ⟨hr, rfl⟩⟩ := inMutex_cases T h
      · exact .tripped i m hpc hm hr
      · exact .inCall i _ m hpc (.inr (.inl rfl)) hm hr
    case unlock =>
      obtain ⟨m, hm, ⟨hr, rfl⟩ | ⟨hr, rfl⟩⟩ := inMutex_cases T h
      · exact .unlocked i m hpc hm hr
      · exact .inCall i _ m hpc (.inr (.inr rfl)) hm hr
    case wait =>
      split at h <;> cases h
      exact .take i hpc (by assumption)

/-- The mutex is touched only through its calls. -/
theorem Move.mtx {b b' : Barrier ι} {op : BarrierOp ι} (h : Move T b op b') :
    b'.mtx = b.mtx ∨ ∃ mop : MutexOp ι, mop.thread = op.thread ∧ b.mtx.step T mop = some b'.mtx := by
  cases h with
  | enter i m _ hm => exact .inr ⟨.lock i, rfl, hm⟩
  | inCall i p m _ _ hm _ => exact .inr ⟨.step i, rfl, hm⟩
  | locked i m _ hm _ | unlocked i m _ hm _ | tripped i m _ hm _ => exact .inr ⟨.step i, rfl, hm⟩
  | noTrip i m _ _ hm | reset i m _ hm => exact .inr ⟨.unlock i, rfl, hm⟩
  | _ => exact .inl rfl

/-- A step leaves every other thread where it is. -/
theorem Move.other {b b' : Barrier ι} {op : BarrierOp ι} (h : Move T b op b') {j : ι} (hj : j ≠ op.thread) :
    b'.pc j = b.pc j ∧ b'.entered j = b.entered j ∧ b'.returned j = b.returned j ∧
      b'.mtx.pc j = b.mtx.pc j ∧ b'.mtx.holds j = b.mtx.holds j := by
  have hm : b'.mtx.pc j = b.mtx.pc j ∧ b'.mtx.holds j = b.mtx.holds j := by
    rcases h.mtx T with he | ⟨mop, ht, hs⟩
    · rw [he]; exact ⟨rfl, rfl⟩
    · exact (Mutex.move_of_step T hs).other T (ht ▸ hj)
  refine ⟨?_, ?_, ?_, hm⟩ <;> cases h <;> simp only [BarrierOp.thread] at hj <;> simp [goto, ret, hj]

theorem Move.entered_le {b b' : Barrier ι} {op : BarrierOp ι} (h : Move T b op b') (j : ι) :
    b.entered j ≤ b'.entered j := by
  cases h with
  | enter i m _ _ =>
    simp only [goto, Function.update_apply]
    split
    · subst j; omega
    · exact le_rfl
  | _ => exact le_rfl

theorem Move.returned_le {b b' : Barrier ι} {op : BarrierOp ι} (h : Move T b op b') (j : ι) :
    b.returned j ≤ b'.returned j := by
  cases h with
  | tripped i m _ _ _ | take i _ _ =>
    simp only [ret, Function.update_apply]
    split
    · subst j; omega
    · exact le_rfl
  | _ => exact le_rfl

theorem Move.tripCount {b b' : Barrier ι} {op : BarrierOp ι} (h : Move T b op b') :
    b'.tripCount = b.tripCount := by
  cases h <;> rfl

end Barrier

/-! ## Mutual exclusion inside the barrier -/

/-- The statements between the lock and the unlock. -/
def BarrierPc.inCS : BarrierPc → Bool
  | .load | .store _ | .test | .post _ | .reset => true
  | _ => false

structure BarrierInv {ι : Type} (T : Threads ι) (b : Barrier ι) : Prop where
  mtx : MutexInv T b.mtx
  locking : ∀ i, b.pc i = some .lock → b.mtx.pc i = some .lockP ∨ b.mtx.pc i = some .lockStore
  cs : ∀ i p, b.pc i = some p → p.inCS = true → b.mtx.holds i = true
  balance : ∀ i, b.entered i = b.returned i + if b.pc i = none then 0 else 1

namespace BarrierInv

variable {ι : Type} {T : Threads ι} {b b' : Barrier ι}

theorem init (T : Threads ι) (count : Nat) : BarrierInv T (Barrier.init count) :=
  ⟨MutexInv.init T, by simp [Barrier.init], by simp [Barrier.init], by simp [Barrier.init]⟩

variable [DecidableEq ι]

theorem step_mtx (I : BarrierInv T b) {op : BarrierOp ι} (h : b.Move T op b') : MutexInv T b'.mtx := by
  rcases h.mtx T with he | ⟨mop, _, hs⟩
  · rw [he]; exact I.mtx
  · exact I.mtx.step hs

/-- The moving thread stays in step with the mutex. -/
theorem step_self (I : BarrierInv T b) {op : BarrierOp ι} (h : b.Move T op b') :
    (b'.pc op.thread = some .lock →
      b'.mtx.pc op.thread = some .lockP ∨ b'.mtx.pc op.thread = some .lockStore) ∧
    (∀ p, b'.pc op.thread = some p → p.inCS = true → b'.mtx.holds op.thread = true) := by
  cases h with
  | enter i m hpc hm =>
    simp only [Mutex.step, Option.ite_none_right_eq_some, Option.some.injEq] at hm
    obtain ⟨_, rfl⟩ := hm
    exact ⟨fun _ => .inl (by simp [Barrier.goto, BarrierOp.thread]), fun p hp => by
      obtain rfl : BarrierPc.lock = p := by simpa [BarrierOp.thread] using hp
      simp [BarrierPc.inCS]⟩
  | inCall i p m hpc hp hm hr =>
    refine ⟨fun hl => ?_, fun q hq hcs => ?_⟩
    · rcases Mutex.lock_step T (I.locking i hl) hm with h | ⟨_, h, _⟩
      · exact .inr h
      · exact absurd h hr
    · obtain rfl : p = q := by
        simp only [BarrierOp.thread] at hq
        rw [hpc] at hq; exact Option.some.inj hq
      rcases hp with rfl | rfl | rfl <;> cases hcs
  | locked i m hpc hm hr =>
    refine ⟨by simp [BarrierOp.thread], fun p _ _ => ?_⟩
    rcases Mutex.lock_step T (I.locking i hpc) hm with h | ⟨hst, _, hh⟩
    · rw [hr] at h; cases h
    · exact hh.trans (I.mtx.lockStore i hst)
  | load i hpc => exact ⟨by simp [BarrierOp.thread], fun _ _ _ => I.cs i _ hpc rfl⟩
  | store i c hpc => exact ⟨by simp [BarrierOp.thread], fun _ _ _ => I.cs i _ hpc rfl⟩
  | trip i hpc _ => exact ⟨by simp [BarrierOp.thread], fun _ _ _ => I.cs i _ hpc rfl⟩
  | post i k hpc _ | posted i k hpc _ =>
    exact ⟨by simp [BarrierOp.thread], fun _ _ _ => I.cs i _ hpc rfl⟩
  | noTrip i m hpc _ hm | reset i m hpc hm | unlocked i m hpc hm _ =>
    refine ⟨by simp [BarrierOp.thread], fun p hp hcs => ?_⟩
    simp only [BarrierOp.thread, Barrier.goto_pc_same, Option.some.injEq] at hp
    subst hp; cases hcs
  | tripped i m hpc hm _ | take i hpc _ =>
    exact ⟨by simp [BarrierOp.thread, Barrier.ret_pc], by simp [BarrierOp.thread, Barrier.ret_pc]⟩

/-- Entering and returning move the counters together with the position. -/
theorem step_balance (I : BarrierInv T b) {op : BarrierOp ι} (h : b.Move T op b') :
    b'.entered op.thread = b'.returned op.thread + if b'.pc op.thread = none then 0 else 1 := by
  have hb := I.balance op.thread
  cases h with
  | enter i m hpc _ => simp_all [BarrierOp.thread, Barrier.goto]
  | inCall i p m hpc _ _ _ => simpa [BarrierOp.thread, hpc] using hb
  | tripped i m hpc _ _ | take i hpc _ => simpa [BarrierOp.thread, Barrier.ret, hpc] using hb
  | load i hpc | store i c hpc | trip i hpc _ | post i k hpc _ | posted i k hpc _ | locked i m hpc _ _
  | noTrip i m hpc _ _ | reset i m hpc _ | unlocked i m hpc _ _ =>
    simpa [BarrierOp.thread, Barrier.goto, hpc] using hb

theorem step (I : BarrierInv T b) {op : BarrierOp ι} (h : b.Move T op b') : BarrierInv T b' := by
  refine ⟨I.step_mtx h, fun j => ?_, fun j => ?_, fun j => ?_⟩ <;> by_cases e : j = op.thread
  · subst j; exact (I.step_self h).1
  · obtain ⟨hpc, _, _, hmpc, _⟩ := h.other T e
    rw [hpc, hmpc]; exact I.locking j
  · subst j; exact (I.step_self h).2
  · obtain ⟨hpc, _, _, _, hh⟩ := h.other T e
    rw [hpc, hh]; exact I.cs j
  · subst j; exact I.step_balance h
  · obtain ⟨hpc, he, hr, _, _⟩ := h.other T e
    rw [hpc, he, hr]; exact I.balance j

omit [DecidableEq ι] in
theorem entered_pos (I : BarrierInv T b) {i : ι} (h : b.pc i ≠ none) : 1 ≤ b.entered i := by
  have := I.balance i
  rw [if_neg h] at this
  omega

/-- The step that leaves the call is counted. -/
theorem returned_pos (I : BarrierInv T b) {i : ι} (h : b.step T (.step i) = some b') (hr : b'.pc i = none) :
    1 ≤ b'.returned i := by
  have hmv := Barrier.move_of_step T h
  have hin : b.pc i ≠ none := fun h0 => by simp [Barrier.step, h0] at h
  have hent := (I.entered_pos hin).trans (hmv.entered_le T i)
  have hbal := (I.step hmv).balance i
  rw [if_pos hr] at hbal
  omega

omit [DecidableEq ι] in
/-- Two threads between lock and unlock are the same thread. -/
theorem cs_excl (I : BarrierInv T b) {i j : ι} {p q : BarrierPc} (hi : b.pc i = some p) (hj : b.pc j = some q)
    (hp : p.inCS = true) (hq : q.inCS = true) : i = j :=
  I.mtx.excl i j (I.cs i p hi hp) (I.cs j q hj hq)

end BarrierInv

/-! ## The first round -/

/-- The statements after `barrier->count++` of a round that has not tripped yet. -/
def past : Option BarrierPc → Bool
  | some .test | some .unlock | some .wait => true
  | _ => false

/-- Until the barrier trips for the first time it has let nobody through, and `count` is the number
of users past their increment. -/
structure FirstRound {ι : Type} (users : Finset ι) (b : Barrier ι) : Prop where
  sem : b.sem = 0
  returned : ∀ i, b.returned i = 0
  notTripped : ∀ i p, b.pc i = some p → p ≠ .reset ∧ p ≠ .unlockTrip ∧ ∀ k, p ≠ .post k
  count : b.count = (users.filter fun i => past (b.pc i) = true).card
  store : ∀ i c, b.pc i = some (.store c) → c = b.count

namespace FirstRound

variable {ι : Type} {users : Finset ι} {T : Threads ι} {b b' : Barrier ι}

theorem init (users : Finset ι) (count : Nat) : FirstRound users (Barrier.init count) := by
  refine ⟨rfl, fun _ => rfl, ?_, ?_, ?_⟩ <;> simp [Barrier.init, past]

variable [DecidableEq ι]

omit [DecidableEq ι] in
theorem count_congr (h : ∀ i, past (b'.pc i) = past (b.pc i)) :
    (users.filter fun i => past (b'.pc i) = true).card = (users.filter fun i => past (b.pc i) = true).card := by
  simp only [h]

/-- Moving thread `i` to `p` without passing `count++`. -/
theorem goto (F : FirstRound users b) {i : ι} {p : BarrierPc} (hpast : past (some p) = past (b.pc i))
    (hp : p ≠ .reset ∧ p ≠ .unlockTrip ∧ ∀ k, p ≠ .post k) (hstore : ∀ c, p = .store c → c = b.count) :
    FirstRound users (b.goto i (some p)) where
  sem := F.sem
  returned := F.returned
  notTripped j q hq := by
    rw [Barrier.goto_pc] at hq
    split at hq
    · cases hq; exact hp
    · exact F.notTripped j q hq
  count := by
    refine F.count.trans (count_congr fun j => ?_).symm
    rw [Barrier.goto_pc]
    split
    · subst j; exact hpast
    · rfl
  store j c hc := by
    rw [Barrier.goto_pc] at hc
    split at hc
    · cases hc; exact hstore c rfl
    · exact F.store j c hc

omit [DecidableEq ι] in
/-- What the mutex does is invisible here. -/
theorem mtx (F : FirstRound users b) (m : Mutex ι) (e : ι → Nat) :
    FirstRound users { b with mtx := m, entered := e } :=
  ⟨F.sem, F.returned, F.notTripped, F.count, F.store⟩

/-- `count++` by a user that was not past it. -/
theorem incr (F : FirstRound users b) (I : BarrierInv T b) {i : ι} {c : Nat} (hi : i ∈ users)
    (hpc : b.pc i = some (.store c)) :
    FirstRound users ({ b with count := c + 1 }.goto i (some .test)) := by
  refine ⟨F.sem, F.returned, fun j q hq => ?_, ?_, fun j d hd => ?_⟩
  · rw [Barrier.goto_pc] at hq
    split at hq
    · cases hq; simp
    · exact F.notTripped j q hq
  · -- exactly `i` is new among the users past the increment
    have hset : (users.filter fun j => past ((b.goto i (some .test)).pc j) = true) =
        insert i (users.filter fun j => past (b.pc j) = true) := by
      ext j
      rw [Finset.mem_insert, Finset.mem_filter, Finset.mem_filter, Barrier.goto_pc]
      by_cases e : j = i
      · subst j; rw [if_pos rfl]; exact ⟨fun _ => .inl rfl, fun _ => ⟨hi, rfl⟩⟩
      · rw [if_neg e]; exact ⟨.inr, fun h => h.resolve_left e⟩
    have hnew : i ∉ users.filter fun j => past (b.pc j) = true := by
      rw [Finset.mem_filter, hpc]; exact fun h => by cases h.2
    have hcard := congrArg Finset.card hset
    rw [Finset.card_insert_of_notMem hnew, ← F.count, ← F.store i c hpc] at hcard
    exact hcard.symm
  · -- nobody else is between its load and its store
    rw [Barrier.goto_pc] at hd
    split at hd
    · cases hd
    · rename_i e
      exact absurd (I.cs_excl hd hpc rfl rfl) e

/-- **One step of the first round**: it goes on, or all users have entered. -/
theorem step (F : FirstRound users b) (I : BarrierInv T b) (hu : ∀ i, b.pc i ≠ none → i ∈ users)
    (ht : b.tripCount = users.card) {op : BarrierOp ι} (h : b.Move T op b') :
    FirstRound users b' ∨ ∀ j ∈ users, 1 ≤ b'.entered j := by
  cases h with
  | enter i m hpc hm => exact .inl ((F.mtx m _).goto (by simp [hpc, past]) (by simp) (by simp))
  | inCall i p m hpc _ _ _ => exact .inl (F.mtx m _)
  | locked i m hpc _ _ => exact .inl ((F.mtx m _).goto (by simp [hpc, past]) (by simp) (by simp))
  | load i hpc =>
    refine .inl (F.goto (by simp [hpc, past]) (by simp) fun c hc => ?_)
    cases hc; rfl
  | store i c hpc => exact .inl (F.incr I (hu i (by simp [hpc])) hpc)
  | trip i hpc hc =>
    -- `count` has reached the number of users, so all of them are past their increment
    refine .inr fun j hj => ?_
    have hall : (users.filter fun i => past (b.pc i) = true) = users :=
      Finset.eq_of_subset_of_card_le (Finset.filter_subset _ _) (by rw [← F.count, hc, ht])
    rw [← hall, Finset.mem_filter] at hj
    refine I.entered_pos fun h0 => ?_
    rw [h0] at hj; cases hj.2
  | noTrip i m hpc _ _ => exact .inl ((F.mtx m _).goto (by simp [hpc, past]) (by simp) (by simp))
  | unlocked i m hpc _ _ => exact .inl ((F.mtx m _).goto (by simp [hpc, past]) (by simp) (by simp))
  | post i k hpc _ | posted i k hpc _ => exact absurd rfl ((F.notTripped i _ hpc).2.2 k)
  | reset i m hpc _ => exact absurd rfl (F.notTripped i _ hpc).1
  | tripped i m hpc _ _ => exact absurd rfl (F.notTripped i _ hpc).2.1
  | take i hpc hs => have := F.sem; omega

end FirstRound

/-- Only the users of the barrier call `foothread_barrier_wait` on it. -/
def ByUsers {ι : Type} (users : Finset ι) (_ : Barrier ι) (op : BarrierOp ι) : Prop :=
  ∀ i, op = .wait i → i ∈ users

/-- What holds of a barrier called by its users. -/
structure UsedBarrier {ι : Type} (T : Threads ι) (users : Finset ι) (b : Barrier ι) : Prop where
  inv : BarrierInv T b
  user : ∀ i, b.pc i ≠ none → i ∈ users
  tripCount : b.tripCount = users.card
  round : FirstRound users b ∨ ∀ j ∈ users, 1 ≤ b.entered j

/-- Once somebody has got past the barrier, all users have entered. -/
theorem UsedBarrier.entered {ι : Type} {T : Threads ι} {users : Finset ι} {b : Barrier ι}
    (U : UsedBarrier T users b) {i j : ι} (hi : 1 ≤ b.returned i) (hj : j ∈ users) : 1 ≤ b.entered j := by
  rcases U.round with F | hent
  · have := F.returned i
    omega
  · exact hent j hj

theorem UsedBarrier.init {ι : Type} (T : Threads ι) (users : Finset ι) :
    UsedBarrier T users (Barrier.init users.card) :=
  ⟨.init T _, by simp [Barrier.init], rfl, .inl (.init users _)⟩

theorem UsedBarrier.step {ι : Type} [DecidableEq ι] {T : Threads ι} {users : Finset ι} {b b' : Barrier ι}
    {op : BarrierOp ι} (U : UsedBarrier T users b) (hok : ByUsers users b op) (hs : b.step T op = some b') :
    UsedBarrier T users b' := by
  have hmv := Barrier.move_of_step T hs
  refine ⟨U.inv.step hmv, fun j hj => ?_, (hmv.tripCount T).trans U.tripCount, ?_⟩
  · by_cases e : j = op.thread
    · cases op with
      | wait i => rw [e]; exact hok i rfl
      | step i =>
        -- the thread was inside already
        refine U.user j fun h0 => ?_
        obtain rfl : j = i := e
        simp [Barrier.step, h0] at hs
    · rw [(hmv.other T e).1] at hj; exact U.user j hj
  · rcases U.round with F | hent
    · exact F.step U.inv U.user U.tripCount hmv
    · exact .inr fun j hj => (hent j hj).trans (hmv.entered_le T j)

/-- **The first round of a barrier**: either it still holds back every caller, or all its users have
entered. -/
theorem usedBarrier_of_reach {ι : Type} [DecidableEq ι] {T : Threads ι} {users : Finset ι} {b : Barrier ι}
    (h : Trans.ReachIf (Barrier.step T) (ByUsers users) (Barrier.init users.card) b) : UsedBarrier T users b :=
  h.inv (.init T users)
    fun _ _ _ _ U hok hs => U.step hok hs

end OsLab.A7
