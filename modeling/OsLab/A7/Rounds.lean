import Mathlib.Data.Fintype.EquivFin
import OsLab.A7.Barrier

/-!
# Reusing a barrier (A7/foothread.c:120-135)

`N` threads that call `foothread_barrier_wait` on one barrier with `tripCount = N`, thread `i` at most
`calls i` times. `RoundsApart`: nobody returns from its `r`-th call before everybody has entered its
`r`-th call.

The thread that trips the barrier can come back at once, wait, and take one of the tokens it has just
posted. So the rounds are apart exactly when no such second call exists (`roundsApart_iff`): there is
one thread only, or some thread never arrives and the barrier never trips, or nobody calls twice.
-/

namespace OsLab.A7

open Function (update)
open Trans (ReachIf)

variable {ι : Type} {T : Threads ι}

/-- Thread `i` makes at most `calls i` calls. -/
def CallsLeft (calls : ι → Nat) (b : Barrier ι) (op : BarrierOp ι) : Prop :=
  ∀ i, op = .wait i → b.entered i < calls i

/-- No thread returns from its `r`-th call before all threads have entered their `r`-th call. -/
def RoundsApart (b : Barrier ι) : Prop := ∀ r i, r ≤ b.returned i → ∀ j, r ≤ b.entered j

/-! ## One thread running alone through the barrier -/

section solo
variable [DecidableEq ι] (T : Threads ι) (calls : ι → Nat) {b : Barrier ι} {i : ι}

variable {T calls} in
/-- Moves inside calls meet `CallsLeft`. -/
theorem reach_of_steps {b' : Barrier ι} (i : ι) (n : Nat)
    (h : Trans.run (Barrier.step T) b (List.replicate n (.step i)) = some b') :
    ReachIf (Barrier.step T) (CallsLeft calls) b b' :=
  Trans.reachIf_of_run_forall _ (fun a ha s j hj => by
    rw [List.eq_of_mem_replicate ha] at hj; cases hj) h

/-- Thread `i` alone in the mutex, at the comparison of `count` with `tripCount`. -/
def atTest (T : Threads ι) (b : Barrier ι) (i : ι) : Barrier ι :=
  { b with
    mtx := ⟨0, T.gettid i, fun _ => none, update (fun _ => false) i true, []⟩
    count := b.count + 1
    pc := update b.pc i (some .test)
    entered := update b.entered i (b.entered i + 1) }

theorem reach_test (hm : b.mtx = Mutex.init) (hpc : b.pc i = none) (hcalls : b.entered i < calls i) :
    ReachIf (Barrier.step T) (CallsLeft calls) b (atTest T b i) := by
  have henter : b.step T (.wait i) = some ({ b with
      mtx := Mutex.init.goto i (some .lockP)
      entered := update b.entered i (b.entered i + 1) }.goto i (some .lock)) := by
    simp [Barrier.step, hpc, hm, Mutex.step, Mutex.init]
  refine (ReachIf.single (fun j hj => ?_) henter).trans (reach_of_steps i 4 ?_)
  · cases hj; exact hcalls
  · simp [Trans.run, Barrier.step, Barrier.exec, Barrier.inMutex, Barrier.goto, Mutex.step, Mutex.exec,
      Mutex.goto, Mutex.init, List.replicate, atTest]

/-- An arrival that does not trip the barrier ends in front of the semaphore, the mutex free again. -/
theorem reach_wait (hm : b.mtx = Mutex.init) (hpc : b.pc i = none) (hcalls : b.entered i < calls i)
    (hc : b.count + 1 ≠ b.tripCount) :
    ReachIf (Barrier.step T) (CallsLeft calls) b
      { b with
        count := b.count + 1
        pc := update b.pc i (some .wait)
        entered := update b.entered i (b.entered i + 1) } := by
  refine (reach_test T calls hm hpc hcalls).trans (reach_of_steps i 5 ?_)
  simp [Trans.run, Barrier.step, Barrier.exec, Barrier.inMutex, Barrier.goto, Mutex.step, Mutex.exec,
    Mutex.goto, Mutex.init, List.replicate, atTest, hc, hm]

/-- The `for` loop of the tripping thread posts the remaining tokens. -/
theorem reach_posted {b : Barrier ι} (k n : Nat) (hpc : b.pc i = some (.post k))
    (hn : k + n = b.tripCount - 1) :
    ReachIf (Barrier.step T) (CallsLeft calls) b ({ b with sem := b.sem + n }.goto i (some .reset)) := by
  induction n generalizing k b with
  | zero =>
    refine reach_of_steps i 1 ?_
    simp [Trans.run, Barrier.step, Barrier.exec, hpc, List.replicate, show ¬ k < b.tripCount - 1 by omega]
  | succ n ih =>
    have hs : b.step T (.step i) = some ({ b with sem := b.sem + 1 }.goto i (some (.post (k + 1)))) := by
      simp [Barrier.step, Barrier.exec, hpc, show k < b.tripCount - 1 by omega]
    refine (ReachIf.single (fun j hj => by cases hj) hs).trans ?_
    have := ih (b := { b with sem := b.sem + 1 }.goto i (some (.post (k + 1)))) (k + 1) (by simp)
      (by simp [Barrier.goto]; omega)
    simpa [Barrier.goto, Nat.add_assoc, Nat.add_comm 1 n] using this

/-- The last arrival posts a token for each of the others and returns. -/
theorem reach_trip (hm : b.mtx = Mutex.init) (hpc : b.pc i = none) (hcalls : b.entered i < calls i)
    (hc : b.count + 1 = b.tripCount) :
    ReachIf (Barrier.step T) (CallsLeft calls) b
      { b with
        sem := b.sem + (b.tripCount - 1)
        count := 0
        entered := update b.entered i (b.entered i + 1)
        returned := update b.returned i (b.returned i + 1) } := by
  refine (reach_test T calls hm hpc hcalls).trans ?_
  have hs : (atTest T b i).step T (.step i) = some ((atTest T b i).goto i (some (.post 0))) := by
    simp [Barrier.step, Barrier.exec, atTest, hc]
  have hposted := reach_posted T calls (b := (atTest T b i).goto i (some (.post 0))) (i := i) 0
    (b.tripCount - 1) (by simp) (by simp [Barrier.goto, atTest])
  refine (ReachIf.single (fun j hj => by cases hj) hs).trans (hposted.trans (reach_of_steps i 5 ?_))
  simp [Trans.run, Barrier.step, Barrier.exec, Barrier.inMutex, Barrier.goto, Barrier.ret, Mutex.step, Mutex.exec,
    Mutex.goto, Mutex.init, List.replicate, atTest, hm, hpc]

/-- A waiting thread takes a token. -/
theorem reach_take (hpc : b.pc i = some .wait) (hs : 0 < b.sem) :
    ReachIf (Barrier.step T) (CallsLeft calls) b ({ b with sem := b.sem - 1 }.ret i) :=
  reach_of_steps i 1 (by simp [Trans.run, Barrier.step, Barrier.exec, hpc, hs, List.replicate])

end solo

/-! ## The rounds run into each other -/

section
variable [Fintype ι] [DecidableEq ι] {calls : ι → Nat}

/-- The threads of `l` have arrived and wait, the barrier has not tripped. -/
def waiting (l : Finset ι) : Barrier ι where
  mtx := Mutex.init
  sem := 0
  tripCount := Fintype.card ι
  count := l.card
  pc := fun i => if i ∈ l then some .wait else none
  entered := fun i => if i ∈ l then 1 else 0
  returned := fun _ => 0

theorem waiting_insert {l : Finset ι} {i : ι} (hi : i ∉ l) :
    { waiting l with
      count := l.card + 1
      pc := update (waiting l).pc i (some .wait)
      entered := update (waiting l).entered i ((waiting l).entered i + 1) } = waiting (insert i l) := by
  have hpc : update (waiting l).pc i (some .wait) = (waiting (insert i l)).pc := by
    funext j
    by_cases e : j = i <;> simp [waiting, Function.update_apply, e]
  have hen : update (waiting l).entered i ((waiting l).entered i + 1) = (waiting (insert i l)).entered := by
    funext j
    by_cases e : j = i <;> simp [waiting, Function.update_apply, e, hi]
  rw [hpc, hen]
  simp [waiting, Finset.card_insert_of_notMem hi]

variable (T)

/-- Any threads but the last can arrive first. -/
theorem reach_waiting (hcalls : ∀ i, 1 ≤ calls i) (l : Finset ι) (hl : l.card < Fintype.card ι) :
    ReachIf (Barrier.step T) (CallsLeft calls) (Barrier.init (Fintype.card ι)) (waiting l) := by
  induction l using Finset.induction_on with
  | empty => exact .refl
  | insert i l hi ih =>
    rw [Finset.card_insert_of_notMem hi] at hl
    have h := reach_wait T calls (b := waiting l) (i := i) rfl (by simp [waiting, hi])
      (by simpa [waiting, hi] using Nat.lt_of_succ_le (hcalls i)) (by simp [waiting]; omega)
    rw [← waiting_insert hi]
    exact (ih (by omega)).trans h

/-- A thread that may call twice trips the barrier, comes back and takes a token of the first round. -/
theorem not_roundsApart (hcalls : ∀ i, 1 ≤ calls i) {a c : ι} (ha : 2 ≤ calls a) (hc : c ≠ a) :
    ∃ b, ReachIf (Barrier.step T) (CallsLeft calls) (Barrier.init (Fintype.card ι)) b ∧ ¬ RoundsApart b := by
  have hN : 2 ≤ Fintype.card ι := Fintype.one_lt_card_iff.2 ⟨c, a, hc⟩
  have hcard : (Finset.univ.erase a).card + 1 = Fintype.card ι := by
    rw [Finset.card_erase_of_mem (Finset.mem_univ a), Finset.card_univ]; omega
  -- everybody else arrives, then `a`, which trips the barrier, arrives again and takes a token
  have h1 := reach_waiting T hcalls (Finset.univ.erase a) (by omega)
  have h2 := reach_trip T calls (b := waiting (Finset.univ.erase a)) (i := a) rfl
    (by simp [waiting]) (by simp [waiting]; omega) (by simpa [waiting] using hcard)
  have h3 := h1.trans h2
  have h4 := h3.trans (reach_wait T calls (i := a) rfl (by simp [waiting]) (by simp [waiting]; omega)
    (by simp [waiting]; omega))
  have h5 := h4.trans (reach_take T calls (i := a) (by simp) (by simp [waiting]; omega))
  refine ⟨_, h5, fun hr => ?_⟩
  have := hr 2 a (by simp [Barrier.ret, waiting]) c
  simp [Barrier.ret, waiting, hc] at this

end

/-! ## The condition -/

section
variable [DecidableEq ι] {calls : ι → Nat} {b : Barrier ι}

theorem entered_le_calls {n : Nat} (h : ReachIf (Barrier.step T) (CallsLeft calls) (Barrier.init n) b) (i : ι) :
    b.entered i ≤ calls i := by
  refine h.inv (I := fun b => b.entered i ≤ calls i) (Nat.zero_le _) fun s op s' _ hle hok hs => ?_
  have hmv := Barrier.move_of_step T hs
  by_cases e : i = op.thread
  · cases op with
    | wait j =>
      obtain rfl : i = j := e
      have hlt := hok i rfl
      cases hmv with
      | enter _ m _ _ => simpa [Barrier.goto] using Nat.succ_le_of_lt hlt
    | step j =>
      cases hmv <;> exact hle
  · rw [(hmv.other T e).2.1]; exact hle

variable [Fintype ι]

theorem usedBarrier_univ (h : ReachIf (Barrier.step T) (CallsLeft calls) (Barrier.init (Fintype.card ι)) b) :
    UsedBarrier T Finset.univ b :=
  usedBarrier_of_reach <| by
    rw [Finset.card_univ]; exact h.mono fun _ _ _ j _ => Finset.mem_univ j

/-- Before all have entered nobody has returned. -/
theorem roundsApart_of_entered_le_one
    (h : ReachIf (Barrier.step T) (CallsLeft calls) (Barrier.init (Fintype.card ι)) b)
    (h1 : (∀ j, 1 ≤ b.entered j) → ∀ i, b.entered i ≤ 1) : RoundsApart b := by
  have U := usedBarrier_univ h
  intro r i hr j
  rcases U.round with F | hent
  · have := F.returned i; omega
  · have hent' : ∀ j, 1 ≤ b.entered j := fun j => hent j (Finset.mem_univ j)
    have := U.inv.balance i
    have := h1 hent' i
    have := hent' j
    omega

end

/-- **When the rounds of a reused barrier stay apart**: with one thread, with a thread that never
calls, or when nobody calls twice. -/
theorem roundsApart_iff [Fintype ι] [DecidableEq ι] (T : Threads ι) (calls : ι → Nat) :
    (∀ b, ReachIf (Barrier.step T) (CallsLeft calls) (Barrier.init (Fintype.card ι)) b → RoundsApart b) ↔
      Fintype.card ι = 1 ∨ (∃ i, calls i = 0) ∨ ∀ i, calls i ≤ 1 := by
  constructor
  · intro hall
    by_contra hno
    simp only [not_or, not_exists, not_forall, not_le] at hno
    obtain ⟨hN, h0, a, ha⟩ := hno
    obtain ⟨c, hc⟩ : ∃ c, c ≠ a := by
      by_contra hc
      exact hN (Fintype.card_eq_one_iff.2 ⟨a, fun c => not_not.1 fun h => hc ⟨c, h⟩⟩)
    obtain ⟨b, hb, hbad⟩ := not_roundsApart T (fun i => Nat.pos_of_ne_zero (h0 i)) ha hc
    exact hbad (hall b hb)
  · rintro (hN | ⟨i, hi⟩ | h1) b hb
    · -- a single thread: its returns are behind its own calls
      obtain ⟨a, ha⟩ := Fintype.card_eq_one_iff.1 hN
      intro r i hr j
      have hbal := (usedBarrier_univ hb).inv.balance i
      rw [ha j, ← ha i]; omega
    · refine roundsApart_of_entered_le_one hb fun hent => ?_
      have := entered_le_calls hb i
      have := hent i
      omega
    · exact roundsApart_of_entered_le_one hb fun _ i => (entered_le_calls hb i).trans (h1 i)

/-- Two threads: thread 1 trips the barrier while thread 0 waits, comes back and takes the token. -/
theorem rounds_run_together :
    ¬ ∀ N, 1 ≤ N → ∀ b : Barrier (Fin N),
      Trans.Reach (Barrier.step (.ofFin N)) (Barrier.init N) b → RoundsApart b := by
  intro hall
  obtain ⟨b, hb, hp⟩ := Trans.exists_reach_of_run (Barrier.step (.ofFin 2)) (Barrier.init 2)
    (.wait 0 :: List.replicate 9 (.step 0) ++ .wait 1 :: List.replicate 12 (.step 1) ++
      .wait 1 :: List.replicate 10 (.step 1))
    (fun b => b.returned 1 == 2 && b.entered 0 == 1) (by decide)
  simp only [Bool.and_eq_true, beq_iff_eq] at hp
  have := hall 2 (by omega) b hb 2 1 (by omega) 0
  omega

end OsLab.A7
