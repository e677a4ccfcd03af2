import OsLab.A7.Exit
import OsLab.Lib.Tally

/-!
# `foothread_barrier` with atomic mutex calls (A7/foothread.c:82-139)

| here | there |
| --- | --- |
| `AtomicMutex`   | `foothread_mutex_t`: the semaphore is 1; it is 0 and `tid` is the holder; the set has been removed |
| `AtomicBarrier` | `foothread_barrier_t`; `semid` is the value of the semaphore, `none` after `IPC_RMID` |
| `WaitPc`, `AtomicBarrier.exec` | the statements of `foothread_barrier_wait` (:120) |

`foothread_mutex_lock` and `foothread_mutex_unlock` are one step each. A semaphore operation on a set that has been
removed fails at once, and nobody looks at its result: it does not block.

`Sound` follows a barrier through any calls of its users, a token for each of them.
-/

namespace OsLab.A7

open Function (update)

inductive AtomicMutex (ι : Type)
  | free | held (i : ι) | removed
deriving DecidableEq

namespace AtomicMutex

variable {ι : Type}

/-- `foothread_mutex_lock` (:87); `none` when the caller blocks. -/
def lock (m : AtomicMutex ι) (i : ι) : Option (AtomicMutex ι) :=
  match m with
  | free => some (held i)
  | held _ => none
  | removed => some removed

/-- `foothread_mutex_unlock` (:92), which only the holder can do. -/
def unlock [DecidableEq ι] (m : AtomicMutex ι) (i : ι) : AtomicMutex ι :=
  match m with
  | free => free
  | held j => if j = i then free else held j
  | removed => removed

theorem lock_eq_none {m : AtomicMutex ι} {i : ι} (h : m.lock i = none) : ∃ j, m = held j := by
  cases m with
  | free => cases h
  | held j => exact ⟨j, rfl⟩
  | removed => cases h

end AtomicMutex

/-- `P` on a set that may have been removed; `none` when the caller blocks. -/
def semTake : Option Nat → Option (Option Nat)
  | none => some none
  | some 0 => none
  | some (v + 1) => some (some v)

/-- The statement a thread is about to execute inside `foothread_barrier_wait`. -/
inductive WaitPc
  | lock | incr | test
  | post (k : Nat) | unlockTrip
  | unlock | wait
deriving DecidableEq, Repr

structure AtomicBarrier (ι : Type) where
  mtx : AtomicMutex ι
  semid : Option Nat
  tripCount : Nat
  count : Nat

namespace AtomicBarrier

variable {ι : Type} [DecidableEq ι]

/-- `foothread_barrier_init` (:111). -/
def init (count : Nat) : AtomicBarrier ι := ⟨.free, some 0, count, 0⟩

/-- `foothread_barrier_destroy` (:137). -/
def destroy (b : AtomicBarrier ι) : AtomicBarrier ι := { b with semid := none }

/-- One step of `foothread_barrier_wait` (:120) by thread `i`; `none` as position: it has returned. -/
def exec (b : AtomicBarrier ι) (i : ι) : WaitPc → Option (AtomicBarrier ι × Option WaitPc)
  | .lock => (b.mtx.lock i).map fun m => ({ b with mtx := m }, some .incr)
  | .incr => some ({ b with count := b.count + 1 }, some .test)
  | .test => some (b, some (if b.count = b.tripCount then .post 0 else .unlock))
  | .post k =>
    if k < b.tripCount - 1 then some ({ b with semid := semV b.semid }, some (.post (k + 1)))
    else some ({ b with count := 0 }, some .unlockTrip)
  | .unlockTrip => some ({ b with mtx := b.mtx.unlock i }, none)
  | .unlock => some ({ b with mtx := b.mtx.unlock i }, some .wait)
  | .wait => (semTake b.semid).map fun v => ({ b with semid := v }, none)

end AtomicBarrier

/-! ## The invariant -/

/-- Between `foothread_mutex_lock` and `foothread_mutex_unlock`. -/
def WaitPc.inside : WaitPc → Bool
  | .incr | .test | .post _ | .unlockTrip | .unlock => true
  | .lock | .wait => false

/-- The calls that have been counted and have no token yet; the one that trips the barrier stands for the tokens it has
posted. -/
def weight : Option WaitPc → Nat
  | some .test | some .unlock | some .wait => 1
  | some (.post k) => k + 1
  | some .lock | some .incr | some .unlockTrip | none => 0

/-- `call` are the calls under way, `arr` counts the calls of each user that have come to `count++`. -/
structure Sound {ι : Type} [Fintype ι] (b : AtomicBarrier ι) (call : ι → Option WaitPc) (arr : ι → Nat) : Prop where
  holder : ∀ i, (∃ c, call i = some c ∧ c.inside = true) ↔ b.mtx = .held i
  kept : b.mtx ≠ .removed
  pos : 0 < b.tripCount
  count : b.count < b.tripCount ∨ b.count = b.tripCount ∧ ∃ i, call i = some .test ∨ ∃ k, call i = some (.post k)
  posting : ∀ i k, call i = some (.post k) → b.count = b.tripCount ∧ k < b.tripCount
  tokens : ∀ v, b.semid = some v → ∑ i, weight (call i) = v + b.count
  arrivals : ∃ r, ∑ i, arr i = b.count + r * b.tripCount
  served : (∃ v, b.semid = some v ∧ 0 < v) ∨ (∃ i, call i = some .unlockTrip) → b.tripCount ≤ ∑ i, arr i

namespace Sound

variable {ι : Type} [Fintype ι] [DecidableEq ι] {b b' : AtomicBarrier ι} {call : ι → Option WaitPc} {arr : ι → Nat}
  {i j : ι} {c d : WaitPc} {c' : Option WaitPc}

omit [DecidableEq ι] in
theorem init {count : Nat} (h : 0 < count) : Sound (AtomicBarrier.init count : AtomicBarrier ι) (fun _ => none) fun _ => 0 where
  holder i := by simp [AtomicBarrier.init]
  kept := by simp [AtomicBarrier.init]
  pos := h
  count := .inl h
  posting i k h := by cases h
  tokens v hv := by
    cases hv
    simp [weight, AtomicBarrier.init]
  arrivals := ⟨0, by simp [AtomicBarrier.init]⟩
  served := by simp [AtomicBarrier.init]

omit [DecidableEq ι] in
/-- The critical section is exclusive. -/
theorem alone (S : Sound b call arr) (hi : call i = some c) (hc : c.inside = true) (hj : call j = some d)
    (hd : d.inside = true) : j = i := by
  have h1 := (S.holder i).1 ⟨c, hi, hc⟩
  have h2 := (S.holder j).1 ⟨d, hj, hd⟩
  rw [h1] at h2
  exact (AtomicMutex.held.inj h2).symm

/-- Inside, and staying there. -/
theorem holder_stay (S : Sound b call arr) (hi : call i = some c) (hc : c.inside = true) (hd : d.inside = true) (j : ι) :
    (∃ e, update call i (some d) j = some e ∧ e.inside = true) ↔ b.mtx = .held j := by
  by_cases hj : j = i
  · subst hj
    exact iff_of_true ⟨d, by simp, hd⟩ ((S.holder j).1 ⟨c, hi, hc⟩)
  · rw [Function.update_of_ne hj]
    exact S.holder j

/-- The holder leaves, and the mutex is free. -/
theorem holder_leave (S : Sound b call arr) (hi : call i = some c) (hc : c.inside = true)
    (hout : ∀ e, c' = some e → e.inside = false) (j : ι) :
    (∃ e, update call i c' j = some e ∧ e.inside = true) ↔ b.mtx.unlock i = .held j := by
  have hheld := (S.holder i).1 ⟨c, hi, hc⟩
  rw [hheld, AtomicMutex.unlock, if_pos rfl]
  refine iff_of_false ?_ (by simp)
  rintro ⟨e, he, hin⟩
  by_cases hj : j = i
  · rw [hj, Function.update_self] at he
    exact absurd (hout e he) (by simp [hin])
  · rw [Function.update_of_ne hj] at he
    exact hj (S.alone hi hc he hin)

theorem tokens_update (S : Sound b call arr) {v : Nat} (hv : b.semid = some v) (i : ι) (c' : Option WaitPc) :
    ∑ j, weight (update call i c' j) + weight (call i) = v + b.count + weight c' := by
  rw [Tally.sum_update (fun _ => weight) call i c', S.tokens v hv]

/-- A user calls `foothread_barrier_wait`. -/
theorem enter (S : Sound b call arr) (hi : call i = none) : Sound b (update call i (some .lock)) arr := by
  have hother : ∀ j d, update call i (some .lock) j = some d → d ≠ .lock → call j = some d := by
    intro j d h hd
    rcases Tally.update_eq_some.1 h with ⟨-, he⟩ | ⟨-, h⟩
    · exact absurd he.symm hd
    · exact h
  have hkeep : ∀ j d, call j = some d → update call i (some .lock) j = some d := by
    intro j d h
    rw [Function.update_of_ne, h]
    rintro rfl
    rw [hi] at h
    cases h
  refine ⟨fun j => ?_, S.kept, S.pos, S.count.imp_right fun h => ⟨h.1, ?_⟩, fun j k h => S.posting j k (hother j _ h (by simp)),
    fun v hv => ?_, S.arrivals, fun h => S.served (h.imp_right ?_)⟩
  · rw [← S.holder j]
    constructor
    · rintro ⟨d, hd, hin⟩
      exact ⟨d, hother j d hd (by rintro rfl; cases hin), hin⟩
    · rintro ⟨d, hd, hin⟩
      exact ⟨d, hkeep j d hd, hin⟩
  · obtain ⟨j, hj | ⟨k, hj⟩⟩ := h.2
    · exact ⟨j, .inl (hkeep j _ hj)⟩
    · exact ⟨j, .inr ⟨k, hkeep j _ hj⟩⟩
  · have hsum := S.tokens_update hv i (some .lock)
    rw [hi] at hsum
    exact hsum
  · rintro ⟨j, hj⟩
    exact ⟨j, hother j _ hj (by simp)⟩

omit [DecidableEq ι] in
/-- `IPC_RMID`. -/
theorem destroy (S : Sound b call arr) : Sound b.destroy call arr := by
  refine ⟨S.holder, S.kept, S.pos, S.count, S.posting, fun v hv => ?_, S.arrivals, fun h => ?_⟩
  · cases hv
  refine S.served (.inr (h.resolve_left ?_))
  rintro ⟨v, hv, -⟩
  cases hv

/-! ### The statements -/

omit [DecidableEq ι] in
/-- Nobody is at its test, or posting, while another thread has the mutex. -/
theorem lt_tripCount (S : Sound b call arr) (h : ∀ j, call j ≠ some .test ∧ ∀ k, call j ≠ some (.post k)) :
    b.count < b.tripCount := by
  refine S.count.resolve_right ?_
  rintro ⟨-, j, hj | ⟨k, hj⟩⟩
  · exact (h j).1 hj
  · exact (h j).2 k hj

omit [DecidableEq ι] in
theorem lt_of_holder (S : Sound b call arr) (hi : call i = some c) (hc : c.inside = true) (htest : c ≠ .test)
    (hpost : ∀ k, c ≠ .post k) : b.count < b.tripCount := by
  refine S.lt_tripCount fun j => ⟨fun hj => ?_, fun k hj => ?_⟩
  · obtain rfl := S.alone hi hc hj rfl
    exact htest (Option.some.inj (hi.symm.trans hj))
  · obtain rfl := S.alone hi hc hj rfl
    exact hpost k (Option.some.inj (hi.symm.trans hj))

/-- Whoever is in the critical section after the step of `i` is `i`. -/
theorem inside_update (S : Sound b call arr) (hi : call i = some c) (hc : c.inside = true)
    (hj : update call i c' j = some d) (hd : d.inside = true) : j = i ∧ c' = some d := by
  by_cases hji : j = i
  · rw [hji, Function.update_self] at hj
    exact ⟨hji, hj⟩
  · rw [Function.update_of_ne hji] at hj
    exact absurd (S.alone hi hc hj hd) hji

theorem lock (S : Sound b call arr) (hi : call i = some .lock) (hfree : b.mtx = .free) :
    Sound { b with mtx := .held i } (update call i (some .incr)) arr := by
  have hout : ∀ j d, call j = some d → d.inside = false := by
    intro j d hj
    by_contra hin
    have := (S.holder j).1 ⟨d, hj, by simpa using hin⟩
    rw [hfree] at this
    cases this
  have hnew : ∀ j d, update call i (some .incr) j = some d → d.inside = true → j = i ∧ d = .incr := by
    intro j d hj hd
    rcases Tally.update_eq_some.1 hj with ⟨hji, he⟩ | ⟨-, hj⟩
    · exact ⟨hji, he.symm⟩
    · exact absurd hd (by simp [hout j d hj])
  have hlt : b.count < b.tripCount := by
    refine S.lt_tripCount fun j => ⟨fun hj => ?_, fun k hj => ?_⟩
    · exact absurd (hout j _ hj) (by decide)
    · exact absurd (hout j _ hj) (by simp [WaitPc.inside])
  refine ⟨fun j => ?_, by simp, S.pos, .inl hlt, fun j k hj => ?_, fun v hv => ?_, S.arrivals, fun h => ?_⟩
  · constructor
    · rintro ⟨d, hj, hd⟩
      rw [(hnew j d hj hd).1]
    · intro h
      obtain rfl : i = j := AtomicMutex.held.inj h
      exact ⟨.incr, by simp, rfl⟩
  · cases (hnew j _ hj rfl).2
  · have hsum := S.tokens_update hv i (some .incr)
    rw [hi] at hsum
    exact hsum
  · refine S.served (h.imp_right ?_)
    rintro ⟨j, hj⟩
    cases (hnew j _ hj rfl).2

theorem incr (S : Sound b call arr) (hi : call i = some .incr) :
    Sound { b with count := b.count + 1 } (update call i (some .test)) (update arr i (arr i + 1)) := by
  have hlt := S.lt_of_holder hi rfl (by simp) (by simp)
  have harr : ∑ j, update arr i (arr i + 1) j = ∑ j, arr j + 1 := by
    have := Tally.sum_update (fun _ => id) arr i (arr i + 1)
    simp only [id] at this
    omega
  refine ⟨S.holder_stay hi rfl rfl, S.kept, S.pos, ?_, fun j k hj => ?_, fun v hv => ?_, ?_, fun h => ?_⟩
  · rcases Nat.lt_or_ge (b.count + 1) b.tripCount with h | h
    · exact .inl h
    · exact .inr ⟨show b.count + 1 = b.tripCount by omega, i, .inl (by simp)⟩
  · cases (S.inside_update hi rfl hj rfl).2
  · have hsum := S.tokens_update hv i (some .test)
    rw [hi] at hsum
    exact hsum
  · obtain ⟨r, hr⟩ := S.arrivals
    exact ⟨r, by rw [harr, hr]; show _ = b.count + 1 + r * b.tripCount; omega⟩
  · rw [harr]
    refine (S.served (h.imp_right ?_)).trans (Nat.le_succ _)
    rintro ⟨j, hj⟩
    cases (S.inside_update hi rfl hj rfl).2

theorem test (S : Sound b call arr) (hi : call i = some .test) :
    Sound b (update call i (some (if b.count = b.tripCount then .post 0 else .unlock))) arr := by
  have hd : (if b.count = b.tripCount then WaitPc.post 0 else .unlock).inside = true := by split_ifs <;> rfl
  refine ⟨S.holder_stay hi rfl hd, S.kept, S.pos, ?_, fun j k hj => ?_, fun v hv => ?_, S.arrivals, fun h => ?_⟩
  · by_cases htrip : b.count = b.tripCount
    · exact .inr ⟨htrip, i, .inr ⟨0, by simp [htrip]⟩⟩
    · exact .inl (by have := S.count; omega)
  · have hj' := (S.inside_update hi rfl hj rfl).2
    split_ifs at hj' with htrip
    · obtain rfl : 0 = k := by simpa using hj'
      exact ⟨htrip, S.pos⟩
    · cases hj'
  · have hsum := S.tokens_update hv i (some (if b.count = b.tripCount then .post 0 else .unlock))
    have hw : weight (some (if b.count = b.tripCount then .post 0 else .unlock)) = 1 := by split_ifs <;> rfl
    rw [hi, hw] at hsum
    exact Nat.add_right_cancel hsum
  · refine S.served (h.imp_right ?_)
    rintro ⟨j, hj⟩
    have hj' := (S.inside_update hi rfl hj rfl).2
    split_ifs at hj' <;> cases hj'

theorem post (S : Sound b call arr) {k : Nat} (hi : call i = some (.post k)) (hk : k < b.tripCount - 1) :
    Sound { b with semid := semV b.semid } (update call i (some (.post (k + 1)))) arr := by
  obtain ⟨htrip, -⟩ := S.posting i k hi
  have harr : b.tripCount ≤ ∑ j, arr j := by
    obtain ⟨r, hr⟩ := S.arrivals
    rw [hr]
    omega
  refine ⟨S.holder_stay hi rfl rfl, S.kept, S.pos, .inr ⟨htrip, i, .inr ⟨k + 1, by simp⟩⟩, fun j l hj => ?_,
    fun v hv => ?_, S.arrivals, fun _ => harr⟩
  · obtain rfl : k + 1 = l := by simpa using (S.inside_update hi rfl hj rfl).2
    exact ⟨htrip, show k + 1 < b.tripCount by omega⟩
  · obtain ⟨w, hw, rfl⟩ := Option.map_eq_some_iff.1 hv
    have hsum := S.tokens_update hw i (some (.post (k + 1)))
    rw [hi] at hsum
    have hsum' : ∑ j, weight (update call i (some (.post (k + 1))) j) + (k + 1) = w + b.count + (k + 1 + 1) := hsum
    show _ = w + 1 + b.count
    omega

theorem trip (S : Sound b call arr) {k : Nat} (hi : call i = some (.post k)) (hk : ¬ k < b.tripCount - 1) :
    Sound { b with count := 0 } (update call i (some .unlockTrip)) arr := by
  obtain ⟨htrip, hlt⟩ := S.posting i k hi
  obtain ⟨r, hr⟩ := S.arrivals
  refine ⟨S.holder_stay hi rfl rfl, S.kept, S.pos, .inl S.pos, fun j l hj => ?_, fun v hv => ?_,
    ⟨r + 1, ?_⟩, fun _ => ?_⟩
  · cases (S.inside_update hi rfl hj rfl).2
  · have hsum := S.tokens_update hv i (some .unlockTrip)
    rw [hi] at hsum
    have hsum' : ∑ j, weight (update call i (some .unlockTrip) j) + (k + 1) = v + b.count + 0 := hsum
    show _ = v + 0
    omega
  · rw [hr, htrip]
    show _ = 0 + (r + 1) * b.tripCount
    rw [Nat.add_mul]
    omega
  · rw [hr]
    show b.tripCount ≤ _
    omega

theorem unlockTrip (S : Sound b call arr) (hi : call i = some .unlockTrip) :
    Sound { b with mtx := b.mtx.unlock i } (update call i none) arr ∧ b.tripCount ≤ ∑ j, arr j := by
  have harr := S.served (.inr ⟨i, hi⟩)
  have hlt := S.lt_of_holder hi rfl (by simp) (by simp)
  refine ⟨⟨S.holder_leave hi rfl (by simp), ?_, S.pos, .inl hlt, fun j k hj => ?_, fun v hv => ?_, S.arrivals,
    fun _ => harr⟩, harr⟩
  · rw [(S.holder i).1 ⟨_, hi, rfl⟩]
    simp [AtomicMutex.unlock]
  · cases (S.inside_update hi rfl hj rfl).2
  · have hsum := S.tokens_update hv i none
    rw [hi] at hsum
    exact hsum

theorem unlock (S : Sound b call arr) (hi : call i = some .unlock) :
    Sound { b with mtx := b.mtx.unlock i } (update call i (some .wait)) arr := by
  have hlt := S.lt_of_holder hi rfl (by simp) (by simp)
  refine ⟨S.holder_leave hi rfl (by simp [WaitPc.inside]), ?_, S.pos, .inl hlt, fun j k hj => ?_, fun v hv => ?_, S.arrivals,
    fun h => S.served (h.imp_right ?_)⟩
  · rw [(S.holder i).1 ⟨_, hi, rfl⟩]
    simp [AtomicMutex.unlock]
  · cases (S.inside_update hi rfl hj rfl).2
  · have hsum := S.tokens_update hv i (some .wait)
    rw [hi] at hsum
    exact Nat.add_right_cancel hsum
  · rintro ⟨j, hj⟩
    cases (S.inside_update hi rfl hj rfl).2

/-- A token is taken, or the set has been removed. -/
theorem wait (S : Sound b call arr) (hi : call i = some .wait) {v : Option Nat} (hv : semTake b.semid = some v) :
    Sound { b with semid := v } (update call i none) arr ∧ (b.semid ≠ none → b.tripCount ≤ ∑ j, arr j) := by
  have hother : ∀ j d, update call i none j = some d → call j = some d := by
    intro j d hj
    by_cases hji : j = i
    · rw [hji, Function.update_self] at hj
      cases hj
    · rwa [Function.update_of_ne hji] at hj
  have hkeep : ∀ j d, call j = some d → d ≠ .wait → update call i none j = some d := by
    intro j d hj hd
    rw [Function.update_of_ne, hj]
    rintro rfl
    exact hd (Option.some.inj (hj.symm.trans hi))
  -- there is a token only after the first round
  have hserved : ∀ w, b.semid = some w → 0 < w ∧ v = some (w - 1) := by
    intro w hw
    rw [hw] at hv
    cases w with
    | zero => cases hv
    | succ w => exact ⟨Nat.succ_pos w, (Option.some.inj hv).symm⟩
  have harr : b.semid ≠ none → b.tripCount ≤ ∑ j, arr j := by
    intro hne
    obtain ⟨w, hw⟩ := Option.ne_none_iff_exists'.1 hne
    exact S.served (.inl ⟨w, hw, (hserved w hw).1⟩)
  refine ⟨⟨fun j => ?_, S.kept, S.pos, S.count.imp_right fun h => ⟨h.1, ?_⟩, fun j k hj => S.posting j k (hother j _ hj),
    fun w hw => ?_, S.arrivals, fun h => ?_⟩, harr⟩
  · rw [← S.holder j]
    constructor
    · rintro ⟨d, hd, hin⟩
      exact ⟨d, hother j d hd, hin⟩
    · rintro ⟨d, hd, hin⟩
      exact ⟨d, hkeep j d hd (by rintro rfl; cases hin), hin⟩
  · obtain ⟨j, hj | ⟨k, hj⟩⟩ := h.2
    · exact ⟨j, .inl (hkeep j _ hj (by simp))⟩
    · exact ⟨j, .inr ⟨k, hkeep j _ hj (by simp)⟩⟩
  · obtain rfl : v = some w := hw
    cases hb : b.semid with
    | none =>
      rw [hb] at hv
      cases hv
    | some u =>
      obtain ⟨hpos, hu⟩ := hserved u hb
      obtain rfl : w = u - 1 := Option.some.inj hu
      have hsum := S.tokens_update hb i none
      rw [hi] at hsum
      have hsum' : ∑ j, weight (update call i none j) + 1 = u + b.count + 0 := hsum
      show _ = u - 1 + b.count
      omega
  · cases hb : b.semid with
    | some u => exact harr (by simp [hb])
    | none =>
      rw [hb] at hv
      obtain rfl : v = none := (Option.some.inj hv).symm
      rcases h with ⟨w, hw, -⟩ | ⟨j, hj⟩
      · cases hw
      · exact S.served (.inr ⟨j, hother j _ hj⟩)

/-- A step of `foothread_barrier_wait`. When the call returns, all its users have arrived, or the set is gone. -/
theorem exec (S : Sound b call arr) (hi : call i = some c) (h : b.exec i c = some (b', c')) :
    Sound b' (update call i c') (if c = .incr then update arr i (arr i + 1) else arr) ∧ b'.tripCount = b.tripCount ∧
      (b'.semid = none ↔ b.semid = none) ∧ (c' = none → b.semid ≠ none → b.tripCount ≤ ∑ j, arr j) := by
  cases c with
  | lock =>
    obtain ⟨m, hm, he⟩ := Option.map_eq_some_iff.1 h
    cases he
    cases hmtx : b.mtx with
    | free =>
      rw [hmtx] at hm
      obtain rfl : AtomicMutex.held i = m := Option.some.inj hm
      exact ⟨S.lock hi hmtx, rfl, Iff.rfl, by simp⟩
    | held j =>
      rw [hmtx] at hm
      cases hm
    | removed => exact absurd hmtx S.kept
  | incr => cases h; exact ⟨S.incr hi, rfl, Iff.rfl, by simp⟩
  | test => cases h; exact ⟨S.test hi, rfl, Iff.rfl, by simp⟩
  | post k =>
    rw [AtomicBarrier.exec] at h
    split at h
    · cases h
      exact ⟨S.post hi (by assumption), rfl, by simp [semV], by simp⟩
    · cases h
      exact ⟨S.trip hi (by assumption), rfl, Iff.rfl, by simp⟩
  | unlockTrip => cases h; exact ⟨(S.unlockTrip hi).1, rfl, Iff.rfl, fun _ _ => (S.unlockTrip hi).2⟩
  | unlock => cases h; exact ⟨S.unlock hi, rfl, Iff.rfl, by simp⟩
  | wait =>
    obtain ⟨v, hv, he⟩ := Option.map_eq_some_iff.1 h
    cases he
    refine ⟨(S.wait hi hv).1, rfl, ?_, fun _ => (S.wait hi hv).2⟩
    show v = none ↔ b.semid = none
    cases hb : b.semid with
    | none =>
      rw [hb] at hv
      exact iff_of_true (Option.some.inj hv).symm rfl
    | some w =>
      rw [hb] at hv
      cases w with
      | zero => cases hv
      | succ w => exact iff_of_false (by rw [← Option.some.inj hv]; simp) (by simp)

/-! ### Callers that block each other -/

/-- When no caller can go on, they all wait for a token, there is none, and they are as many as `count` says. -/
theorem blocked (S : Sound b call arr) (h : ∀ i c, call i = some c → b.exec i c = none) :
    (∀ i c, call i = some c → c = .wait ∧ b.semid = some 0) ∧ b.count < b.tripCount := by
  have hcases : ∀ i c, call i = some c → c = .wait ∧ b.semid = some 0 ∨ c = .lock ∧ ∃ j, b.mtx = .held j := by
    intro i c hi
    have hnone := h i c hi
    cases c with
    | lock => exact .inr ⟨rfl, AtomicMutex.lock_eq_none (Option.map_eq_none_iff.1 hnone)⟩
    | wait =>
      refine .inl ⟨rfl, ?_⟩
      have hv := Option.map_eq_none_iff.1 hnone
      cases hb : b.semid with
      | none => rw [hb] at hv; cases hv
      | some v =>
        cases v with
        | zero => rfl
        | succ v => rw [hb] at hv; cases hv
    | post k =>
      rw [AtomicBarrier.exec] at hnone
      split at hnone <;> cases hnone
    | _ => cases hnone
  have hout : ∀ i c, call i = some c → c.inside = false := by
    intro i c hi
    rcases hcases i c hi with ⟨rfl, -⟩ | ⟨rfl, -⟩ <;> rfl
  have hfree : ∀ j, b.mtx ≠ .held j := by
    intro j hj
    obtain ⟨c, hc, hin⟩ := (S.holder j).2 hj
    exact absurd hin (by simp [hout j c hc])
  refine ⟨fun i c hi => ?_, S.lt_tripCount fun j => ⟨fun hj => ?_, fun k hj => ?_⟩⟩
  · refine (hcases i c hi).resolve_right ?_
    rintro ⟨-, j, hj⟩
    exact hfree j hj
  · exact absurd (hout j _ hj) (by decide)
  · exact absurd (hout j _ hj) (by simp [WaitPc.inside])

end Sound

end OsLab.A7
