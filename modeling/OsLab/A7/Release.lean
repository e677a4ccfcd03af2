import OsLab.A7.Mutex

/-!
# Lost releases of `foothread_mutex` (A7/foothread.c:88-105)

Threads that alternate `foothread_mutex_lock` and `foothread_mutex_unlock`. `locked i` says that the
last call of thread `i` was a `lock`.

`foothread_mutex_unlock` clears `tid` after its `V` (:103-104). Between the two another thread can
lock the mutex and store its own tid; the late `tid = 0` then wipes that out, the new owner's
`unlock` fails its check (:94) and returns without a `V`. `ClearsOwn` excludes exactly these steps:
without them no release is lost (`release_of_clearsOwn`), and after any one of them a release can be
lost (`lost_of_not_clearsOwn`).
-/

namespace OsLab.A7

open Function (update)

structure Client (ι : Type) where
  mtx : Mutex ι
  locked : ι → Bool

namespace Client

def init {ι : Type} : Client ι := ⟨Mutex.init, fun _ => false⟩

variable {ι : Type} [DecidableEq ι] (T : Threads ι)

/-- A thread calls `lock` and `unlock` in turn. -/
def step (c : Client ι) : MutexOp ι → Option (Client ι)
  | .lock i =>
    if c.locked i = false then (c.mtx.step T (.lock i)).map (⟨·, update c.locked i true⟩) else none
  | .unlock i =>
    if c.locked i = true then (c.mtx.step T (.unlock i)).map (⟨·, update c.locked i false⟩) else none
  | .step i => (c.mtx.step T (.step i)).map (⟨·, c.locked⟩)

/-- Every `unlock` of the holder executes its `V`. -/
structure ReleasesHeld (c : Client ι) : Prop where
  /-- The holder's `unlock` passes the owner check -/
  check : ∀ i, c.mtx.holds i = true → c.mtx.pc i = some .unlockLoad → c.mtx.tid = T.gettid i
  /-- and the `GETVAL` check, -/
  getval : ∀ i, c.mtx.holds i = true → c.mtx.pc i = some .unlockGetval → c.mtx.sem ≠ 1
  /-- so a holder outside every call has not returned from an `unlock`, -/
  kept : ∀ i, c.mtx.holds i = true → c.mtx.pc i = none → c.locked i = true
  /-- and behind a locked mutex there is a thread in its critical section or in a call. -/
  inside : c.mtx.sem = 0 → ∃ i, c.mtx.holds i = true ∧ (c.locked i = true ∨ c.mtx.pc i ≠ none)

/-- The condition on a step: a thread at `tid = 0` may take it unless `tid` by now names another
thread that has not yet passed the owner check of its own `unlock`. -/
def ClearsOwn (c : Client ι) (op : MutexOp ι) : Prop :=
  ∀ i j, op = .step i → c.mtx.pc i = some .unlockClear → j ≠ i → c.mtx.tid = T.gettid j →
    c.mtx.pc j = some .unlockGetval ∨ c.mtx.pc j = some .unlockV ∨ c.mtx.pc j = some .unlockClear

/-- Where an alternating thread stands while every step meets `ClearsOwn`: its position, the last
call it made, whether it holds the mutex, whether `tid` names it. -/
def Placed : Option MutexPc → (locked holds : Bool) → (own : Prop) → Prop
  | none, false, holds, _ => holds = false
  | none, true, holds, own => holds = true ∧ own
  | some .lockP, locked, holds, _ => locked = true ∧ holds = false
  | some .lockStore, locked, _, own => locked = true ∧ ¬ own
  | some .unlockLoad, locked, holds, own => locked = false ∧ holds = true ∧ own
  | some .unlockGetval, locked, _, _ | some .unlockV, locked, _, _ => locked = false
  | some .unlockClear, locked, _, _ => locked = false

structure Inv (c : Client ι) : Prop where
  mtx : MutexInv T c.mtx
  placed : ∀ i, Placed (c.mtx.pc i) (c.locked i) (c.mtx.holds i) (c.mtx.tid = T.gettid i)

variable {T} {c c' : Client ι}

omit [DecidableEq ι] in
theorem Inv.init (T : Threads ι) : Inv T (Client.init : Client ι) := ⟨MutexInv.init T, fun _ => rfl⟩

/-- A client's step is a step of the mutex, with `locked` moved by the calls. -/
theorem mtx_step {op : MutexOp ι} (h : c.step T op = some c') : c.mtx.step T op = some c'.mtx ∧
    (∀ i, op = .lock i → c.locked i = false ∧ c'.locked = update c.locked i true) ∧
    (∀ i, op = .unlock i → c.locked i = true ∧ c'.locked = update c.locked i false) ∧
    (∀ i, op = .step i → c'.locked = c.locked) := by
  cases op with
  | lock i | unlock i =>
    simp only [step, Option.ite_none_right_eq_some, Option.map_eq_some_iff] at h
    obtain ⟨hl, m, hm, rfl⟩ := h
    exact ⟨hm, by simp [hl], by simp [hl], by simp⟩
  | step i =>
    simp only [step, Option.map_eq_some_iff] at h
    obtain ⟨m, hm, rfl⟩ := h
    exact ⟨hm, by simp, by simp, by simp⟩

omit [DecidableEq ι] in
/-- A thread at `lockP` is not named by `tid`: it neither holds the mutex nor is it at `tid = 0`. -/
theorem Inv.not_own (I : Inv T c) {i : ι} (hpc : c.mtx.pc i = some .lockP) : c.mtx.tid ≠ T.gettid i := by
  intro ht
  have hp := I.placed i
  simp only [hpc, Placed] at hp
  rcases I.mtx.owner i ht with h | h
  · rw [hp.2] at h; cases h
  · rw [hpc] at h; cases h

/-- Only a holder in its critical section or at the owner check needs `tid` to name it, and only a
thread at `lockStore` needs it not to. -/
theorem Placed.of_own {p : Option MutexPc} {l h : Bool} {own own' : Prop} (hp : Placed p l h own)
    (hneed : h = true → p = none ∨ p = some .unlockLoad → own → own') (hstore : own' → own) :
    Placed p l h own' := by
  cases p with
  | none =>
    cases l with
    | false => exact hp
    | true => exact ⟨hp.1, hneed hp.1 (.inl rfl) hp.2⟩
  | some p =>
    cases p with
    | lockP => exact hp
    | lockStore => exact ⟨hp.1, fun h => hp.2 (hstore h)⟩
    | unlockLoad => exact ⟨hp.1, hp.2.1, hneed hp.2.1 (.inr rfl) hp.2.2⟩
    | unlockGetval | unlockV | unlockClear => exact hp

/-- The thread that moves. -/
theorem Inv.step_self (I : Inv T c) {op : MutexOp ι} (h : c.step T op = some c') {j : ι} (e : j = op.thread) :
    Placed (c'.mtx.pc j) (c'.locked j) (c'.mtx.holds j) (c'.mtx.tid = T.gettid j) := by
  obtain ⟨hm, hlock, hunlock, hstep⟩ := mtx_step h
  have hj := I.placed j
  have hmv := Mutex.move_of_step T hm
  generalize c'.mtx = m' at hmv ⊢
  cases hmv with
  | lock i hpc =>
    obtain ⟨hl, hl'⟩ := hlock i rfl
    obtain rfl : j = i := e
    rw [hpc, hl] at hj
    simp [hl', Placed]; exact hj
  | unlock i hpc =>
    obtain ⟨hl, hl'⟩ := hunlock i rfl
    obtain rfl : j = i := e
    rw [hpc, hl] at hj
    simp [hl', Placed]; exact hj
  | acquire i hpc hs =>
    obtain rfl : j = i := e
    have := I.not_own hpc
    rw [hpc] at hj
    simp [hstep j rfl, Placed, hj.1, this]
  | storeTid i hpc =>
    obtain rfl : j = i := e
    have := I.mtx.lockStore j hpc
    rw [hpc] at hj
    simp [hstep j rfl, Placed, hj.1, this]
  | notOwner i hpc ht =>
    obtain rfl : j = i := e
    rw [hpc] at hj
    exact absurd hj.2.2 ht
  | isOwner i hpc ht | stillLocked i hpc ht =>
    obtain rfl : j = i := e
    rw [hpc] at hj
    simp [hstep j rfl, Placed]
    first | exact hj.1 | exact hj
  | alreadyUnlocked i hpc hs =>
    have := I.mtx.sem_of_holds (I.mtx.getval i hpc)
    omega
  | release i hpc =>
    obtain rfl : j = i := e
    rw [hpc] at hj
    simp [hstep j rfl, Placed]; exact hj
  | clearTid i hpc =>
    obtain rfl : j = i := e
    have := I.mtx.clear j hpc
    rw [hpc] at hj
    simp [hstep j rfl, Placed, this]
    rw [show c.locked j = false from hj]

/-- Another thread: at most `tid` has changed under it. -/
theorem Inv.step_other (I : Inv T c) {op : MutexOp ι} (hok : ClearsOwn T c op) (h : c.step T op = some c') {j : ι}
    (e : j ≠ op.thread) : Placed (c'.mtx.pc j) (c'.locked j) (c'.mtx.holds j) (c'.mtx.tid = T.gettid j) := by
  obtain ⟨hm, hlock, hunlock, hstep⟩ := mtx_step h
  have hj := I.placed j
  have hmv := Mutex.move_of_step T hm
  obtain ⟨hpc', hh'⟩ := hmv.other T e
  have hl' : c'.locked j = c.locked j := by
    cases op with
    | lock i => rw [(hlock i rfl).2]; exact Function.update_of_ne e _ _
    | unlock i => rw [(hunlock i rfl).2]; exact Function.update_of_ne e _ _
    | step i => rw [hstep i rfl]
  rw [hpc', hh', hl']
  rcases hmv.tid T with ht | ⟨i, rfl, ⟨hpc, ht⟩ | ⟨hpc, ht⟩⟩
  · rw [ht]; exact hj
  · -- the storing thread holds the mutex, so `j` does not
    have hi := I.mtx.lockStore i hpc
    refine hj.of_own (fun hh _ _ => absurd (I.mtx.excl j i hh hi) e) (fun h => ?_)
    rw [ht] at h; exact absurd (T.inj h).symm e
  · -- `ClearsOwn`: nobody who still needs `tid` is named by it
    refine hj.of_own (fun _ hpj hown => ?_) (fun h => ?_)
    · rcases hok i j rfl hpc e hown with h | h | h <;> rcases hpj with hpj | hpj <;> rw [hpj] at h <;> cases h
    · rw [ht] at h; exact absurd h.symm (T.ne_zero j)

/-- **Steps that meet `ClearsOwn` keep every thread in place.** -/
theorem Inv.step (I : Inv T c) {op : MutexOp ι} (hok : ClearsOwn T c op) (h : c.step T op = some c') :
    Inv T c' := by
  refine ⟨I.mtx.step (mtx_step h).1, fun j => ?_⟩
  by_cases e : j = op.thread
  · exact I.step_self h e
  · exact I.step_other hok h e

theorem Inv.of_reach (h : Trans.ReachIf (Client.step T) (ClearsOwn T) Client.init c) : Inv T c :=
  h.inv (.init T) fun _ _ _ _ I hok hs => I.step hok hs

omit [DecidableEq ι] in
theorem Inv.releasesHeld (I : Inv T c) : ReleasesHeld T c := by
  have kept : ∀ i, c.mtx.holds i = true → c.mtx.pc i = none → c.locked i = true := by
    intro i hh hpc
    have hp := I.placed i
    cases hl : c.locked i with
    | true => rfl
    | false => rw [hpc, hl, hh] at hp; cases hp
  refine ⟨fun i _ hpc => ?_, fun i hh _ => ?_, kept, fun h0 => ?_⟩
  · have hp := I.placed i
    rw [hpc] at hp
    exact hp.2.2
  · have := I.mtx.sem_of_holds hh
    omega
  · rcases I.mtx.free with ⟨h1, _⟩ | ⟨_, i, hi⟩
    · omega
    · refine ⟨i, hi, ?_⟩
      by_cases hpc : c.mtx.pc i = none
      · exact .inl (kept i hi hpc)
      · exact .inr hpc

/-! ## After a step that breaks the condition -/

/-- From a state where `tid` is `0` although thread `j` holds the mutex and still has to unlock it,
`j` can return from its `unlock` with the mutex locked for good. -/
theorem lost_of_cleared {j : ι} (h0 : c.mtx.tid = 0) (hh : c.mtx.holds j = true)
    (hpc : (c.mtx.pc j = none ∧ c.locked j = true) ∨ (c.mtx.pc j = some .unlockLoad ∧ c.locked j = false)) :
    ∃ c', Trans.Reach (Client.step T) c c' ∧ ¬ ReleasesHeld T c' := by
  have hne : (0 : Nat) ≠ T.gettid j := (T.ne_zero j).symm
  -- the owner check itself already fails
  have hload : ∀ d : Client ι, d.mtx.tid = 0 → d.mtx.holds j = true → d.mtx.pc j = some .unlockLoad →
      ¬ ReleasesHeld T d := fun d hd hdh hdpc R => hne (hd ▸ R.check j hdh hdpc)
  rcases hpc with ⟨hpc, hl⟩ | ⟨hpc, _⟩
  · have hs : Client.step T c (.unlock j) =
        some ⟨c.mtx.goto j (some .unlockLoad), update c.locked j false⟩ := by
      simp [Client.step, Mutex.step, hpc, hl]
    exact ⟨_, Trans.ReachIf.single trivial hs, hload _ h0 hh (by simp)⟩
  · exact ⟨c, .refl, hload c h0 hh hpc⟩

/-- A `tid = 0` that breaks `ClearsOwn` wipes out the tid of a thread that still has to unlock. -/
theorem lost_of_not_clearsOwn (I : Inv T c) {op : MutexOp ι} (hno : ¬ ClearsOwn T c op)
    (h : c.step T op = some c') : ∃ d, Trans.Reach (Client.step T) c' d ∧ ¬ ReleasesHeld T d := by
  simp only [ClearsOwn, not_forall, not_or] at hno
  obtain ⟨i, j, rfl, hpc, hne, ht, hj1, hj2, hj3⟩ := hno
  simp only [Client.step, Mutex.step, hpc, Option.bind_some, Mutex.exec, Option.map_some,
    Option.some.injEq] at h
  subst h
  have hh : c.mtx.holds j = true := (I.mtx.owner j ht).resolve_right hj3
  have hp := I.placed j
  refine lost_of_cleared (j := j) rfl hh ?_
  simp only [Mutex.goto_pc, hne, if_false]
  cases hpj : c.mtx.pc j with
  | none =>
    refine .inl ⟨rfl, ?_⟩
    cases hl : c.locked j with
    | true => rfl
    | false => rw [hpj, hl, hh] at hp; cases hp
  | some p =>
    rw [hpj, hh] at hp
    cases p with
    | lockP => exact absurd hp.2 (by simp)
    | lockStore => exact absurd ht hp.2
    | unlockLoad => exact .inr ⟨rfl, hp.1⟩
    | unlockGetval => exact absurd hpj hj1
    | unlockV => exact absurd hpj hj2
    | unlockClear => exact absurd hpj hj3

end Client

open Client in
/-- **No release is lost while every step meets `ClearsOwn`**, and a release can be lost after any
step that does not. -/
theorem release_iff_clearsOwn {ι : Type} [DecidableEq ι] (T : Threads ι) {c : Client ι}
    (h : Trans.ReachIf (Client.step T) (ClearsOwn T) Client.init c) :
    ReleasesHeld T c ∧
    ∀ op c', c.step T op = some c' → ¬ ClearsOwn T c op →
      ∃ d, Trans.Reach (Client.step T) c' d ∧ ¬ ReleasesHeld T d :=
  have I := Inv.of_reach h
  ⟨I.releasesHeld, fun _ _ hs hno => lost_of_not_clearsOwn I hno hs⟩

instance {n : Nat} (T : Threads (Fin n)) (c : Client (Fin n)) (op : MutexOp (Fin n)) :
    Decidable (c.ClearsOwn T op) := by
  unfold Client.ClearsOwn; infer_instance

/-- Thread 1 waits for the mutex; thread 0 runs through its `unlock` before it gets it. -/
theorem release_iff_clearsOwn_handover :
    ∃ c, Trans.Reach (Client.step (.ofFin 2)) Client.init c ∧ c.mtx.holds 1 = true ∧
      c.ReleasesHeld (.ofFin 2) := by
  obtain ⟨c, hc, hh⟩ := Trans.exists_reachIf_of_run (Client.step (.ofFin 2)) (Client.ClearsOwn (.ofFin 2))
    Client.init
    [.lock 0, .step 0, .step 0, .lock 1, .unlock 0, .step 0, .step 0, .step 0, .step 0, .step 1, .step 1]
    (fun c => c.mtx.holds 1) (by decide)
  exact ⟨c, hc.reach, hh, (release_iff_clearsOwn (.ofFin 2) hc).1⟩

/-- Thread 1 locks the mutex between the `V` and the `tid = 0` of thread 0: its own `unlock` then
returns without a `V`. -/
theorem lost_release :
    ¬ ∀ c : Client (Fin 2), Trans.Reach (Client.step (.ofFin 2)) Client.init c → c.ReleasesHeld (.ofFin 2) := by
  intro hall
  obtain ⟨c, hc, hp⟩ := Trans.exists_reach_of_run (Client.step (.ofFin 2)) Client.init
    [.lock 0, .step 0, .step 0, .unlock 0, .step 0, .step 0, .step 0,
     .lock 1, .step 1, .step 1, .step 0, .unlock 1, .step 1]
    (fun c => c.mtx.holds 1 && c.mtx.pc 1 == none && !c.locked 1) (by decide)
  simp only [Bool.and_eq_true, beq_iff_eq, Bool.not_eq_true'] at hp
  have := (hall c hc).kept 1 hp.1.1 hp.1.2
  rw [hp.2] at this; cases this

end OsLab.A7
