import Mathlib.Data.Finset.Card
import Mathlib.Data.Finset.Range
import OsLab.Lib.Trans

/-!
# `foothread_create` and `foothread_exit` (A7/foothread.c:25-80)

| here | there |
| --- | --- |
| `Shared`          | the globals `mtx`, `exit_sem` (`none` = -1, otherwise the semaphore's value), `num_threads`, `exited_threads` |
| `JoinType`        | `attr->join_type` of a `foothread_create` call |
| `foothreadCreate` | the statements of `foothread_create` (:35-53) |
| `foothreadExit`   | the statements of `foothread_exit` (:58-79) |

A program is the list of the threads `main` creates. `main` calls `foothread_create` for each of them
in turn and then `foothread_exit`; a thread exists from its `clone` on and calls `foothread_exit` at
any time after that. Semaphore operations, loads and stores interleave freely.

`num_threads` counts the joinable threads, `exited_threads` every caller of `foothread_exit`, `main`
included. So `main` and all but one of the joinable threads already make up the number the last
caller waits for: `main_returns_early` holds for every program with a joinable thread.
-/

namespace OsLab.A7

open Function (update)

/-- `FOOTHREAD_JOINABLE`, `FOOTHREAD_DETACHED`. -/
inductive JoinType
  | joinable | detached
deriving DecidableEq, Repr

structure Shared where
  mtx : Option Nat
  exitSem : Option Nat
  numThreads : Nat
  exitedThreads : Nat
deriving DecidableEq, Repr

/-- `P` on a semaphore that may not exist yet; `none` when the caller blocks. -/
def semP : Option Nat → Option (Option Nat)
  | some (n + 1) => some (some n)
  | _ => none

theorem semP_some {s m : Option Nat} (h : semP s = some m) : ∃ v, s = some (v + 1) ∧ m = some v := by
  rcases s with _ | _ | v
  · cases h
  · cases h
  · exact ⟨v, rfl, (Option.some.inj h).symm⟩

theorem semP_eq_none {s : Option Nat} : semP s = none ↔ s.getD 0 = 0 := by
  rcases s with _ | _ | v <;> simp [semP]

/-- `V`. -/
def semV (s : Option Nat) : Option Nat := s.map (· + 1)

inductive CreatePc
  | checkMtx | checkSem | lock | count | clone | unlock
deriving DecidableEq, Repr

inductive ExitPc
  | checkMtx | checkSem | lock | incr | test
  | unlockWait | wait
  | unlockPost | post (i : Nat)
  | done
deriving DecidableEq, Repr

/-- One statement of `foothread_create` (:35-53); `none` as position: it has returned. The thread
itself is started by the caller of this function, at `.clone`. -/
def foothreadCreate (ty : JoinType) (s : Shared) : CreatePc → Option (Shared × Option CreatePc)
  | .checkMtx => some ({ s with mtx := if s.mtx = none then some 1 else s.mtx }, some .checkSem)
  | .checkSem => some ({ s with exitSem := if s.exitSem = none then some 0 else s.exitSem }, some .lock)
  | .lock => (semP s.mtx).map fun m => ({ s with mtx := m }, some .count)
  | .count => some ({ s with numThreads := if ty = .joinable then s.numThreads + 1 else s.numThreads }, some .clone)
  | .clone => some (s, some .unlock)
  | .unlock => some ({ s with mtx := semV s.mtx }, none)

/-- One statement of `foothread_exit` (:58-79). -/
def foothreadExit (s : Shared) : ExitPc → Option (Shared × ExitPc)
  | .checkMtx => some ({ s with mtx := if s.mtx = none then some 1 else s.mtx }, .checkSem)
  | .checkSem => some ({ s with exitSem := if s.exitSem = none then some 0 else s.exitSem }, .lock)
  | .lock => (semP s.mtx).map fun m => ({ s with mtx := m }, .incr)
  | .incr => some ({ s with exitedThreads := s.exitedThreads + 1 }, .test)
  | .test => some (s, if s.exitedThreads ≠ s.numThreads then .unlockWait else .unlockPost)
  | .unlockWait => some ({ s with mtx := semV s.mtx }, .wait)
  | .wait => (semP s.exitSem).map fun e => ({ s with exitSem := e }, .done)
  | .unlockPost => some ({ s with mtx := semV s.mtx }, .post 0)
  | .post i =>
    some (if i < s.numThreads then ({ s with exitSem := semV s.exitSem }, .post (i + 1)) else (s, .done))
  | .done => none

inductive MainPc
  | create (k : Nat) (p : CreatePc) | exit (p : ExitPc)
deriving DecidableEq, Repr

inductive ThreadPc
  | unborn | running | exit (p : ExitPc)
deriving DecidableEq, Repr

structure ExitSys where
  sh : Shared
  main : MainPc
  thr : Nat → ThreadPc

inductive Actor
  | main | thread (t : Nat)
deriving DecidableEq, Repr

namespace ExitSys

/-- Where `main` stands before its `k`-th create, or before its `foothread_exit` when there is none. -/
def mainAt (prog : List JoinType) (k : Nat) : MainPc :=
  if k < prog.length then .create k .checkMtx else .exit .checkMtx

def init (prog : List JoinType) : ExitSys := ⟨⟨none, none, 0, 0⟩, mainAt prog 0, fun _ => .unborn⟩

/-- One step of `main`. -/
def stepMain (prog : List JoinType) (s : ExitSys) : Option ExitSys :=
  match s.main with
  | .create k p =>
    (prog[k]?).bind fun ty => (foothreadCreate ty s.sh p).map fun (sh, p') =>
      { sh := sh
        main := match p' with
          | some p' => .create k p'
          | none => mainAt prog (k + 1)
        thr := if p = .clone then update s.thr k .running else s.thr }
  | .exit p => (foothreadExit s.sh p).map fun (sh, p') => { s with sh := sh, main := .exit p' }

/-- One step of thread `t`; a running thread may call `foothread_exit`. -/
def stepThread (s : ExitSys) (t : Nat) : Option ExitSys :=
  match s.thr t with
  | .unborn => none
  | .running => some { s with thr := update s.thr t (.exit .checkMtx) }
  | .exit p => (foothreadExit s.sh p).map fun (sh, p') => { s with sh := sh, thr := update s.thr t (.exit p') }

def step (prog : List JoinType) (s : ExitSys) : Actor → Option ExitSys
  | .main => s.stepMain prog
  | .thread t => s.stepThread t

section
variable {prog : List JoinType} {s s' : ExitSys}

theorem step_main (h : s.stepMain prog = some s') :
    (∃ k p ty sh' p', s.main = .create k p ∧ prog[k]? = some ty ∧ foothreadCreate ty s.sh p = some (sh', p') ∧
      s' = ⟨sh', p'.elim (mainAt prog (k + 1)) (.create k), if p = .clone then update s.thr k .running else s.thr⟩) ∨
    ∃ e sh' e', s.main = .exit e ∧ foothreadExit s.sh e = some (sh', e') ∧
      s' = { s with sh := sh', main := .exit e' } := by
  unfold stepMain at h
  cases hmain : s.main with
  | create k p =>
    simp only [hmain, Option.bind_eq_some_iff, Option.map_eq_some_iff] at h
    obtain ⟨ty, hty, ⟨sh', p'⟩, hp, rfl⟩ := h
    refine .inl ⟨k, p, ty, sh', p', rfl, hty, hp, ?_⟩
    cases p' <;> rfl
  | exit e =>
    simp only [hmain, Option.map_eq_some_iff] at h
    obtain ⟨⟨sh', e'⟩, he, rfl⟩ := h
    exact .inr ⟨e, sh', e', rfl, he, rfl⟩

theorem step_thread {t : Nat} (h : s.stepThread t = some s') :
    s.thr t = .running ∧ s' = { s with thr := update s.thr t (.exit .checkMtx) } ∨
    ∃ e sh' e', s.thr t = .exit e ∧ foothreadExit s.sh e = some (sh', e') ∧
      s' = { s with sh := sh', thr := update s.thr t (.exit e') } := by
  unfold stepThread at h
  cases ht : s.thr t with
  | unborn => simp [ht] at h
  | running =>
    simp only [ht, Option.some.injEq] at h
    exact .inl ⟨rfl, h.symm⟩
  | exit e =>
    simp only [ht, Option.map_eq_some_iff] at h
    obtain ⟨⟨sh', e'⟩, he, rfl⟩ := h
    exact .inr ⟨e, sh', e', rfl, he, rfl⟩

end

/-- `main`'s `foothread_exit` has returned only after all joinable threads have called theirs. -/
def Joined (prog : List JoinType) (s : ExitSys) : Prop :=
  s.main = .exit .done → ∀ t, prog[t]? = some .joinable → ∃ p, s.thr t = .exit p

/-! ## A schedule in which `main` does not wait -/

section
variable {prog : List JoinType}

/-- The joinable threads among the first `k` creates. -/
def joinables (prog : List JoinType) (k : Nat) : Nat := (prog.take k).count .joinable

/-- `main` has created `k ≥ 1` threads, those of `l` wait in `foothread_exit`, the others run. -/
def created (prog : List JoinType) (k : Nat) (l : Finset Nat) : ExitSys where
  sh := ⟨some 1, some 0, joinables prog k, l.card⟩
  main := mainAt prog k
  thr := fun t => if t ∈ l then .exit .wait else if t < k then .running else .unborn

theorem joinables_succ {k : Nat} (hk : k < prog.length) :
    joinables prog (k + 1) = joinables prog k + if prog[k] = .joinable then 1 else 0 := by
  simp only [joinables, List.take_succ_eq_append_getElem hk, List.count_append, List.count_singleton, beq_iff_eq]

/-- The six statements of one `foothread_create`, with nobody else moving. -/
theorem reach_create {s : ExitSys} {k : Nat} (hk : k < prog.length) (hmain : s.main = .create k .checkMtx)
    (hmtx : s.sh.mtx = none ∨ s.sh.mtx = some 1) (hex : s.sh.exitSem = none ∨ s.sh.exitSem = some 0) :
    Trans.Reach (step prog) s
      ⟨⟨some 1, some 0, if prog[k] = .joinable then s.sh.numThreads + 1 else s.sh.numThreads, s.sh.exitedThreads⟩,
        mainAt prog (k + 1), update s.thr k .running⟩ := by
  have h1 : (if s.sh.mtx = none then some 1 else s.sh.mtx) = some 1 := by rcases hmtx with h | h <;> simp [h]
  have h2 : (if s.sh.exitSem = none then some 0 else s.sh.exitSem) = some 0 := by
    rcases hex with h | h <;> simp [h]
  refine Trans.reach_of_run (List.replicate 6 .main) ?_
  simp [Trans.run, List.replicate, step, stepMain, foothreadCreate, semP, semV, hmain,
    List.getElem?_eq_getElem hk, h1, h2]

theorem created_succ {k : Nat} (hk : k < prog.length) {thr : Nat → ThreadPc}
    (hthr : thr = fun t => if t < k then .running else .unborn) :
    (⟨⟨some 1, some 0, if prog[k] = .joinable then joinables prog k + 1 else joinables prog k, 0⟩,
      mainAt prog (k + 1), update thr k .running⟩ : ExitSys) = created prog (k + 1) ∅ := by
  have hup : update thr k .running = fun t => if t < k + 1 then .running else .unborn := by
    funext t
    by_cases e : t = k
    · subst e; simp
    · have : t < k + 1 ↔ t < k := by omega
      simp [hthr, e, this]
  rw [hup]
  simp only [created, joinables_succ hk, Finset.card_empty, Finset.notMem_empty, if_false]
  split <;> rfl

theorem reach_created : ∀ k, k + 1 ≤ prog.length →
    Trans.Reach (step prog) (init prog) (created prog (k + 1) ∅)
  | 0, hk => by
    rw [← created_succ hk (show (fun _ => .unborn) = _ by simp)]
    exact reach_create (s := init prog) hk (if_pos hk) (.inl rfl) (.inl rfl)
  | k + 1, hk => by
    rw [← created_succ (k := k + 1) hk rfl]
    exact (reach_created k (by omega)).trans
      (reach_create (s := created prog (k + 1) ∅) hk (if_pos hk) (.inr rfl) (.inr rfl))

/-- A running thread calls `foothread_exit`, finds that it is not the last, and waits. -/
theorem reach_insert {n : Nat} {l : Finset Nat} {t : Nat} (ht : t ∉ l) (hn : t < n)
    (hl : l.card + 1 ≠ joinables prog n) :
    Trans.Reach (step prog) (created prog n l) (created prog n (insert t l)) := by
  have hthr : update (created prog n l).thr t (.exit .wait) = (created prog n (insert t l)).thr := by
    funext u
    by_cases e : u = t
    · subst e; simp [created]
    · simp [created, e]
  have hrun : Trans.run (step prog) (created prog n l) (List.replicate 7 (.thread t)) =
      some ⟨⟨some 1, some 0, joinables prog n, l.card + 1⟩, mainAt prog n,
        update (created prog n l).thr t (.exit .wait)⟩ := by
    simp [Trans.run, List.replicate, step, stepThread, foothreadExit, semP, semV, created, ht, hn, hl]
  refine Trans.reach_of_run _ (hrun.trans ?_)
  rw [hthr]
  simp [created, Finset.card_insert_of_notMem ht]

/-- All but the last of the counted callers can be waiting. -/
theorem reach_waiting {n : Nat} (hn : n + 1 = prog.length) (l : Finset Nat) (hl : ∀ t ∈ l, t < n + 1)
    (hc : l.card < joinables prog (n + 1)) :
    Trans.Reach (step prog) (init prog) (created prog (n + 1) l) := by
  induction l using Finset.induction_on with
  | empty => exact reach_created n (by omega)
  | insert t l ht ih =>
    rw [Finset.card_insert_of_notMem ht] at hc
    exact (ih (fun u hu => hl u (by simp [hu])) (by omega)).trans (reach_insert ht (hl t (by simp)) (by omega))

/-- The posting loop of the caller that finds the counters equal, here `main`. -/
theorem reach_main_posted {s : ExitSys} (i m : Nat) (hmain : s.main = .exit (.post i))
    (hm : i + m = s.sh.numThreads) :
    ∃ s', Trans.Reach (step prog) s s' ∧ s'.main = .exit .done ∧ s'.thr = s.thr := by
  induction m generalizing i s with
  | zero =>
    refine ⟨_, Trans.reach_of_run [.main] (by
      simp [Trans.run, step, stepMain, foothreadExit, hmain, show ¬ i < s.sh.numThreads by omega]; rfl), ?_, ?_⟩
    · rfl
    · rfl
  | succ m ih =>
    have hs : step prog s .main =
        some { s with sh := { s.sh with exitSem := semV s.sh.exitSem }, main := .exit (.post (i + 1)) } := by
      simp [step, stepMain, foothreadExit, hmain, show i < s.sh.numThreads by omega]
    obtain ⟨s', hs', hd, ht⟩ := ih (s := { s with
      sh := { s.sh with exitSem := semV s.sh.exitSem }, main := .exit (.post (i + 1)) }) (i + 1) rfl
      (by simp only; omega)
    exact ⟨s', (Trans.ReachIf.single trivial hs).trans hs', hd, ht⟩

/-- `main` is the caller that makes the counters equal: it posts and returns. -/
theorem reach_main_done {n : Nat} (hn : n = prog.length) {l : Finset Nat} (hl : l.card + 1 = joinables prog n) :
    ∃ s, Trans.Reach (step prog) (created prog n l) s ∧ s.main = .exit .done ∧ s.thr = (created prog n l).thr := by
  have hmain : mainAt prog n = .exit .checkMtx := if_neg (by omega)
  have hrun : Trans.run (step prog) (created prog n l) (List.replicate 6 .main) =
      some ⟨⟨some 1, some 0, joinables prog n, l.card + 1⟩, .exit (.post 0), (created prog n l).thr⟩ := by
    simp [Trans.run, List.replicate, step, stepMain, foothreadExit, semP, semV, created, hmain, hl]
  obtain ⟨s, hs, hd, ht⟩ := reach_main_posted
    (s := ⟨⟨some 1, some 0, joinables prog n, l.card + 1⟩, .exit (.post 0), (created prog n l).thr⟩)
    0 (joinables prog n) rfl (Nat.zero_add _)
  exact ⟨s, (Trans.reach_of_run _ hrun).trans hs, hd, ht⟩

end

end ExitSys

open ExitSys in
/-- **`foothread_exit` never joins**: for every program with a joinable thread some schedule lets `main`
return while a joinable thread has not called `foothread_exit`. -/
theorem main_returns_early (prog : List JoinType) (h : .joinable ∈ prog) :
    ¬ ∀ s, Trans.Reach (step prog) (init prog) s → Joined prog s := by
  obtain ⟨t0, ht0, hty⟩ := List.mem_iff_getElem.1 h
  obtain ⟨n, hn⟩ : ∃ n, n + 1 = prog.length := ⟨prog.length - 1, by omega⟩
  have hpos : 0 < joinables prog (n + 1) := by
    rw [joinables, hn, List.take_length, List.count_pos_iff]; exact h
  have hle : joinables prog (n + 1) ≤ n + 1 := by
    rw [hn, joinables, List.take_length]; exact List.count_le_length
  -- as many other threads as it takes for `main` to be the last caller
  obtain ⟨l, hl, hcard⟩ := Finset.exists_subset_card_eq (s := (Finset.range (n + 1)).erase t0)
    (n := joinables prog (n + 1) - 1) (by
      rw [Finset.card_erase_of_mem (Finset.mem_range.2 (by omega)), Finset.card_range]; omega)
  have hlt : ∀ t ∈ l, t ≠ t0 ∧ t < n + 1 := fun t ht => by simpa using hl ht
  intro hall
  obtain ⟨s, hs, hd, hthr⟩ := reach_main_done hn (l := l) (by omega)
  have hreach := (reach_waiting hn l (fun t ht => (hlt t ht).2) (by omega)).trans hs
  obtain ⟨p, hp⟩ := hall s hreach hd t0 (by rw [List.getElem?_eq_getElem ht0, hty])
  have ht0l : t0 ∉ l := fun hmem => (hlt t0 hmem).1 rfl
  have hrunning : (created prog (n + 1) l).thr t0 = .running := (if_neg ht0l).trans (if_pos (by omega))
  rw [hthr, hrunning] at hp
  cases hp

/-- The program with a single joinable thread. -/
theorem main_returns_early_single :
    ¬ ∀ s, Trans.Reach (ExitSys.step [.joinable]) (ExitSys.init [.joinable]) s → s.Joined [.joinable] :=
  main_returns_early [.joinable] (by decide)

/-- Two joinable threads: thread 0 waits in `foothread_exit`, `main` trips the count, thread 1 runs on. -/
theorem exit_does_not_join :
    ¬ ∀ prog : List JoinType, .joinable ∈ prog →
      ∀ s, Trans.Reach (ExitSys.step prog) (ExitSys.init prog) s → s.Joined prog := by
  intro hall
  obtain ⟨s, hs, hp⟩ := Trans.exists_reach_of_run (ExitSys.step [.joinable, .joinable])
    (ExitSys.init [.joinable, .joinable])
    (List.replicate 12 .main ++ List.replicate 7 (.thread 0) ++ List.replicate 9 .main)
    (fun s => s.main == .exit .done && s.thr 1 == .running) (by decide)
  simp only [Bool.and_eq_true, beq_iff_eq] at hp
  obtain ⟨p, hpc⟩ := hall [.joinable, .joinable] (by decide) s hs hp.1 1 (by decide)
  rw [hp.2] at hpc; cases hpc

end OsLab.A7
