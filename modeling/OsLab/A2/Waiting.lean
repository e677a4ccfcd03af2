import OsLab.A2.Signals

/-!
# mgr behind a stopped job (A2/mgr.c)

`r` waits with `WUNTRACED` and comes back when its job is stopped (:136). `c` waits without it (:163), and leaves
`currChild` at the job it waits for: a `SIGTSTP` that reaches mgr now stops that job, and nobody is left to continue
it (`stuck_of_signal`).
-/

namespace OsLab.A2

open Function (update)

namespace Mgr

variable {s s' : Mgr} {f : Frame} {rest : List Frame} {pid : Int}

/-- The pid that `c` waits for. -/
def awaited (s : Mgr) : Option Int :=
  match s.pc with
  | .wait job => some (s.PT job).pid
  | _ => none

/-- mgr is blocked in a `waitpid` without `WUNTRACED` for a job that is stopped. -/
def StuckBehindStopped (s : Mgr) : Prop := s.handlers = [] ∧ ∃ pid ∈ s.awaited, s.job pid = .stopped

/-- No `SIGTSTP` arrives while `c` waits for a running job and `currChild` is not -1. -/
def Unstopping (s : Mgr) : Move → Prop
  | .signal .TSTP => s.currChild = -1 ∨ ∀ pid ∈ s.awaited, s.job pid ≠ .running
  | _ => True

instance (s : Mgr) : ∀ m, Decidable (s.Unstopping m)
  | .signal .TSTP => inferInstanceAs (Decidable (s.currChild = -1 ∨ ∀ pid ∈ s.awaited, s.job pid ≠ .running))
  | .signal .INT | .command _ | .pick _ | .fork _ | .next | .handler | .finish _ => isTrue trivial

/-- A handler of `SIGTSTP` that began while the awaited job was running finds nothing to stop. -/
structure Awaits (s : Mgr) (pid : Int) : Prop where
  going : s.job pid ≠ .stopped
  spared : s.job pid = .running → ∀ f ∈ s.handlers, f.sig = .TSTP → s.currChild = -1 ∧ f.pc = .test

/-- The pids in the table stay while `c` waits. -/
theorem awaited_congr (hpc : s'.pc = s.pc) (hPT : ∀ i, (s'.PT i).pid = (s.PT i).pid) : s'.awaited = s.awaited := by
  unfold awaited
  rw [hpc]
  split
  · rw [hPT]
  · rfl

theorem Job.cont_ne_stopped (j : Job) : j.cont ≠ .stopped := by cases j <;> decide

theorem Job.kill_over {j : Job} (h : j ≠ .stopped) : j.kill ≠ .stopped ∧ j.kill ≠ .running := by
  cases j <;> first | exact absurd rfl h | decide

theorem Job.stop_of_not_running {j : Job} (h : j ≠ .running) : j.stop = j := by
  cases j <;> first | exact absurd rfl h | rfl

/-- `c` starts to wait when it has continued the job; no handler runs. -/
theorem Next.awaits (h : s.Next s') (hquiet : s.handlers = []) (hpid : pid ∈ s'.awaited) :
    s'.handlers = [] ∧ s'.job pid ≠ .stopped := by
  cases h with
  | cont job hpc =>
    obtain rfl : (s.PT job).pid = pid := Option.some.inj hpid
    refine ⟨hquiet, ?_⟩
    show (s.send (s.PT job).pid Job.cont).job (s.PT job).pid ≠ .stopped
    rw [send_job, if_pos rfl]
    exact Job.cont_ne_stopped _
  | isFull | test | check => 
    unfold awaited Mgr.goto at hpid
    split_ifs at hpid <;> cases hpid
  | slot | record | waitRun | reset | set | kill | wait | mark | decr => cases hpid

namespace Awaits

/-- The frames below go on as they were; the one in front is not that of a `SIGTSTP` while the job runs. -/
theorem advance (A : s.Awaits pid) (hf : s.handlers = f :: rest) (hgoing : s'.job pid ≠ .stopped)
    (hrun : s'.job pid = .running → s.job pid = .running) (hcc : s.currChild = -1 → s'.currChild = -1)
    (hframes : s'.handlers = rest ∨
      (∃ pc, s'.handlers = ⟨f.sig, pc⟩ :: rest) ∧ (s.job pid = .running → f.sig ≠ .TSTP)) : s'.Awaits pid where
  going := hgoing
  spared hr g hg hsig := by
    have hbelow : g ∈ rest → s'.currChild = -1 ∧ g.pc = .test := fun hg => by
      obtain ⟨hc, hpc⟩ := A.spared (hrun hr) g (hf ▸ List.mem_cons_of_mem f hg) hsig
      exact ⟨hcc hc, hpc⟩
    rcases hframes with h | ⟨⟨pc, h⟩, hnot⟩
    · exact hbelow (h ▸ hg)
    · rw [h] at hg
      rcases List.mem_cons.1 hg with rfl | hg
      · exact absurd hsig (hnot (hrun hr))
      · exact hbelow hg

/-- A handler of `SIGTSTP` beyond its test does not find the job running. -/
theorem not_running (A : s.Awaits pid) (hf : s.handlers = f :: rest) (h : s.currChild ≠ -1 ∨ f.pc ≠ .test) :
    s.job pid = .running → f.sig ≠ .TSTP := by
  intro hrun hsig
  obtain ⟨hcc, hpc⟩ := A.spared hrun f (hf ▸ List.mem_cons_self) hsig
  exact h.elim (absurd hcc) (absurd hpc)

/-- A call of `kill` that would neither stop the awaited job nor let it run. -/
theorem send (A : s.Awaits pid) (act : Job → Job) (target : Int) (hgoing : act (s.job pid) ≠ .stopped)
    (hrun : act (s.job pid) = .running → s.job pid = .running) :
    (s.send target act).job pid ≠ .stopped ∧ ((s.send target act).job pid = .running → s.job pid = .running) := by
  rw [send_job]
  split
  · next h =>
    subst h
    exact ⟨hgoing, hrun⟩
  · exact ⟨A.going, id⟩

theorem handler (A : s.Awaits pid) (hf : s.handlers = f :: rest) : (s.handler f rest).Awaits pid := by
  obtain ⟨sig, pc⟩ := f
  unfold Mgr.handler
  cases pc with
  | test =>
    dsimp only
    split_ifs with hcc
    · exact A.advance hf A.going id id (.inl rfl)
    · exact A.advance hf A.going id id (.inr ⟨⟨_, rfl⟩, A.not_running hf (.inl hcc)⟩)
    · exact A.advance hf A.going id id (.inr ⟨⟨_, rfl⟩, A.not_running hf (.inl hcc)⟩)
  | count => exact A.advance hf A.going id id (.inr ⟨⟨_, rfl⟩, A.not_running hf (.inr (by simp))⟩)
  | mark =>
    cases sig with
    | INT => exact A.advance hf A.going id id (.inr ⟨⟨_, rfl⟩, A.not_running hf (.inr (by simp))⟩)
    | TSTP => exact A.advance hf A.going id id (.inr ⟨⟨_, rfl⟩, A.not_running hf (.inr (by simp))⟩)
  | kill =>
    have hnot := A.not_running hf (.inr (by simp))
    cases sig with
    | INT =>
      obtain ⟨hgoing, hrun⟩ := Job.kill_over A.going
      have hjob := A.send Job.kill (s.PT s.currChild).pid hgoing fun h => absurd h hrun
      exact A.advance hf hjob.1 hjob.2 id (.inr ⟨⟨_, rfl⟩, hnot⟩)
    | TSTP =>
      have hkeep : (s.job pid).stop = s.job pid := Job.stop_of_not_running fun h => hnot h rfl
      have hjob := A.send Job.stop (s.PT s.currChild).pid (by rw [hkeep]; exact A.going) (by rw [hkeep]; exact id)
      exact A.advance hf hjob.1 hjob.2 id (.inr ⟨⟨_, rfl⟩, hnot⟩)
  | reset => exact A.advance hf A.going id (fun _ => rfl) (.inl rfl)

end Awaits

/-- What every step keeps. -/
theorem awaits_step {m : Move} (A : ∀ pid ∈ s.awaited, s.Awaits pid) (hok : s.Unstopping m) (h : s.step m = some s') :
    ∀ pid ∈ s'.awaited, s'.Awaits pid := by
  intro pid hpid
  cases moved_of_step h with
  | command cmd => cases cmd <;> cases hpid
  | pick => cases hpid
  | fork => cases hpid
  | next s' hquiet hnext =>
    obtain ⟨hquiet', hgoing⟩ := hnext.awaits hquiet hpid
    exact ⟨hgoing, fun _ f hf => by simp [hquiet'] at hf⟩
  | handler f rest hf =>
    have hsame : (s.handler f rest).awaited = s.awaited := by
      unfold Mgr.handler
      split
      · split_ifs <;> rfl
      all_goals first | rfl | exact awaited_congr rfl fun i => setStatus_pid s s.currChild i _
    exact (A pid (hsame ▸ hpid)).handler hf
  | signal sig hother =>
    have Ap := A pid hpid
    refine ⟨Ap.going, fun hrun f hf hsig => ?_⟩
    rcases List.mem_cons.1 hf with rfl | hf
    · -- the signal that arrives is `SIGTSTP`, while the job is running
      obtain rfl : sig = .TSTP := hsig
      exact ⟨hok.resolve_right fun h => h pid hpid hrun, rfl⟩
    · exact Ap.spared hrun f hf hsig
  | finish q hq =>
    have Ap := A pid hpid
    by_cases hne : pid = q
    · subst hne
      exact ⟨by simp, fun hrun => by simp at hrun⟩
    · exact ⟨by simpa [hne] using Ap.going, fun hrun => Ap.spared (by simpa [hne] using hrun)⟩

/-- **mgr is never stuck behind a stopped job** in a run in which no `SIGTSTP` reaches it while `c` waits for a running
job. -/
theorem never_stuck_behind_stopped (self : Int) (mem : Int → Entry) (s : Mgr)
    (h : Trans.ReachIf Mgr.step Unstopping (Mgr.init self mem) s) : ¬ s.StuckBehindStopped := by
  have A : ∀ pid ∈ s.awaited, s.Awaits pid :=
    h.inv (fun pid hpid => by cases hpid) fun _ _ _ _ A hok hs => awaits_step A hok hs
  rintro ⟨-, pid, hpid, hstopped⟩
  exact (A pid hpid).going hstopped

/-- A job is suspended and continued; a `SIGINT` ends it while `c` waits, with a `SIGTSTP` behind it. -/
theorem never_stuck_behind_stopped_continued : ∃ s : Mgr,
    Trans.ReachIf Mgr.step Unstopping (Mgr.init 1 fun _ => ⟨0, .EMPTY⟩) s ∧ s.awaited = some 5 ∧ s.handlers = [] ∧
      ¬ s.StuckBehindStopped := by
  obtain ⟨s, hr, hs⟩ := Trans.exists_reachIf_of_run Mgr.step Unstopping (Mgr.init 1 fun _ => ⟨0, .EMPTY⟩)
    [.command .r, .next, .fork 5, .next, .next, .signal .TSTP, .handler, .handler, .handler, .handler, .handler,
      .next, .next, .command .c, .next, .pick 1, .next, .next, .next, .signal .INT, .handler, .handler, .handler,
      .handler, .signal .TSTP, .handler]
    (fun s => decide (s.awaited = some 5 ∧ s.handlers = [])) (by decide +kernel)
  obtain ⟨hpid, hquiet⟩ := of_decide_eq_true hs
  exact ⟨s, hr, hpid, hquiet, never_stuck_behind_stopped 1 (fun _ => ⟨0, .EMPTY⟩) s hr⟩

/-- A job is suspended and continued, and a second `SIGTSTP` stops it while `c` waits. -/
theorem stuck_behind_stopped :
    ¬ ∀ s : Mgr, Trans.Reach Mgr.step (Mgr.init 1 fun _ => ⟨0, .EMPTY⟩) s → ¬ s.StuckBehindStopped := by
  intro h
  obtain ⟨s, hr, hs⟩ := Trans.exists_reach_of_run Mgr.step (Mgr.init 1 fun _ => ⟨0, .EMPTY⟩)
    [.command .r, .next, .fork 5, .next, .next, .signal .TSTP, .handler, .handler, .handler, .handler, .handler,
      .next, .next, .command .c, .next, .pick 1, .next, .next, .next, .signal .TSTP, .handler, .handler, .handler,
      .handler, .handler]
    (fun s => decide (s.handlers = [] ∧ s.awaited = some 5 ∧ s.job 5 = .stopped)) (by decide +kernel)
  obtain ⟨hquiet, hpid, hstopped⟩ := of_decide_eq_true hs
  exact h s hr ⟨hquiet, 5, hpid, hstopped⟩

/-! ## A step that does not meet the condition -/

/-- `currChild` names the job that `c` waits for until a handler resets it. -/
theorem currChild_of_wait {self : Int} {mem : Int → Entry} (h : Trans.Reach Mgr.step (Mgr.init self mem) s) :
    ∀ job, s.pc = .kill .c job ∨ s.pc = .wait job → s.currChild = -1 ∨ s.currChild = job := by
  refine h.inv (I := fun s => ∀ job, s.pc = .kill .c job ∨ s.pc = .wait job → s.currChild = -1 ∨ s.currChild = job)
    (fun _ _ => .inl rfl) fun s m s' _ I _ hs => ?_
  cases moved_of_step hs with
  | command cmd =>
    intro job hpc
    cases cmd <;> rcases hpc with hpc | hpc <;> cases hpc
  | pick | fork =>
    intro job hpc
    rcases hpc with hpc | hpc <;> cases hpc
  | next s' hquiet hnext =>
    intro job hpc
    cases hnext with
    | set cmd job' hpc' =>
      rcases hpc with hpc | hpc <;> cases hpc
      exact .inr rfl
    | cont job' hpc' =>
      rcases hpc with hpc | hpc <;> cases hpc
      exact I job (.inl hpc')
    | isFull | test | check =>
      unfold Mgr.goto at hpc
      split_ifs at hpc <;> rcases hpc with hpc | hpc <;> cases hpc
    | _ => rcases hpc with hpc | hpc <;> cases hpc
  | handler f rest hf =>
    intro job hpc
    unfold Mgr.handler at hpc ⊢
    split at hpc
    · split_ifs at hpc ⊢ <;> exact I job hpc
    all_goals first | exact I job hpc | exact .inl rfl
  | signal | finish => exact I

/-- The condition is exact: a `SIGTSTP` that does not meet it, with no handler under way, gets mgr stuck. -/
theorem stuck_of_signal {self : Int} {mem : Int → Entry} (h : Trans.Reach Mgr.step (Mgr.init self mem) s)
    (hquiet : s.handlers = []) (hnot : ¬ s.Unstopping (.signal .TSTP)) :
    ∃ s', Trans.Reach Mgr.step s s' ∧ s'.StuckBehindStopped := by
  simp only [Unstopping, not_or, not_forall, not_not] at hnot
  obtain ⟨hcc, pid, hpid, hrun⟩ := hnot
  obtain ⟨job, hpc, rfl⟩ : ∃ job, s.pc = .wait job ∧ (s.PT job).pid = pid := by
    unfold awaited at hpid
    split at hpid
    · next job hpc => exact ⟨job, hpc, Option.some.inj hpid⟩
    · cases hpid
  obtain rfl := (currChild_of_wait h job (.inr hpc)).resolve_left hcc
  set t : Mgr := { s with numSuspended := s.numSuspended + 1 }.setStatus s.currChild .SUSPENDED with ht
  have hsteps : Trans.run Mgr.step s (.signal .TSTP :: List.replicate 5 .handler) =
      some { t.send (s.PT s.currChild).pid Job.stop with currChild := -1, handlers := [] } := by
    simp [Trans.run, List.replicate, Mgr.step, Mgr.handler, hquiet, hpc, hcc, ht, setStatus, send]
  have hsame : Mgr.awaited { t.send (s.PT s.currChild).pid Job.stop with currChild := -1, handlers := [] } = s.awaited :=
    awaited_congr rfl fun i => setStatus_pid { s with numSuspended := s.numSuspended + 1 } s.currChild i .SUSPENDED
  refine ⟨_, Trans.reach_of_run _ hsteps, rfl, _, hsame ▸ hpid, ?_⟩
  show update s.job _ (s.job _).stop _ = _
  rw [Function.update_self, hrun]
  rfl

end Mgr

end OsLab.A2
