import OsLab.A2.Signals

/-!
# What the table says of the jobs (A2/mgr.c)

A status is written before the job has come that far: `FINISHED` by `r` before the job has run (:138), `SUSPENDED` and
`TERMINATED` by the handler in front of its `kill` (:56, :61), `FINISHED` by `c` whatever ended the job (:164). At the
prompt the table is right unless

- `SIGINT` reaches mgr while `c` waits: the job is killed, and `c` writes `FINISHED` over it;
- a signal reaches mgr at the prompt after `c` or `k`, which leave `currChild` at a job that is over;
- the job that `r` waits for ends by itself under the hands of a handler, or has ended when the signal comes;
- a signal comes while the handler of the other one is between its test of `currChild` and its last statement: it
  leaves -1 as `currChild`, and the entry -1 is marked.

`Orderly` is the absence of these.
-/

namespace OsLab.A2

open Function (update)

/-- The status that a job has in the table; none is right while it runs. -/
def Job.shown : Job → Option Status
  | absent => some .EMPTY
  | running => none
  | stopped => some .SUSPENDED
  | exited => some .FINISHED
  | killed => some .TERMINATED

/-- What the handler of a signal writes. -/
def Sig.status : Sig → Status
  | INT => .TERMINATED
  | TSTP => .SUSPENDED

/-- What the handler of a signal does to a job. -/
def Sig.act : Sig → Job → Job
  | INT => Job.kill
  | TSTP => Job.stop

theorem Job.shown_act {j : Job} (h : j.live = true) (sig : Sig) : (sig.act j).shown = some sig.status := by
  cases j <;> cases sig <;> first | rfl | exact absurd h (by decide)

theorem Job.act_ne_killed {j : Job} {sig : Sig} (h : j ≠ .killed) (hint : sig = .INT → j.live = false) :
    sig.act j ≠ .killed := by
  cases sig with
  | INT =>
    have hdead := hint rfl
    cases j <;> simp_all [Sig.act, Job.kill, Job.live]
  | TSTP => cases j <;> simp_all [Sig.act, Job.stop]

theorem Job.act_dead {j : Job} (h : j.live = false) (sig : Sig) : sig.act j = j := by
  cases j <;> cases sig <;> first | rfl | exact absurd h (by decide)

theorem Job.act_absent (sig : Sig) (j : Job) : sig.act j = .absent ↔ j = .absent := by
  cases sig with
  | INT => exact j.kill_absent
  | TSTP => exact j.stop_absent

namespace Mgr

variable {s s' : Mgr} {i j pid : Int} {f : Frame} {rest : List Frame}

/-- The status in slot `i` is that of its job. -/
def Truthful (s : Mgr) (i : Int) : Prop :=
  ((s.PT i).status = .SUSPENDED ↔ s.job (s.PT i).pid = .stopped) ∧
  ((s.PT i).status = .TERMINATED ↔ s.job (s.PT i).pid = .killed) ∧
  ((s.PT i).status = .FINISHED ↔ s.job (s.PT i).pid = .exited)

/-- What `sig` makes of the job `currChild` is what the table will say at the next prompt. -/
def Harmless (s : Mgr) (sig : Sig) : Prop :=
  match s.pc with
  | .prompt | .pick _ => sig = .INT ∧ (s.PT s.currChild).status = .TERMINATED
  | .waitRun pid => (s.job pid).live = true
  | .wait job => sig = .TSTP ∨ (s.job (s.PT job).pid).live = false
  | _ => False

instance : (s : Mgr) → (sig : Sig) → Decidable (s.Harmless sig)
  | { pc := .prompt, .. }, _ | { pc := .pick _, .. }, _ => inferInstanceAs (Decidable (_ ∧ _))
  | { pc := .waitRun _, .. }, _ => inferInstanceAs (Decidable (_ = _))
  | { pc := .wait _, .. }, _ => inferInstanceAs (Decidable (_ ∨ _))
  | { pc := .quit, .. }, _ | { pc := .isFull, .. }, _ | { pc := .fork, .. }, _ | { pc := .slot _, .. }, _
  | { pc := .record _, .. }, _ | { pc := .reset, .. }, _ | { pc := .test _, .. }, _ | { pc := .check _ _, .. }, _
  | { pc := .set _ _, .. }, _ | { pc := .kill _ _, .. }, _ | { pc := .mark _ _, .. }, _ | { pc := .decr, .. }, _ =>
    inferInstanceAs (Decidable False)

/-- A signal arrives while `currChild` is -1, or is harmless and arrives outside of the handlers' work. The job that
`r` waits for does not end by itself under the hands of a handler. The job number names a slot of the table. -/
def Orderly (s : Mgr) : Move → Prop
  | .signal sig => s.currChild = -1 ∨ s.Harmless sig ∧ ∀ f ∈ s.handlers, f.pc = .test ∨ f.pc = .reset
  | .finish pid => s.handlers = [] ∨ s.currChild = -1 ∨ s.pc ≠ .waitRun pid
  | .pick job => 0 ≤ job ∧ job ≤ 10
  | _ => True

instance (s : Mgr) : ∀ m, Decidable (s.Orderly m)
  | .signal sig => inferInstanceAs (Decidable (s.currChild = -1 ∨
      s.Harmless sig ∧ ∀ f ∈ s.handlers, f.pc = .test ∨ f.pc = .reset))
  | .finish pid => inferInstanceAs (Decidable (s.handlers = [] ∨ s.currChild = -1 ∨ s.pc ≠ .waitRun pid))
  | .pick job => inferInstanceAs (Decidable (0 ≤ job ∧ job ≤ 10))
  | .command _ | .fork _ | .next | .handler => isTrue trivial

/-! ## The invariant -/

/-- The status in slot `i` is that of its job, which does not run. -/
def Fits (s : Mgr) (i : Int) : Prop := (s.job (s.PT i).pid).shown = some (s.PT i).status

/-- The slot that `main` is working on. -/
def Worked (s : Mgr) (i : Int) : Prop :=
  match s.pc with
  | .waitRun _ => i = s.currChild ∧ ((s.PT i).status = .FINISHED ∧ s.job (s.PT i).pid = .running ∨
      ∃ sig, s.handlers.head? = some ⟨sig, .kill⟩)
  | .wait job | .mark _ job => i = job
  | _ => False

/-- What is known of the job that `main` is working on. -/
def Known (s : Mgr) : Prop :=
  match s.pc with
  | .slot pid | .record pid => s.job pid = .running ∨ s.job pid = .exited
  | .wait job => s.job (s.PT job).pid ≠ .killed
  | .mark .c job => s.job (s.PT job).pid = .exited
  | .mark .k job => s.job (s.PT job).pid = .killed
  | _ => True

/-- `currChild` names the job that `main` works on; at the prompt it may be left at one that was killed. Elsewhere
no handler runs. -/
def Held (s : Mgr) : Prop :=
  match s.pc with
  | .waitRun pid => (s.PT s.currChild).pid = pid
  | .kill _ job => s.currChild = job ∧ s.handlers = []
  | .wait job => s.currChild = job
  | .prompt | .pick _ => s.handlers = [] ∨
      (s.PT s.currChild).status = .TERMINATED ∧ ∀ f ∈ s.handlers, f.sig = .INT
  | _ => s.handlers = []

/-- The innermost handler has a job to work on, the others are at their first or last statement. -/
structure TruthFrames (s : Mgr) (f : Frame) (rest : List Frame) : Prop where
  free : s.currChild = -1 → f.pc = .test ∨ f.pc = .reset
  run : ∀ pid, s.pc = .waitRun pid → s.currChild ≠ -1 → f.pc ≠ .reset → (s.job pid).live = true
  marked : ∀ pid, s.pc = .waitRun pid → f.pc = .kill → (s.PT s.currChild).status = f.sig.status
  ended : ∀ job, s.pc = .wait job → ∀ g ∈ f :: rest, g.sig = .INT →
    s.currChild = -1 ∨ (s.job (s.PT job).pid).live = false
  done : ∀ pid, s.pc = .waitRun pid → s.currChild ≠ -1 → f.pc = .reset → s.Fits s.currChild
  below : ∀ g ∈ rest, g.pc = .test ∨ g.pc = .reset

structure TruthInv (s : Mgr) : Prop where
  table : s.Table
  stage : s.Stage
  known : s.Known
  fits : ∀ i, Slot i → s.Fits i ∨ s.Worked i
  held : s.currChild = -1 ∨ Slot s.currChild ∧ s.Held
  frames : ∀ f rest, s.handlers = f :: rest → s.TruthFrames f rest

theorem truthful_of_fits (h : s.Fits i) : s.Truthful i := by
  rw [Fits] at h
  cases hjob : s.job (s.PT i).pid <;> simp only [hjob, Job.shown, Option.some.injEq, reduceCtorEq] at h <;>
    simp [Truthful, hjob, ← h]

theorem Fits.not_running (h : s.Fits i) : s.job (s.PT i).pid ≠ .running := by
  intro hrun
  rw [Fits, hrun] at h
  cases h

theorem Fits.stopped (h : s.Fits i) (hst : (s.PT i).status = .SUSPENDED) : s.job (s.PT i).pid = .stopped :=
  (truthful_of_fits h).1.1 hst

theorem Fits.killed (h : s.Fits i) (hst : (s.PT i).status = .TERMINATED) : s.job (s.PT i).pid = .killed :=
  (truthful_of_fits h).2.1.1 hst

namespace TruthInv

theorem init (self : Int) (mem : Int → Entry) (hself : 0 < self) : TruthInv (Mgr.init self mem) where
  table := (MgrInv.init self mem hself).table
  stage := trivial
  known := trivial
  fits i hi := by
    left
    have h0 : i ≠ 0 := fun h => absurd (h ▸ hi).1 (by decide)
    simp [Fits, Mgr.init, h0, hi.1, hi.2, Job.shown]
  held := .inl rfl
  frames _ _ h := by cases h

theorem no_frames (hquiet : s.handlers = []) : ∀ f rest, s.handlers = f :: rest → s.TruthFrames f rest := by
  intro f rest hf
  exact absurd (hquiet.symm.trans hf) (by simp)

theorem slot_ne (hi : Slot i) : i ≠ -1 := by
  have := hi.1
  omega

/-! ## The steps of `main` -/

/-- `main` goes on and touches no entry and no job. -/
theorem move (I : TruthInv s) (hquiet : s.handlers = []) (hPT : s'.PT = s.PT) (hjob : s'.job = s.job)
    (hhandlers : s'.handlers = s.handlers) (hnot : ∀ i, ¬ s.Worked i) (hstage : s'.Stage) (hknown : s'.Known)
    (hheld : s'.currChild = -1 ∨ Slot s'.currChild ∧ s'.Held) : TruthInv s' where
  table := I.table.congr hPT hjob
  stage := hstage
  known := hknown
  fits i hi := by
    left
    rw [Fits, hPT, hjob]
    exact (I.fits i hi).resolve_right (hnot i)
  held := hheld
  frames := no_frames (hhandlers.trans hquiet)

/-- `main` goes to a statement where no job is worked on. -/
theorem goto (I : TruthInv s) (hquiet : s.handlers = []) (pc : Pc) (hnot : ∀ i, ¬ s.Worked i)
    (hstage : (s.goto pc).Stage) (hknown : (s.goto pc).Known) (hheld : (s.goto pc).Held) : TruthInv (s.goto pc) :=
  I.move hquiet rfl rfl rfl hnot hstage hknown (I.held.imp_right fun h => ⟨h.1, hheld⟩)

theorem fork (I : TruthInv s) (hquiet : s.handlers = []) (hpc : s.pc = .fork) (hpos : 0 < pid)
    (habsent : s.job pid = .absent) : TruthInv { s with job := update s.job pid .running, pc := .slot pid } := by
  have hne : ∀ i, Slot i → (s.PT i).pid ≠ pid := fun i hi => I.table.pid_ne hpos habsent hi
  have hstage : (s.PT 10).pid = 0 := by simpa [Stage, hpc] using I.stage
  refine ⟨I.table.fork hpos habsent, ⟨⟨by simp, hne⟩, hstage⟩, .inl (by simp), fun i hi => .inl ?_,
    I.held.imp_right fun h => ⟨h.1, hquiet⟩, no_frames hquiet⟩
  have hfits := (I.fits i hi).resolve_right (by simp [Worked, hpc])
  simpa [Fits, hne i hi] using hfits

/-- mgr sends a signal to the job it has picked. -/
theorem sendPicked (I : TruthInv s) (hquiet : s.handlers = []) {cmd : Pick} {job : Int} (hpc : s.pc = .kill cmd job)
    {act : Job → Job} (hact : ∀ j, act j = .absent ↔ j = .absent) (pc : Pc) (hpc' : pc = .wait job ∨ pc = .mark cmd job)
    (hknown : ((s.send (s.PT job).pid act).goto pc).Known) : TruthInv ((s.send (s.PT job).pid act).goto pc) := by
  obtain ⟨hslot, hsusp, hstop⟩ : Slot job ∧ (s.PT job).status = .SUSPENDED ∧ s.job (s.PT job).pid = .stopped := by
    simpa [Stage, hpc] using I.stage
  have h0 : (s.PT job).pid ≠ 0 := I.table.empty job hslot hsusp
  refine ⟨(I.table.send hact).congr rfl rfl, ?_, hknown, fun i hi => ?_, I.held.imp_right fun h => ⟨h.1, ?_⟩,
    no_frames hquiet⟩
  · rcases hpc' with rfl | rfl <;> exact ⟨hslot, h0⟩
  · by_cases hij : i = job
    · right
      rcases hpc' with rfl | rfl <;> exact hij
    · left
      have hfits := (I.fits i hi).resolve_right (by simp [Worked, hpc])
      show ((s.send (s.PT job).pid act).job (s.PT i).pid).shown = some (s.PT i).status
      rw [I.table.other hslot h0 hi hij]
      exact hfits
  · have hheld := h.2
    simp only [Held, hpc] at hheld
    rcases hpc' with rfl | rfl
    · exact hheld.1
    · exact hquiet

theorem record (I : TruthInv s) (hquiet : s.handlers = []) (hpc : s.pc = .record pid) :
    TruthInv { s with PT := update s.PT s.currChild ⟨pid, .FINISHED⟩, pc := .waitRun pid } := by
  obtain ⟨hnew, hslot, -⟩ : s.New pid ∧ Slot s.currChild ∧ (s.PT s.currChild).pid = 0 := by
    simpa [Stage, hpc] using I.stage
  have hknown : s.job pid = .running ∨ s.job pid = .exited := by simpa [Known, hpc] using I.known
  refine ⟨I.table.record hnew hslot, trivial, trivial, fun i hi => ?_, .inr ⟨hslot, by simp [Held]⟩, no_frames hquiet⟩
  by_cases hic : i = s.currChild
  · rcases hknown with h | h
    · right
      simp [Worked, hic, h]
    · left
      simp [Fits, hic, h, Job.shown]
  · left
    have hfits := (I.fits i hi).resolve_right (by simp [Worked, hpc])
    simpa [Fits, hic] using hfits

/-- `c` and `k` write the status of the job that they have waited for or killed. -/
theorem mark (I : TruthInv s) (hquiet : s.handlers = []) {cmd : Pick} {job : Int} {status : Status}
    (hpc : s.pc = .mark cmd job) (hst : status ≠ .SUSPENDED) (hshown : (s.job (s.PT job).pid).shown = some status) :
    TruthInv ((s.setStatus job status).goto .decr) := by
  refine ⟨(I.table.setStatus fun h => absurd h hst).congr rfl rfl, trivial, trivial, fun i hi => .inl ?_,
    I.held.imp_right fun h => ⟨h.1, hquiet⟩, no_frames hquiet⟩
  show (s.job ((s.setStatus job status).PT i).pid).shown = some ((s.setStatus job status).PT i).status
  rw [setStatus_pid, setStatus_status]
  split_ifs with hij
  · rw [hij]; exact hshown
  · exact (I.fits i hi).resolve_right (by simpa [Worked, hpc] using hij)

theorem next (I : TruthInv s) (hquiet : s.handlers = []) (hmain : s.main = some s') : TruthInv s' := by
  have hstage := I.stage
  have hknown := I.known
  cases next_of_main hmain with
  | isFull hpc =>
    by_cases hfull : s.isFull
    · rw [if_pos hfull]
      exact I.goto hquiet _ (by simp [Worked, hpc]) trivial trivial hquiet
    · rw [if_neg hfull]
      refine I.goto hquiet _ (by simp [Worked, hpc]) ?_ trivial hquiet
      simpa [Stage, Mgr.goto, Mgr.isFull] using hfull
  | slot pid hpc =>
    simp only [Stage, hpc] at hstage
    simp only [Known, hpc] at hknown
    obtain ⟨i, hfirst, hi, hpid⟩ := I.table.firstEmpty hstage.2
    rw [hfirst, Option.getD_some]
    exact I.move hquiet rfl rfl rfl (by simp [Worked, hpc]) ⟨hstage.1, hi, hpid⟩ hknown (.inr ⟨hi, hquiet⟩)
  | record pid hpc => exact I.record hquiet hpc
  | waitRun pid hpc hend =>
    -- the job that `r` has waited for does not run
    have hnot : ∀ i, Slot i → ¬ s.Worked i := by
      intro i hi h
      simp only [Worked, hpc, hquiet, List.head?_nil, reduceCtorEq, exists_false, or_false] at h
      obtain ⟨rfl, -, hrun⟩ := h
      have hheld := (I.held.resolve_left (slot_ne hi)).2
      simp only [Held, hpc] at hheld
      exact hend (hheld ▸ hrun)
    exact ⟨I.table.congr rfl rfl, trivial, trivial, fun i hi => .inl ((I.fits i hi).resolve_right (hnot i hi)),
      I.held.imp_right fun h => ⟨h.1, hquiet⟩, no_frames hquiet⟩
  | reset hpc => exact I.move hquiet rfl rfl rfl (by simp [Worked, hpc]) trivial trivial (.inl rfl)
  | test cmd hpc =>
    split_ifs with hnone
    · exact I.goto hquiet _ (by simp [Worked, hpc]) trivial trivial (.inl hquiet)
    · exact I.goto hquiet _ (by simp [Worked, hpc]) trivial trivial (.inl hquiet)
  | check cmd job hpc =>
    simp only [Stage, hpc] at hstage
    split_ifs with hsusp
    · refine I.goto hquiet _ (by simp [Worked, hpc]) ⟨⟨?_, hstage.2⟩, hsusp⟩ trivial hquiet
      have hne : job ≠ 0 := fun h => I.table.self.2 (h ▸ hsusp)
      omega
    · exact I.goto hquiet _ (by simp [Worked, hpc]) trivial trivial (.inl hquiet)
  | set cmd job hpc =>
    simp only [Stage, hpc] at hstage
    have hfits := (I.fits job hstage.1).resolve_right (by simp [Worked, hpc])
    exact I.move hquiet rfl rfl rfl (by simp [Worked, hpc]) ⟨hstage.1, hstage.2, hfits.stopped hstage.2⟩ trivial
      (.inr ⟨hstage.1, rfl, hquiet⟩)
  | cont job hpc =>
    simp only [Stage, hpc] at hstage
    refine I.sendPicked hquiet hpc Job.cont_absent (.wait job) (.inl rfl) ?_
    show (s.send (s.PT job).pid Job.cont).job (s.PT job).pid ≠ .killed
    rw [send_job, if_pos rfl, hstage.2.2]
    decide
  | kill job hpc =>
    simp only [Stage, hpc] at hstage
    refine I.sendPicked hquiet hpc Job.kill_absent (.mark .k job) (.inr rfl) ?_
    show (s.send (s.PT job).pid Job.kill).job (s.PT job).pid = .killed
    rw [send_job, if_pos rfl, hstage.2.2]
    rfl
  | wait job hpc hdead =>
    simp only [Stage, hpc] at hstage
    simp only [Known, hpc] at hknown
    have hjob := I.table.jobs job hstage.1 hstage.2
    refine ⟨I.table.congr rfl rfl, hstage, ?_, fun i hi => (I.fits i hi).imp_right fun h => ?_,
      I.held.imp_right fun h => ⟨h.1, hquiet⟩, no_frames hquiet⟩
    · show s.job (s.PT job).pid = .exited
      cases h : s.job (s.PT job).pid <;> simp_all [Job.live]
    · simp only [Worked, hpc] at h
      exact h
  | mark cmd job status hpc hst =>
    simp only [Known, hpc] at hknown
    cases cmd with
    | c =>
      have hc : s.main = some ((s.setStatus job .FINISHED).goto .decr) := by simp [Mgr.main, hpc]
      rw [Option.some.inj (hmain.symm.trans hc)]
      exact I.mark hquiet hpc (by decide) (congrArg Job.shown hknown)
    | k =>
      have hk : s.main = some ((s.setStatus job .TERMINATED).goto .decr) := by simp [Mgr.main, hpc]
      rw [Option.some.inj (hmain.symm.trans hk)]
      exact I.mark hquiet hpc (by decide) (congrArg Job.shown hknown)
  | decr hpc =>
    exact I.move hquiet rfl rfl rfl (by simp [Worked, hpc]) trivial trivial (I.held.imp_right fun h => ⟨h.1, .inl hquiet⟩)

/-! ## The steps of a handler -/

/-- Where `main` is when a handler has a job to work on. -/
theorem held_cases (I : TruthInv s) (hf : s.handlers = f :: rest) (hcc : s.currChild ≠ -1) :
    (∃ pid, s.pc = .waitRun pid ∧ (s.PT s.currChild).pid = pid) ∨ s.pc = .wait s.currChild ∨
      (s.pc = .prompt ∨ ∃ cmd, s.pc = .pick cmd) ∧ (s.PT s.currChild).status = .TERMINATED ∧
        ∀ g ∈ s.handlers, g.sig = .INT := by
  have hheld := (I.held.resolve_left hcc).2
  have hbusy : s.handlers ≠ [] := by simp [hf]
  cases hpc : s.pc <;> simp only [Held, hpc] at hheld
  case waitRun pid => exact .inl ⟨pid, rfl, hheld⟩
  case wait job => exact .inr (.inl (congrArg Pc.wait hheld.symm))
  case prompt => exact .inr (.inr ⟨.inl rfl, hheld.resolve_left hbusy⟩)
  case pick cmd => exact .inr (.inr ⟨.inr ⟨cmd, rfl⟩, hheld.resolve_left hbusy⟩)
  case kill => exact absurd hheld.2 hbusy
  all_goals exact absurd hheld hbusy

/-- `main` works on no job at a prompt. -/
theorem not_worked (hs : s.pc = .prompt ∨ ∃ cmd, s.pc = .pick cmd) (i : Int) : ¬ s.Worked i := by
  rcases hs with hs | ⟨cmd, hs⟩ <;> simp [Worked, hs]

/-- The job that `main` works on is the one that a handler has. -/
theorem eq_child_of_worked (I : TruthInv s) (hf : s.handlers = f :: rest) (hcc : s.currChild ≠ -1) (h : s.Worked i) :
    i = s.currChild := by
  rcases I.held_cases hf hcc with ⟨pid, hs, -⟩ | hs | ⟨hs, -⟩
  · simp only [Worked, hs] at h
    exact h.1
  · simp only [Worked, hs] at h
    exact h
  · exact absurd h (not_worked hs i)

/-- The innermost handler goes on. -/
theorem sig_cons (hf : s.handlers = f :: rest) (hint : ∀ g ∈ s.handlers, g.sig = .INT) (pc : HandlerPc) :
    ∀ g ∈ (⟨f.sig, pc⟩ :: rest : List Frame), g.sig = .INT := by
  intro g hg
  rcases List.mem_cons.1 hg with rfl | hg
  · exact hint f (hf ▸ List.mem_cons_self)
  · exact hint g (hf ▸ List.mem_cons_of_mem _ hg)

theorem ended_cons (F : s.TruthFrames f rest) (pc : HandlerPc) : ∀ job, s.pc = .wait job →
    ∀ g ∈ (⟨f.sig, pc⟩ :: rest : List Frame), g.sig = .INT → s.currChild = -1 ∨ (s.job (s.PT job).pid).live = false := by
  intro job hs g hg
  rcases List.mem_cons.1 hg with rfl | hg
  · exact F.ended job hs f List.mem_cons_self
  · exact F.ended job hs g (List.mem_cons_of_mem _ hg)

/-- The handler returns, or has nothing to do. -/
theorem back (I : TruthInv s) (hf : s.handlers = f :: rest) (hpc : f.pc = .reset ∨ s.currChild = -1) :
    TruthInv { s with currChild := -1, handlers := rest } := by
  have F := I.frames f rest hf
  refine ⟨I.table.congr rfl rfl, ?_, I.known, fun i hi => ?_, .inl rfl, fun g rest' hg => ?_⟩
  · have hstage := I.stage
    cases hs : s.pc <;> simp only [Stage, hs] at hstage ⊢
    case record =>
      have hcc := slot_ne hstage.2.1
      have hheld := (I.held.resolve_left hcc).2
      simp [Held, hs, hf] at hheld
    all_goals exact hstage
  · rcases I.fits i hi with h | h
    · exact .inl h
    · cases hs : s.pc <;> simp only [Worked, hs] at h
      case waitRun pid =>
        obtain ⟨rfl, -⟩ := h
        exact .inl (F.done pid hs (slot_ne hi) (hpc.resolve_right (slot_ne hi)))
      case wait => exact .inr (by simpa only [Worked, hs] using h)
      case mark => exact .inr (by simpa only [Worked, hs] using h)
  · obtain rfl : rest = g :: rest' := hg
    have hg := F.below g List.mem_cons_self
    refine ⟨fun _ => hg, fun _ _ h => absurd rfl h, fun _ _ h => ?_, fun _ _ _ _ _ => .inl rfl, fun _ _ h => absurd rfl h,
      fun k hk => F.below k (List.mem_cons_of_mem _ hk)⟩
    rcases hg with hg | hg <;> exact absurd (hg.symm.trans h) (by decide)

/-- The handler goes on and touches no entry and no job. -/
theorem advance (I : TruthInv s) (hf : s.handlers = f :: rest) (hcc : s.currChild ≠ -1)
    (hf0 : f.pc = .test ∨ f.pc = .count) (n : Int) {pc : HandlerPc} (hpc : pc = .count ∨ pc = .mark) :
    TruthInv { s with numSuspended := n, handlers := ⟨f.sig, pc⟩ :: rest } := by
  have F := I.frames f rest hf
  have hreset : f.pc ≠ .reset := by
    rcases hf0 with h | h <;> simp [h]
  have hpc' : pc ≠ .reset ∧ pc ≠ .kill := by
    rcases hpc with rfl | rfl <;> decide
  refine ⟨I.table.congr rfl rfl, I.stage, I.known, fun i hi => (I.fits i hi).imp_right fun h => ?_,
    .inr ⟨(I.held.resolve_left hcc).1, ?_⟩, fun g rest' hg => ?_⟩
  · cases hs : s.pc <;> simp only [Worked, hs] at h ⊢
    case waitRun =>
      refine ⟨h.1, h.2.imp_right ?_⟩
      rintro ⟨sig, hsig⟩
      rw [hf, List.head?_cons, Option.some.injEq] at hsig
      rcases hf0 with h | h <;> simp [hsig] at h
    case wait => exact h
    case mark => exact h
  · rcases I.held_cases hf hcc with ⟨pid, hs, hpid⟩ | hs | ⟨hs, hst, hint⟩
    · simpa only [Held, hs] using hpid
    · simp only [Held, hs]
    · have hint' := sig_cons hf hint pc
      rcases hs with hs | ⟨cmd, hs⟩ <;> simp only [Held, hs] <;> exact .inr ⟨hst, hint'⟩
  · cases hg
    exact ⟨fun h => absurd h hcc, fun pid hs h _ => F.run pid hs h hreset, fun _ _ h => absurd h hpc'.2,
      ended_cons F pc, fun _ _ _ h => absurd h hpc'.1, F.below⟩

/-- `currChild` is in use. -/
theorem child_used (I : TruthInv s) (hf : s.handlers = f :: rest) (hcc : s.currChild ≠ -1) (hreset : f.pc ≠ .reset) :
    (s.PT s.currChild).pid ≠ 0 := by
  have hslot := (I.held.resolve_left hcc).1
  rcases I.held_cases hf hcc with ⟨pid, hs, hpid⟩ | hs | ⟨hs, hst, -⟩
  · rw [hpid]
    exact Int.ne_of_gt (I.table.forked pid (Job.live_ne_absent ((I.frames f rest hf).run pid hs hcc hreset)))
  · have hstage := I.stage
    simp only [Stage, hs] at hstage
    exact hstage.2
  · have hkilled := ((I.fits _ hslot).resolve_right (not_worked hs _)).killed hst
    exact Int.ne_of_gt (I.table.forked _ (by simp [hkilled]))

/-- The handler marks the entry `currChild`. -/
theorem markChild (I : TruthInv s) {sig : Sig} (hf : s.handlers = ⟨sig, .mark⟩ :: rest) :
    TruthInv { s.setStatus s.currChild sig.status with handlers := ⟨sig, .kill⟩ :: rest } := by
  have F := I.frames _ rest hf
  have hcc : s.currChild ≠ -1 := fun h => by simpa using F.free h
  have hslot := (I.held.resolve_left hcc).1
  have hpid : ∀ i, ((s.setStatus s.currChild sig.status).PT i).pid = (s.PT i).pid := fun i => setStatus_pid _ _ _ _
  have hstatus : ∀ i, ((s.setStatus s.currChild sig.status).PT i).status =
      if i = s.currChild then sig.status else (s.PT i).status := fun i => setStatus_status _ _ _ _
  have hcases := I.held_cases hf hcc
  refine ⟨(I.table.setStatus fun _ => ⟨hslot, I.child_used hf hcc (by simp)⟩).congr rfl rfl, ?_, ?_, fun i hi => ?_, .inr ⟨hslot, ?_⟩, fun g rest' hg => ?_⟩
  · have hstage := I.stage
    rcases hcases with ⟨pid, hs, -⟩ | hs | ⟨hs | ⟨cmd, hs⟩, -⟩ <;> simp only [Stage, hs] at hstage <;>
      simp only [Stage, setStatus, hs]
    exact ⟨hstage.1, (hpid _).trans_ne hstage.2⟩
  · have hknown := I.known
    rcases hcases with ⟨pid, hs, -⟩ | hs | ⟨hs | ⟨cmd, hs⟩, -⟩ <;> simp only [Known, hs] at hknown <;>
      simp only [Known, setStatus, hs]
    show s.job ((s.setStatus s.currChild sig.status).PT s.currChild).pid ≠ .killed
    rw [hpid]
    exact hknown
  · by_cases hic : i = s.currChild
    · rcases hcases with ⟨pid, hs, -⟩ | hs | ⟨hs, hst, hint⟩
      · right
        simp only [Worked, setStatus, hs]
        exact ⟨hic, .inr ⟨sig, rfl⟩⟩
      · right
        simp only [Worked, setStatus, hs]
        exact hic
      -- the job was killed before, and the status stays
      · left
        obtain rfl : sig = .INT := hint _ (hf ▸ List.mem_cons_self)
        have hfits := (I.fits i hi).resolve_right (not_worked hs i)
        show (s.job ((s.setStatus s.currChild Sig.INT.status).PT i).pid).shown =
          some ((s.setStatus s.currChild Sig.INT.status).PT i).status
        rw [hpid, hstatus, if_pos hic]
        rw [Fits, hic, hst] at hfits
        exact hic ▸ hfits
    · have hfits := (I.fits i hi).resolve_right (mt (I.eq_child_of_worked hf hcc) hic)
      left
      show (s.job ((s.setStatus s.currChild sig.status).PT i).pid).shown =
        some ((s.setStatus s.currChild sig.status).PT i).status
      rw [hpid, hstatus, if_neg hic]
      exact hfits
  · rcases hcases with ⟨pid, hs, hpid'⟩ | hs | ⟨hs, hst, hint⟩
    · simp only [Held, setStatus, hs]
      exact (hpid _).trans hpid'
    · simp only [Held, setStatus, hs]
    · obtain rfl : sig = .INT := hint _ (hf ▸ List.mem_cons_self)
      have hst' : ((s.setStatus s.currChild Sig.INT.status).PT s.currChild).status = .TERMINATED :=
        (hstatus _).trans (if_pos rfl)
      have hint' := sig_cons hf hint .kill
      rcases hs with hs | ⟨cmd, hs⟩ <;> simp only [Held, setStatus, hs] <;> exact .inr ⟨hst', hint'⟩
  · cases hg
    refine ⟨fun h => absurd h hcc, fun pid hs h _ => F.run pid hs h (by simp), fun _ _ _ => ?_, fun job hs g hg hint => ?_,
      fun _ _ _ h => by simp at h, F.below⟩
    · exact (hstatus _).trans (if_pos rfl)
    · right
      show (s.job ((s.setStatus s.currChild sig.status).PT job).pid).live = false
      rw [hpid]
      exact (ended_cons F .kill job hs g hg hint).resolve_left hcc

/-- The handler sends its signal to `currChild`. -/
theorem signalChild (I : TruthInv s) {sig : Sig} (hf : s.handlers = ⟨sig, .kill⟩ :: rest) :
    TruthInv { s.send (s.PT s.currChild).pid sig.act with handlers := ⟨sig, .reset⟩ :: rest } := by
  have F := I.frames _ rest hf
  have hcc : s.currChild ≠ -1 := fun h => by simpa using F.free h
  have hslot := (I.held.resolve_left hcc).1
  have hcases := I.held_cases hf hcc
  have hused := I.child_used hf hcc (by simp)
  have hself : (s.send (s.PT s.currChild).pid sig.act).job (s.PT s.currChild).pid =
      sig.act (s.job (s.PT s.currChild).pid) := by rw [send_job, if_pos rfl]
  have hdead : ∀ q, (s.job q).live = false → ((s.send (s.PT s.currChild).pid sig.act).job q).live = false := by
    intro q hq
    rw [send_job]
    split_ifs with h
    · rw [← h, Job.act_dead hq]
      exact hq
    · exact hq
  -- a job that `r` waits for has been marked, and becomes what its status says
  have hdone : ∀ pid, s.pc = .waitRun pid →
      ((s.send (s.PT s.currChild).pid sig.act).job (s.PT s.currChild).pid).shown = some (s.PT s.currChild).status := by
    intro pid hs
    have hheld := (I.held.resolve_left hcc).2
    simp only [Held, hs] at hheld
    rw [hself, F.marked pid hs rfl]
    exact Job.shown_act (hheld ▸ F.run pid hs hcc (by simp)) sig
  refine ⟨(I.table.send (Job.act_absent sig)).congr rfl rfl, ?_, ?_, fun i hi => ?_, .inr ⟨hslot, ?_⟩,
    fun g rest' hg => ?_⟩
  · have hstage := I.stage
    rcases hcases with ⟨pid, hs, -⟩ | hs | ⟨hs | ⟨cmd, hs⟩, -⟩ <;> simp only [Stage, hs] at hstage <;>
      simp only [Stage, send, hs]
    exact hstage
  · have hknown := I.known
    rcases hcases with ⟨pid, hs, -⟩ | hs | ⟨hs | ⟨cmd, hs⟩, -⟩ <;> simp only [Known, hs] at hknown <;>
      simp only [Known, send, hs]
    show (s.send (s.PT s.currChild).pid sig.act).job (s.PT s.currChild).pid ≠ .killed
    rw [hself]
    exact Job.act_ne_killed hknown fun h => (F.ended _ hs _ List.mem_cons_self h).resolve_left hcc
  · by_cases hic : i = s.currChild
    · rcases hcases with ⟨pid, hs, -⟩ | hs | ⟨hs, hst, -⟩
      · left
        rw [hic]
        exact hdone pid hs
      · right
        simp only [Worked, send, hs]
        exact hic
      -- the job was killed before
      · left
        have hfits := (I.fits i hi).resolve_right (not_worked hs i)
        have hkilled := hfits.killed (hic ▸ hst)
        show ((s.send (s.PT s.currChild).pid sig.act).job (s.PT i).pid).shown = some (s.PT i).status
        rw [hic] at hfits hkilled ⊢
        rw [hself, Job.act_dead (by rw [hkilled]; rfl)]
        exact hfits
    · have hfits := (I.fits i hi).resolve_right (mt (I.eq_child_of_worked hf hcc) hic)
      left
      show ((s.send (s.PT s.currChild).pid sig.act).job (s.PT i).pid).shown = some (s.PT i).status
      rw [I.table.other hslot hused hi hic]
      exact hfits
  · rcases hcases with ⟨pid, hs, hpid⟩ | hs | ⟨hs, hst, hint⟩
    · simpa only [Held, send, hs] using hpid
    · simp only [Held, send, hs]
    · have hint' := sig_cons hf hint .reset
      rcases hs with hs | ⟨cmd, hs⟩ <;> simp only [Held, send, hs] <;> exact .inr ⟨hst, hint'⟩
  · cases hg
    exact ⟨fun _ => .inr rfl, fun _ _ _ h => absurd rfl h, fun _ _ h => by simp at h,
      fun job hs g hg hint => (ended_cons F .reset job hs g hg hint).imp_right (hdead _),
      fun pid hs _ _ => hdone pid hs, F.below⟩

theorem handler (I : TruthInv s) (hf : s.handlers = f :: rest) : TruthInv (s.handler f rest) := by
  have F := I.frames f rest hf
  obtain ⟨sig, pc⟩ := f
  cases pc with
  | test =>
    by_cases hcc : s.currChild = -1
    · have hback := I.back hf (.inr hcc)
      simpa [Mgr.handler, hcc] using hback
    · simp only [Mgr.handler, hcc, if_false]
      exact I.advance hf hcc (.inl rfl) s.numSuspended (by split_ifs <;> simp)
  | count =>
    have hcc : s.currChild ≠ -1 := fun h => by simpa using F.free h
    exact I.advance hf hcc (.inr rfl) (s.numSuspended + 1) (.inr rfl)
  | mark => cases sig <;> exact I.markChild hf
  | kill => cases sig <;> exact I.signalChild hf
  | reset => exact I.back hf (.inl rfl)

/-! ## Signals, and jobs that end -/

theorem signal (I : TruthInv s) {sig : Sig} (hok : s.Orderly (.signal sig)) :
    TruthInv { s with handlers := ⟨sig, .test⟩ :: s.handlers } := by
  have hbelow : ∀ g ∈ s.handlers, g.pc = .test ∨ g.pc = .reset := by
    intro g hg
    rcases hok with hcc | ⟨-, hall⟩
    · cases hf : s.handlers with
      | nil => exact absurd (hf ▸ hg) List.not_mem_nil
      | cons f rest =>
        have F := I.frames f rest hf
        rcases List.mem_cons.1 (hf ▸ hg) with rfl | hg
        · exact F.free hcc
        · exact F.below g hg
    · exact hall g hg
  have hheld : s.currChild = -1 ∨ Slot s.currChild ∧ Held { s with handlers := ⟨sig, .test⟩ :: s.handlers } := by
    rcases hok with hcc | ⟨hharm, -⟩
    · exact .inl hcc
    · refine I.held.imp_right fun h => ⟨h.1, ?_⟩
      have hheld := h.2
      have hcons : sig = .INT → (s.handlers = [] ∨ (s.PT s.currChild).status = .TERMINATED ∧
          ∀ f ∈ s.handlers, f.sig = .INT) → ∀ f ∈ (⟨sig, .test⟩ :: s.handlers : List Frame), f.sig = .INT := by
        rintro rfl hold f hf
        rcases List.mem_cons.1 hf with rfl | hf
        · rfl
        · rcases hold with hold | hold
          · simp [hold] at hf
          · exact hold.2 f hf
      cases hs : s.pc <;> simp only [Harmless, hs] at hharm <;> simp only [Held, hs] at hheld ⊢
      case prompt => exact .inr ⟨hharm.2, hcons hharm.1 hheld⟩
      case pick => exact .inr ⟨hharm.2, hcons hharm.1 hheld⟩
      case waitRun => exact hheld
      case wait => exact hheld
  refine ⟨I.table.congr rfl rfl, I.stage, I.known, fun i hi => (I.fits i hi).imp_right fun h => ?_, hheld, ?_⟩
  · cases hs : s.pc <;> simp only [Worked, hs] at h ⊢
    case waitRun =>
      refine ⟨h.1, h.2.imp_right ?_⟩
      rintro ⟨sig', hsig⟩
      have := hbelow _ (List.mem_of_head? hsig)
      simp at this
    case wait => exact h
    case mark => exact h
  · rintro f rest hf
    obtain ⟨rfl, rfl⟩ := List.cons.inj hf
    refine ⟨fun _ => .inl rfl, fun pid hs hcc _ => ?_, fun _ _ h => by simp at h, fun job hs g hg hint => ?_,
      fun _ _ _ h => by simp at h, hbelow⟩
    · have hharm := (hok.resolve_left hcc).1
      simpa only [Harmless, show s.pc = .waitRun pid from hs] using hharm
    · rcases List.mem_cons.1 hg with rfl | hg
      · obtain rfl : sig = .INT := hint
        refine hok.imp_right fun hharm => ?_
        have hharm := hharm.1
        simp only [Harmless, show s.pc = .wait job from hs] at hharm
        exact hharm.resolve_left (by decide)
      · cases hf : s.handlers with
        | nil => simp [hf] at hg
        | cons f' rest' => exact (I.frames f' rest' hf).ended job hs g (hf ▸ hg) hint

theorem known_finish (hrun : s.job pid = .running) (hknown : s.Known) :
    Known { s with job := update s.job pid .exited } := by
  have hforked : ∀ q, s.job q = .running ∨ s.job q = .exited →
      update s.job pid .exited q = .running ∨ update s.job pid .exited q = .exited := by
    intro q h
    by_cases hqp : q = pid
    · exact .inr (by simp [hqp])
    · simpa [hqp] using h
  cases hs : s.pc <;> simp only [Known, hs] at hknown ⊢
  case slot => exact hforked _ hknown
  case record => exact hforked _ hknown
  case wait job =>
    by_cases hjob : (s.PT job).pid = pid
    · simp [hjob]
    · simpa [hjob] using hknown
  case mark cmd job =>
    cases cmd with
    | c => exact (update_exited hrun (by simp [hknown])).trans hknown
    | k => exact (update_exited hrun (by simp [hknown])).trans hknown

theorem fits_finish (hrun : s.job pid = .running) (h : s.Fits i) : Fits { s with job := update s.job pid .exited } i := by
  show (update s.job pid .exited (s.PT i).pid).shown = some (s.PT i).status
  rw [update_exited hrun h.not_running]
  exact h

/-- The job that `r` waits for gets the status that it has in the table already. -/
theorem worked_finish (h : s.Worked i) :
    Fits { s with job := update s.job pid .exited } i ∨ Worked { s with job := update s.job pid .exited } i := by
  cases hs : s.pc <;> simp only [Worked, hs] at h
  case waitRun =>
    obtain ⟨hic, ⟨hst, hjob⟩ | hkill⟩ := h
    · by_cases hip : (s.PT i).pid = pid
      · left
        simp [Fits, hip, hst, Job.shown]
      · right
        simp only [Worked]
        exact ⟨hic, .inl ⟨hst, by simpa [hip] using hjob⟩⟩
    · right
      simp only [Worked]
      exact ⟨hic, .inr hkill⟩
  case wait => exact .inr (by simpa only [Worked, hs] using h)
  case mark => exact .inr (by simpa only [Worked, hs] using h)

theorem finish (I : TruthInv s) (hrun : s.job pid = .running) (hok : s.Orderly (.finish pid)) :
    TruthInv { s with job := update s.job pid .exited } := by
  refine ⟨I.table.finish hrun, stage_finish hrun I.stage, known_finish hrun I.known,
    fun i hi => (I.fits i hi).elim (fun h => .inl (fits_finish hrun h)) worked_finish, I.held, fun f rest hf => ?_⟩
  have F := I.frames f rest hf
  refine ⟨F.free, fun q hs hcc hreset => ?_, F.marked, fun job hs g hg hint => ?_, fun q hs hcc hreset => ?_, F.below⟩
  · have hqp : q ≠ pid := by
      rintro rfl
      rcases hok with hquiet | h | h
      · exact absurd (hquiet.symm.trans hf) (by simp)
      · exact hcc h
      · exact h hs
    show (update s.job pid .exited q).live = true
    rw [Function.update_of_ne hqp]
    exact F.run q hs hcc hreset
  · refine (F.ended job hs g hg hint).imp_right fun hdead => ?_
    show (update s.job pid .exited (s.PT job).pid).live = false
    rw [update_exited hrun fun h => by simp [h, Job.live] at hdead]
    exact hdead
  · exact fits_finish hrun (F.done q hs hcc hreset)

theorem step (I : TruthInv s) {m : Move} (hok : s.Orderly m) (h : s.step m = some s') : TruthInv s' := by
  cases Mgr.moved_of_step h with
  | command cmd hquiet hpc =>
    have hheld : (s.goto (afterCommand cmd)).Held := by
      cases cmd <;> first | exact .inl hquiet | exact hquiet
    exact I.goto hquiet _ (by simp [Worked, hpc]) (by cases cmd <;> trivial) (by cases cmd <;> trivial) hheld
  | pick cmd job hquiet hpc => exact I.goto hquiet _ (by simp [Worked, hpc]) hok trivial hquiet
  | fork pid hquiet hpc hpos habsent => exact I.fork hquiet hpc hpos habsent
  | next s' hquiet _ =>
    rw [Mgr.step, if_pos hquiet] at h
    exact I.next hquiet h
  | handler f rest hf => exact I.handler hf
  | signal sig _ => exact I.signal hok
  | finish pid hrun => exact I.finish hrun hok

end TruthInv

end Mgr

end OsLab.A2
