import OsLab.A2.Mgr

/-!
# Whom mgr sends signals to (A2/mgr.c)

The handler sends its signal to `PT[currChild].pid` and trusts `currChild`. That is the job mgr waits for from the
moment `r` has written its entry, or `c` has continued it, until the job ends. It is not, and the signal goes to
no live job, between `currChild = i` and the entry in `r` (the pid there is still 0), behind `waitpid` in `c`, and
behind `kill` in `k`, which leave `currChild` at a job that is over (`AtLiveJob`).
-/

namespace OsLab.A2

open Function (update)

/-- `main` waits: for a command, a job number or a job. -/
def Pc.rests : Pc → Bool
  | .prompt | .pick _ | .waitRun _ | .wait _ => true
  | _ => false

namespace Mgr

variable {s s' : Mgr} {i j pid : Int} {f : Frame} {rest : List Frame}

/-- Signals reach mgr at a prompt and in `waitpid` only, job numbers name slots of the table. -/
def AtRest (s : Mgr) : Move → Prop
  | .signal _ => s.pc.rests = true
  | .pick job => 0 ≤ job ∧ job ≤ 10
  | _ => True

instance (s : Mgr) : ∀ m, Decidable (s.AtRest m)
  | .signal _ => inferInstanceAs (Decidable (s.pc.rests = true))
  | .pick job => inferInstanceAs (Decidable (0 ≤ job ∧ job ≤ 10))
  | .command _ | .fork _ | .next | .handler | .finish _ => isTrue trivial

/-- The job that mgr works on is not over when `sig` arrives, and will not be when mgr's own call of `kill` comes. -/
def Aimed (s : Mgr) (sig : Sig) : Prop :=
  match s.pc with
  | .waitRun pid => (s.job pid).live = true
  | .wait job => (s.job (s.PT job).pid).live = true
  | .kill _ _ => sig = .TSTP
  | _ => False

instance (s : Mgr) (sig : Sig) : Decidable (s.Aimed sig) := by
  unfold Aimed
  split <;> infer_instance

/-- A signal arrives while `currChild` is -1, or while mgr works on a job as in `Aimed` and no handler is between
its test of `currChild` and its last statement, where the one of `SIGTSTP` may be. A job does not end by itself
while a handler is about to send it a signal. The job number names a slot of the table. -/
def AtLiveJob (s : Mgr) : Move → Prop
  | .signal sig => s.currChild = -1 ∨
      s.Aimed sig ∧ ∀ f ∈ s.handlers, f.pc = .test ∨ f = ⟨.TSTP, .reset⟩
  | .finish pid => s.handlers = [] ∨ s.currChild = -1 ∨ (s.PT s.currChild).pid ≠ pid
  | .pick job => 0 ≤ job ∧ job ≤ 10
  | _ => True

instance (s : Mgr) : ∀ m, Decidable (s.AtLiveJob m)
  | .signal sig => inferInstanceAs (Decidable (s.currChild = -1 ∨
      s.Aimed sig ∧ ∀ f ∈ s.handlers, f.pc = .test ∨ f = ⟨.TSTP, .reset⟩))
  | .finish pid => inferInstanceAs (Decidable (s.handlers = [] ∨ s.currChild = -1 ∨ (s.PT s.currChild).pid ≠ pid))
  | .pick job => inferInstanceAs (Decidable (0 ≤ job ∧ job ≤ 10))
  | .command _ => isTrue trivial
  | .fork _ => isTrue trivial
  | .next => isTrue trivial
  | .handler => isTrue trivial

/-! ## The invariant -/

def Slot (i : Int) : Prop := 1 ≤ i ∧ i ≤ 10

/-- The slots in use hold the pids of different jobs. -/
structure Table (s : Mgr) : Prop where
  self : (s.PT 0).pid ≠ 0 ∧ (s.PT 0).status ≠ .SUSPENDED
  forked : ∀ pid, s.job pid ≠ .absent → 0 < pid
  jobs : ∀ i, Slot i → (s.PT i).pid ≠ 0 → s.job (s.PT i).pid ≠ .absent
  distinct : ∀ i j, Slot i → Slot j → (s.PT i).pid = (s.PT j).pid → (s.PT i).pid ≠ 0 → i = j
  empty : ∀ i, Slot i → (s.PT i).status = .SUSPENDED → (s.PT i).pid ≠ 0

/-- The slot that a `c`, a `k` or the handler of `SIGTSTP` is working on. -/
def Busy (s : Mgr) (i : Int) : Prop :=
  s.pc = .wait i ∨ (∃ cmd, s.pc = .mark cmd i) ∨ s.currChild = i ∧ s.handlers.head? = some ⟨.TSTP, .kill⟩

/-- The process in slot `i` is a job that has not terminated. -/
def Live (s : Mgr) (i : Int) : Prop := Slot i ∧ (s.job (s.PT i).pid).live = true

/-- `pid` is a job that is not in the table yet. -/
def New (s : Mgr) (pid : Int) : Prop := s.job pid ≠ .absent ∧ ∀ i, Slot i → (s.PT i).pid ≠ pid

/-- What `main` knows where it is. -/
def Stage (s : Mgr) : Prop :=
  match s.pc with
  | .fork => (s.PT 10).pid = 0
  | .slot pid => s.New pid ∧ (s.PT 10).pid = 0
  | .record pid => s.New pid ∧ Slot s.currChild ∧ (s.PT s.currChild).pid = 0
  | .check _ job => 0 ≤ job ∧ job ≤ 10
  | .set _ job => Slot job ∧ (s.PT job).status = .SUSPENDED
  | .kill _ job => Slot job ∧ (s.PT job).status = .SUSPENDED ∧ s.job (s.PT job).pid = .stopped
  | .wait job => Slot job ∧ (s.PT job).pid ≠ 0
  | .mark _ job => Slot job ∧ (s.PT job).pid ≠ 0
  | _ => True

/-- `currChild` names the job that `main` works on; elsewhere no handler runs that would use it. -/
def Engaged (s : Mgr) : Prop :=
  match s.pc with
  | .waitRun pid => Slot s.currChild ∧ (s.PT s.currChild).pid = pid
  | .wait job => s.currChild = job
  | .kill _ job => s.currChild = job ∧ ∀ f ∈ s.handlers, f.sig = .TSTP
  | _ => s.handlers = []

/-- The innermost handler has a live job to send its signal to, or nothing to send; the others send nothing any
more, or have not looked at `currChild` yet. -/
structure Frames (s : Mgr) (f : Frame) (rest : List Frame) : Prop where
  aim : f.pc ≠ .reset → s.currChild = -1 ∧ f.pc = .test ∨ s.Live s.currChild
  marked : f = ⟨.INT, .kill⟩ → (s.PT s.currChild).status ≠ .SUSPENDED
  below : ∀ g ∈ rest, g.pc = .test ∨ g.pc = .reset

structure MgrInv (s : Mgr) : Prop where
  table : s.Table
  suspended : ∀ i, Slot i → (s.PT i).status = .SUSPENDED → s.job (s.PT i).pid = .stopped ∨ s.Busy i
  stage : s.Stage
  engaged : s.currChild = -1 ∨ s.Engaged
  frames : ∀ f rest, s.handlers = f :: rest → s.Frames f rest
  kills : ∀ e ∈ s.kills, 0 < e.1 ∧ e.2 = true

/-! ## The table -/

/-- The search finds a slot of the table when the last one is empty: mgr's own entry is not. -/
theorem firstEmpty_slot (h0 : (s.PT 0).pid ≠ 0) (h : (s.PT 10).pid = 0) :
    ∃ i, s.firstEmpty = some i ∧ Slot i ∧ (s.PT i).pid = 0 := by
  obtain ⟨n, hn, hlt, hpid⟩ := exists_firstEmpty h
  have hpos : n ≠ 0 := by
    rintro rfl
    exact h0 hpid
  exact ⟨n, hn, ⟨by omega, by omega⟩, hpid⟩

namespace Table

/-- Pids stay, and a slot is only marked `SUSPENDED` when it is in use. -/
theorem mono (T : s.Table) (hpid : ∀ i, (s'.PT i).pid = (s.PT i).pid)
    (hstatus : ∀ i, (s'.PT i).status = .SUSPENDED → (s.PT i).status = .SUSPENDED ∨ Slot i ∧ (s.PT i).pid ≠ 0)
    (hjob : ∀ pid, s'.job pid = .absent ↔ s.job pid = .absent) : s'.Table where
  self := by
    refine ⟨hpid 0 ▸ T.self.1, fun h => ?_⟩
    rcases hstatus 0 h with h | h
    · exact T.self.2 h
    · exact absurd h.1.1 (by decide)
  forked pid h := T.forked pid fun h' => h ((hjob pid).2 h')
  jobs i hi h := by
    rw [hpid] at h ⊢
    exact fun h' => T.jobs i hi h ((hjob _).1 h')
  distinct i j hi hj h h0 := by
    rw [hpid] at h h0
    rw [hpid] at h
    exact T.distinct i j hi hj h h0
  empty i hi h := by
    rw [hpid]
    rcases hstatus i h with h | h
    · exact T.empty i hi h
    · exact h.2

theorem congr (T : s.Table) (hPT : s'.PT = s.PT) (hjob : s'.job = s.job) : s'.Table :=
  T.mono (fun _ => by rw [hPT]) (fun _ h => .inl (hPT ▸ h)) fun _ => by rw [hjob]

theorem setStatus (T : s.Table) {status : Status} (h : status = .SUSPENDED → Slot i ∧ (s.PT i).pid ≠ 0) :
    (s.setStatus i status).Table := by
  refine T.mono (fun j => setStatus_pid _ _ _ _) (fun j hj => ?_) fun _ => Iff.rfl
  rw [setStatus_status] at hj
  split_ifs at hj with hji
  · exact .inr (hji ▸ h hj)
  · exact .inl hj

theorem send (T : s.Table) {act : Job → Job} (hact : ∀ j, act j = .absent ↔ j = .absent) : (s.send pid act).Table := by
  refine T.mono (fun _ => rfl) (fun _ h => .inl h) fun q => ?_
  rw [send_job]
  split_ifs with hq
  · rw [hq, hact]
  · rfl

/-- A job that is not in the table yet gets an entry. -/
theorem record (T : s.Table) (hnew : s.New pid) (hi : Slot i) :
    Table { s with PT := update s.PT i ⟨pid, .FINISHED⟩, pc := .waitRun pid } where
  self := by
    have h0 : (0 : Int) ≠ i := fun h => absurd (h ▸ hi).1 (by decide)
    simpa [h0] using T.self
  forked := T.forked
  jobs j hj := by
    by_cases hji : j = i
    · simpa [hji] using fun _ => hnew.1
    · simpa [hji] using T.jobs j hj
  distinct j l hj hl := by
    by_cases hji : j = i <;> by_cases hli : l = i
    · exact fun _ _ => hji.trans hli.symm
    · simpa [hji, hli] using fun h : pid = (s.PT l).pid => absurd h.symm (hnew.2 l hl)
    · simpa [hji, hli] using fun h : (s.PT j).pid = pid => absurd h (hnew.2 j hj)
    · simpa [hji, hli] using T.distinct j l hj hl
  empty j hj := by
    by_cases hji : j = i
    · simp [hji]
    · simpa [hji] using T.empty j hj

/-- There is an empty slot when the last one is empty. -/
theorem firstEmpty (T : s.Table) (h : (s.PT 10).pid = 0) :
    ∃ i, s.firstEmpty = some i ∧ Slot i ∧ (s.PT i).pid = 0 :=
  firstEmpty_slot T.self.1 h

theorem pos (T : s.Table) (h : s.Live i) : 0 < (s.PT i).pid := T.forked _ (Job.live_ne_absent h.2)

/-- A signal to slot `i` changes the jobs of no other slot. -/
theorem other (T : s.Table) (hi : Slot i) (h0 : (s.PT i).pid ≠ 0) (hj : Slot j) (hji : j ≠ i) (act : Job → Job) :
    (s.send (s.PT i).pid act).job (s.PT j).pid = s.job (s.PT j).pid := by
  rw [send_job, if_neg]
  intro h
  exact hji (T.distinct j i hj hi h (h ▸ h0))

/-- The kernel gives a new job a pid that no slot holds. -/
theorem pid_ne (T : s.Table) (hpos : 0 < pid) (habsent : s.job pid = .absent) (hi : Slot i) : (s.PT i).pid ≠ pid := by
  intro h
  refine T.jobs i hi ?_ (h ▸ habsent)
  omega

theorem fork (T : s.Table) (hpos : 0 < pid) (habsent : s.job pid = .absent) :
    Table { s with job := update s.job pid .running, pc := .slot pid } where
  self := T.self
  forked q hq := by
    by_cases hqp : q = pid
    · exact hqp ▸ hpos
    · exact T.forked q (by simpa [hqp] using hq)
  jobs i hi h := by simpa [T.pid_ne hpos habsent hi] using T.jobs i hi h
  distinct := T.distinct
  empty := T.empty

/-- A job ends by itself. -/
theorem finish (T : s.Table) (hrun : s.job pid = .running) : Table { s with job := update s.job pid .exited } := by
  refine T.mono (fun _ => rfl) (fun _ h => .inl h) fun q => ?_
  by_cases hqp : q = pid
  · simp [hqp, hrun]
  · simp [hqp]

end Table

/-- A job that ends by itself was running. -/
theorem update_exited {q : Int} (hrun : s.job pid = .running) (hq : s.job q ≠ .running) :
    update s.job pid .exited q = s.job q := by
  refine Function.update_of_ne ?_ _ _
  rintro rfl
  exact hq hrun

theorem stage_finish (hrun : s.job pid = .running) (hstage : s.Stage) :
    Stage { s with job := update s.job pid .exited } := by
  have habsent : ∀ q, s.job q ≠ .absent → update s.job pid .exited q ≠ .absent := by
    intro q hq
    by_cases hqp : q = pid
    · simp [hqp]
    · simpa [hqp] using hq
  cases hpc : s.pc <;> simp only [Stage, hpc] at hstage ⊢
  case slot => exact ⟨⟨habsent _ hstage.1.1, hstage.1.2⟩, hstage.2⟩
  case record => exact ⟨⟨habsent _ hstage.1.1, hstage.1.2⟩, hstage.2⟩
  case kill => exact ⟨hstage.1, hstage.2.1, (update_exited hrun (by simp [hstage.2.2])).trans hstage.2.2⟩
  all_goals exact hstage

/-! ## The steps of `main` -/

namespace MgrInv

theorem init (self : Int) (mem : Int → Entry) (hself : 0 < self) : MgrInv (Mgr.init self mem) where
  table := by
    have hpt : ∀ i, Slot i → (Mgr.init self mem).PT i = ⟨0, .EMPTY⟩ := fun i hi => by
      have h0 : i ≠ 0 := fun h => absurd (h ▸ hi).1 (by decide)
      simp [Mgr.init, h0, hi.1, hi.2]
    refine ⟨⟨Int.ne_of_gt hself, by simp [Mgr.init]⟩, fun _ h => absurd rfl h, fun i hi h => ?_,
      fun i j hi hj _ h => ?_, fun i hi h => ?_⟩
    · exact absurd (by rw [hpt i hi]) h
    · exact absurd (by rw [hpt i hi]) h
    · rw [hpt i hi] at h
      exact absurd h (by decide)
  suspended i hi h := by
    have h0 : i ≠ 0 := fun h => absurd (h ▸ hi).1 (by decide)
    exact absurd h (by simp [Mgr.init, h0, hi.1, hi.2])
  stage := trivial
  engaged := .inl rfl
  frames _ _ h := absurd h (by simp [Mgr.init])
  kills _ h := absurd h List.not_mem_nil

theorem no_frames (hquiet : s.handlers = []) : ∀ f rest, s.handlers = f :: rest → s.Frames f rest := by
  intro f rest hf
  exact absurd (hquiet.symm.trans hf) (by simp)

/-- Suspended jobs are stopped while nobody works on one. -/
theorem stopped (I : MgrInv s) (hquiet : s.handlers = []) (hwait : ∀ i, s.pc ≠ .wait i)
    (hmark : ∀ cmd i, s.pc ≠ .mark cmd i) (hi : Slot i) (h : (s.PT i).status = .SUSPENDED) :
    s.job (s.PT i).pid = .stopped := by
  rcases I.suspended i hi h with h | h | ⟨cmd, h⟩ | h
  · exact h
  · exact absurd h (hwait i)
  · exact absurd h (hmark cmd i)
  · exact absurd h.2 (by simp [hquiet])

/-- `main` goes on and touches no entry and no job. -/
theorem move (I : MgrInv s) (hquiet : s.handlers = []) (hPT : s'.PT = s.PT) (hjob : s'.job = s.job)
    (hhandlers : s'.handlers = s.handlers) (hkills : s'.kills = s.kills) (hwait : ∀ i, s.pc ≠ .wait i)
    (hmark : ∀ cmd i, s.pc ≠ .mark cmd i) (hstage : s'.Stage) (hengaged : s'.currChild = -1 ∨ s'.Engaged) :
    MgrInv s' where
  table := I.table.congr hPT hjob
  suspended i hi h := by
    rw [hPT] at h
    rw [hPT, hjob]
    exact .inl (I.stopped hquiet hwait hmark hi h)
  stage := hstage
  engaged := hengaged
  frames := no_frames (hhandlers.trans hquiet)
  kills := hkills ▸ I.kills

theorem goto (I : MgrInv s) (hquiet : s.handlers = []) (pc : Pc) (hwait : ∀ i, s.pc ≠ .wait i)
    (hmark : ∀ cmd i, s.pc ≠ .mark cmd i) (hstage : (s.goto pc).Stage)
    (hengaged : (s.goto pc).currChild = -1 ∨ (s.goto pc).Engaged) : MgrInv (s.goto pc) :=
  I.move hquiet rfl rfl rfl rfl hwait hmark hstage hengaged

theorem fork (I : MgrInv s) (hquiet : s.handlers = []) (hpc : s.pc = .fork) (hpos : 0 < pid)
    (habsent : s.job pid = .absent) : MgrInv { s with job := update s.job pid .running, pc := .slot pid } := by
  have hne : ∀ i, Slot i → (s.PT i).pid ≠ pid := fun i hi => I.table.pid_ne hpos habsent hi
  have hstage : (s.PT 10).pid = 0 := by simpa [Stage, hpc] using I.stage
  refine ⟨I.table.fork hpos habsent, fun i hi h => ?_, ?_, ?_, no_frames hquiet, I.kills⟩
  · left
    simpa [hne i hi] using I.stopped hquiet (by simp [hpc]) (by simp [hpc]) hi h
  · exact ⟨⟨by simp, hne⟩, hstage⟩
  · exact .inr hquiet

/-- mgr sends a signal to the job it has picked. -/
theorem sendPicked (I : MgrInv s) (hquiet : s.handlers = []) {cmd : Pick} {job : Int} (hpc : s.pc = .kill cmd job)
    {act : Job → Job} (hact : ∀ j, act j = .absent ↔ j = .absent) (pc : Pc)
    (hnext : pc = .wait job ∧ (s.currChild = -1 ∨ s.currChild = job) ∨ pc = .mark cmd job) :
    MgrInv ((s.send (s.PT job).pid act).goto pc) := by
  obtain ⟨hslot, hsusp, hstop⟩ : Slot job ∧ (s.PT job).status = .SUSPENDED ∧ s.job (s.PT job).pid = .stopped := by
    simpa [Stage, hpc] using I.stage
  have hlive : s.Live job := ⟨hslot, by rw [hstop]; rfl⟩
  refine ⟨(I.table.send hact).congr rfl rfl, fun i hi h => ?_, ?_, ?_,
    no_frames hquiet, fun e he => ?_⟩
  · by_cases hij : i = job
    · right
      rcases hnext with ⟨rfl, -⟩ | rfl
      · exact .inl (hij ▸ rfl)
      · exact .inr (.inl ⟨cmd, hij ▸ rfl⟩)
    · left
      have hsame := I.table.other hlive.1 (Int.ne_of_gt (I.table.pos hlive)) hi hij act
      exact hsame.trans (I.stopped hquiet (by simp [hpc]) (by simp [hpc]) hi h)
  · rcases hnext with ⟨rfl, -⟩ | rfl
    · exact ⟨hslot, Int.ne_of_gt (I.table.pos hlive)⟩
    · exact ⟨hslot, Int.ne_of_gt (I.table.pos hlive)⟩
  · rcases hnext with ⟨rfl, hcc⟩ | rfl
    · exact hcc
    · exact .inr hquiet
  · rcases List.mem_append.1 he with he | he
    · exact I.kills e he
    · obtain rfl := List.mem_singleton.1 he
      exact ⟨I.table.pos hlive, hlive.2⟩

/-- The new job gets its slot. -/
theorem record (I : MgrInv s) (hquiet : s.handlers = []) (hpc : s.pc = .record pid) :
    MgrInv { s with PT := update s.PT s.currChild ⟨pid, .FINISHED⟩, pc := .waitRun pid } := by
  obtain ⟨hnew, hi, hempty⟩ : s.New pid ∧ Slot s.currChild ∧ (s.PT s.currChild).pid = 0 := by
    simpa [Stage, hpc] using I.stage
  refine ⟨I.table.record hnew hi, fun j hj h => ?_, trivial, .inr ⟨hi, by simp⟩, no_frames hquiet, I.kills⟩
  by_cases hji : j = s.currChild
  · simp [hji] at h
  · left
    simp only [Function.update_of_ne hji] at h ⊢
    exact I.stopped hquiet (by simp [hpc]) (by simp [hpc]) hj h

/-- The job that `c` waits for is over. -/
theorem wait (I : MgrInv s) (hquiet : s.handlers = []) {job : Int} (hpc : s.pc = .wait job) :
    MgrInv (s.goto (.mark .c job)) := by
  have hslot : Slot job ∧ (s.PT job).pid ≠ 0 := by simpa [Stage, hpc] using I.stage
  refine ⟨I.table.congr rfl rfl, fun j hj h => ?_, hslot, .inr hquiet, no_frames hquiet, I.kills⟩
  rcases I.suspended j hj h with h | h | ⟨cmd, h⟩ | h
  · exact .inl h
  · exact .inr (.inr (.inl ⟨.c, by rw [hpc] at h; cases h; rfl⟩))
  · exact absurd (hpc.symm.trans h) (by simp)
  · exact absurd h.2 (by simp [hquiet])

/-- `c` and `k` write the status of the job that they have waited for or killed. -/
theorem mark (I : MgrInv s) (hquiet : s.handlers = []) {cmd : Pick} {job : Int} {status : Status}
    (hpc : s.pc = .mark cmd job) (hstatus : status ≠ .SUSPENDED) : MgrInv ((s.setStatus job status).goto .decr) := by
  refine ⟨(I.table.setStatus fun h => absurd h hstatus).congr rfl rfl, fun j hj h => ?_, trivial, .inr hquiet,
    no_frames hquiet, I.kills⟩
  replace h : ((s.setStatus job status).PT j).status = .SUSPENDED := h
  rw [setStatus_status] at h
  split_ifs at h with hjob
  · exact absurd h hstatus
  · left
    show s.job ((s.setStatus job status).PT j).pid = .stopped
    rw [setStatus_pid]
    rcases I.suspended j hj h with h | h | ⟨_, h⟩ | h
    · exact h
    · exact absurd (hpc.symm.trans h) (by simp)
    · exact absurd (hpc.symm.trans h) (by simp [Ne.symm hjob])
    · exact absurd h.2 (by simp [hquiet])

theorem next (I : MgrInv s) (hquiet : s.handlers = []) (h : Next s s') : MgrInv s' := by
  cases h with
  | isFull hpc =>
    by_cases hfull : s.isFull
    · rw [if_pos hfull]
      exact I.goto hquiet _ (by simp [hpc]) (by simp [hpc]) trivial (.inr hquiet)
    · rw [if_neg hfull]
      refine I.goto hquiet _ (by simp [hpc]) (by simp [hpc]) ?_ (.inr hquiet)
      simpa [Stage, Mgr.goto, Mgr.isFull] using hfull
  | slot pid hpc =>
    obtain ⟨hnew, hlast⟩ : s.New pid ∧ (s.PT 10).pid = 0 := by simpa [Stage, hpc] using I.stage
    obtain ⟨i, hfirst, hi, hpid⟩ := I.table.firstEmpty hlast
    rw [hfirst, Option.getD_some]
    exact I.move hquiet rfl rfl rfl rfl (by simp [hpc]) (by simp [hpc]) ⟨hnew, hi, hpid⟩ (.inr hquiet)
  | record pid hpc => exact I.record hquiet hpc
  | waitRun pid hpc hend => exact I.goto hquiet _ (by simp [hpc]) (by simp [hpc]) trivial (.inr hquiet)
  | reset hpc =>
    exact I.move hquiet rfl rfl rfl rfl (by simp [hpc]) (by simp [hpc]) trivial (.inl rfl)
  | test cmd hpc =>
    split_ifs with hnone
    · exact I.goto hquiet _ (by simp [hpc]) (by simp [hpc]) trivial (.inr hquiet)
    · exact I.goto hquiet _ (by simp [hpc]) (by simp [hpc]) trivial (.inr hquiet)
  | check cmd job hpc =>
    have hrange : 0 ≤ job ∧ job ≤ 10 := by simpa [Stage, hpc] using I.stage
    split_ifs with hsusp
    · have hslot : Slot job := by
        have h0 : job ≠ 0 := by
          rintro rfl
          exact I.table.self.2 hsusp
        exact ⟨by omega, hrange.2⟩
      exact I.goto hquiet _ (by simp [hpc]) (by simp [hpc]) ⟨hslot, hsusp⟩ (.inr hquiet)
    · exact I.goto hquiet _ (by simp [hpc]) (by simp [hpc]) trivial (.inr hquiet)
  | set cmd job hpc =>
    obtain ⟨hslot, hsusp⟩ : Slot job ∧ (s.PT job).status = .SUSPENDED := by simpa [Stage, hpc] using I.stage
    have hstop := I.stopped hquiet (by simp [hpc]) (by simp [hpc]) hslot hsusp
    refine I.move hquiet rfl rfl rfl rfl (by simp [hpc]) (by simp [hpc]) ⟨hslot, hsusp, hstop⟩ (.inr ⟨rfl, ?_⟩)
    intro f hf
    exact absurd (hquiet ▸ hf) List.not_mem_nil
  | cont job hpc =>
    refine I.sendPicked hquiet hpc Job.cont_absent _ (.inl ⟨rfl, ?_⟩)
    refine I.engaged.imp id fun h => ?_
    rw [Engaged, hpc] at h
    exact h.1
  | kill job hpc => exact I.sendPicked hquiet hpc Job.kill_absent _ (.inr rfl)
  | wait job hpc hend => exact I.wait hquiet hpc
  | mark cmd job status hpc hstatus => exact I.mark hquiet hpc hstatus
  | decr hpc =>
    exact I.move hquiet rfl rfl rfl rfl (by simp [hpc]) (by simp [hpc]) trivial (.inr hquiet)

/-! ## The steps of a handler -/

/-- When a handler has returned `currChild` is -1, which is what the one below it finds. -/
theorem frames_pop (hcc : s'.currChild = -1) (hbelow : ∀ g ∈ rest, g.pc = .test ∨ g.pc = .reset) :
    ∀ g rest', rest = g :: rest' → s'.Frames g rest' := by
  rintro g rest' rfl
  have hg := hbelow g List.mem_cons_self
  refine ⟨fun h => .inl ⟨hcc, hg.resolve_right h⟩, ?_, fun g' hg' => hbelow g' (List.mem_cons_of_mem _ hg')⟩
  rintro rfl
  rcases hg with hg | hg <;> exact absurd hg (by decide)

/-- The next frame, when it has a target too. -/
theorem frames_push {x : Frame} (haim : x.pc ≠ .reset → s'.Live s'.currChild)
    (hmarked : x = ⟨.INT, .kill⟩ → (s'.PT s'.currChild).status ≠ .SUSPENDED)
    (hbelow : ∀ g ∈ rest, g.pc = .test ∨ g.pc = .reset) :
    ∀ g rest', x :: rest = g :: rest' → s'.Frames g rest' := by
  rintro g rest' h
  cases h
  exact ⟨fun h => .inr (haim h), hmarked, hbelow⟩

/-- The handler has a job to work on. -/
theorem engaged_cases (I : MgrInv s) (hf : s.handlers = f :: rest) (hcc : s.currChild ≠ -1) :
    (∃ pid, s.pc = .waitRun pid) ∨ s.pc = .wait s.currChild ∨
      ∃ cmd, s.pc = .kill cmd s.currChild ∧ ∀ g ∈ s.handlers, g.sig = .TSTP := by
  have h := I.engaged.resolve_left hcc
  rw [Engaged] at h
  split at h
  case h_1 pid hpc => exact .inl ⟨pid, hpc⟩
  case h_2 job hpc => exact .inr (.inl (h ▸ hpc))
  case h_3 cmd job hpc => exact .inr (.inr ⟨cmd, h.1 ▸ hpc, h.2⟩)
  case h_4 => exact absurd (hf.symm.trans h) (by simp)

/-- The same with another innermost handler of the same signal. -/
theorem engaged_push (I : MgrInv s) (hf : s.handlers = f :: rest) (hcc : s.currChild ≠ -1) (hpc : s'.pc = s.pc)
    (hcurr : s'.currChild = s.currChild) (hpid : ∀ i, (s'.PT i).pid = (s.PT i).pid) (pc : HandlerPc)
    (hf' : s'.handlers = ⟨f.sig, pc⟩ :: rest) : s'.Engaged := by
  have h := I.engaged.resolve_left hcc
  rw [Engaged] at h ⊢
  rw [hpc, hcurr, hpid, hf']
  rw [hf] at h
  split at h
  case h_1 => exact h
  case h_2 => exact h
  case h_3 =>
    refine ⟨h.1, fun g hg => ?_⟩
    rcases List.mem_cons.1 hg with rfl | hg
    · exact h.2 f List.mem_cons_self
    · exact h.2 g (List.mem_cons_of_mem _ hg)
  case h_4 => exact absurd h (by simp)

/-- Suspended jobs are stopped while no handler is about to stop one, or somebody works on them in `main`. -/
theorem suspended_main (I : MgrInv s) (hf : s.handlers = f :: rest) (hnot : f ≠ ⟨.TSTP, .kill⟩) (hi : Slot i)
    (h : (s.PT i).status = .SUSPENDED) :
    s.job (s.PT i).pid = .stopped ∨ s.pc = .wait i ∨ ∃ cmd, s.pc = .mark cmd i := by
  rcases I.suspended i hi h with h | h | h | h
  · exact .inl h
  · exact .inr (.inl h)
  · exact .inr (.inr h)
  · have hhead := h.2
    rw [hf, List.head?_cons, Option.some.injEq] at hhead
    exact absurd hhead hnot

/-- The handler goes on and touches no entry and no job. -/
theorem advance (I : MgrInv s) (hf : s.handlers = f :: rest) (hnot : f ≠ ⟨.TSTP, .kill⟩) (n : Int) (pc : HandlerPc)
    (hlive : s.Live s.currChild) (hmark : pc ≠ .kill) :
    MgrInv { s with numSuspended := n, handlers := ⟨f.sig, pc⟩ :: rest } where
  table := I.table.congr rfl rfl
  suspended _ hi h := (I.suspended_main hf hnot hi h).imp id fun h => h.imp id fun h => .inl h
  stage := I.stage
  engaged := by
    refine .inr (I.engaged_push hf ?_ rfl rfl (fun _ => rfl) pc rfl)
    intro hcc
    exact absurd (hcc ▸ hlive.1.1) (by decide)
  frames := frames_push (fun _ => hlive) (fun h => absurd (congrArg Frame.pc h) hmark) (I.frames f rest hf).below
  kills := I.kills

/-- The handler returns. -/
theorem back (I : MgrInv s) (hf : s.handlers = f :: rest) (hnot : f ≠ ⟨.TSTP, .kill⟩)
    (hstage : Stage { s with currChild := -1, handlers := rest }) :
    MgrInv { s with currChild := -1, handlers := rest } where
  table := I.table.congr rfl rfl
  suspended _ hi h := (I.suspended_main hf hnot hi h).imp id fun h => h.imp id fun h => .inl h
  stage := hstage
  engaged := .inl rfl
  frames := frames_pop rfl (I.frames f rest hf).below
  kills := I.kills

/-- The handler marks the entry of the job. -/
theorem markChild {sig : Sig} {status : Status} (I : MgrInv s) (hf : s.handlers = ⟨sig, .mark⟩ :: rest)
    (hlive : s.Live s.currChild) (hsig : sig = .INT ∧ status = .TERMINATED ∨ sig = .TSTP ∧ status = .SUSPENDED) :
    MgrInv { s.setStatus s.currChild status with handlers := ⟨sig, .kill⟩ :: rest } := by
  have hcc : s.currChild ≠ -1 := fun hcc => absurd (hcc ▸ hlive.1.1) (by decide)
  have hused : (s.PT s.currChild).pid ≠ 0 := Int.ne_of_gt (I.table.pos hlive)
  refine ⟨(I.table.setStatus fun _ => ⟨hlive.1, hused⟩).congr rfl rfl,
    fun i hi h => ?_, ?_, .inr (I.engaged_push hf hcc rfl rfl (fun _ => setStatus_pid _ _ _ _) .kill rfl),
    frames_push (fun _ => ?_) (fun hint => ?_) (I.frames _ rest hf).below, I.kills⟩
  · replace h : ((s.setStatus s.currChild status).PT i).status = .SUSPENDED := h
    rw [setStatus_status] at h
    split_ifs at h with hic
    · rcases hsig with ⟨-, rfl⟩ | ⟨rfl, -⟩
      · exact absurd h (by decide)
      · exact .inr (.inr (.inr ⟨hic.symm, rfl⟩))
    · show s.job ((s.setStatus s.currChild status).PT i).pid = .stopped ∨ _
      rw [setStatus_pid]
      exact (I.suspended_main hf (by simp) hi h).imp id fun h => h.imp id fun h => .inl h
  · have hstage := I.stage
    rcases I.engaged_cases hf hcc with ⟨pid, hpc⟩ | hpc | ⟨cmd, hpc, hall⟩
    · simp [Stage, setStatus, hpc]
    · simp only [Stage, hpc] at hstage
      simpa [Stage, setStatus, hpc] using hstage
    · obtain rfl : sig = .TSTP := hall ⟨sig, .mark⟩ (hf ▸ List.mem_cons_self)
      have hsusp := (hsig.resolve_left fun h => absurd h.1 (by decide)).2
      simp only [Stage, hpc] at hstage
      simpa [Stage, setStatus, hpc, hsusp] using ⟨hstage.1, hstage.2.2⟩
  · refine ⟨hlive.1, ?_⟩
    show (s.job ((s.setStatus s.currChild status).PT s.currChild).pid).live = true
    rw [setStatus_pid]
    exact hlive.2
  · have hterm : status = .TERMINATED := by
      rcases hsig with ⟨-, h⟩ | ⟨rfl, -⟩
      · exact h
      · exact absurd hint (by simp)
    show ((s.setStatus s.currChild status).PT s.currChild).status ≠ .SUSPENDED
    rw [setStatus_status, if_pos rfl, hterm]
    decide

/-- The handler sends its signal to the job. -/
theorem signalChild {sig : Sig} {act : Job → Job} (I : MgrInv s) (hf : s.handlers = ⟨sig, .kill⟩ :: rest)
    (hlive : s.Live s.currChild) (hsig : sig = .INT ∧ act = Job.kill ∨ sig = .TSTP ∧ act = Job.stop) :
    MgrInv { s.send (s.PT s.currChild).pid act with handlers := ⟨sig, .reset⟩ :: rest } := by
  have hcc : s.currChild ≠ -1 := fun hcc => absurd (hcc ▸ hlive.1.1) (by decide)
  have hact : ∀ j, act j = .absent ↔ j = .absent := by
    rcases hsig with ⟨-, rfl⟩ | ⟨-, rfl⟩
    · exact Job.kill_absent
    · exact Job.stop_absent
  refine ⟨(I.table.send hact).congr rfl rfl,
    fun i hi h => ?_, ?_, .inr (I.engaged_push hf hcc rfl rfl (fun _ => rfl) .reset rfl),
    frames_push (fun h => absurd rfl h) (fun h => absurd h (by simp)) (I.frames _ rest hf).below, fun e he => ?_⟩
  · replace h : (s.PT i).status = .SUSPENDED := h
    show (s.send (s.PT s.currChild).pid act).job (s.PT i).pid = .stopped ∨ _
    by_cases hic : i = s.currChild
    · subst hic
      rcases hsig with ⟨rfl, -⟩ | ⟨-, rfl⟩
      · exact absurd h ((I.frames _ rest hf).marked rfl)
      · left
        rw [send_job, if_pos rfl]
        exact Job.stop_live hlive.2
    · rw [I.table.other hlive.1 (Int.ne_of_gt (I.table.pos hlive)) hi hic]
      rcases I.suspended i hi h with h | h | h | h
      · exact .inl h
      · exact .inr (.inl h)
      · exact .inr (.inr (.inl h))
      · exact absurd h.1.symm hic
  · have hstage := I.stage
    rcases I.engaged_cases hf hcc with ⟨pid, hpc⟩ | hpc | ⟨cmd, hpc, hall⟩
    · simp [Stage, send, hpc]
    · simp only [Stage, hpc] at hstage
      simpa [Stage, send, hpc] using hstage
    · obtain rfl : sig = .TSTP := hall ⟨sig, .kill⟩ (hf ▸ List.mem_cons_self)
      obtain rfl := (hsig.resolve_left fun h => absurd h.1 (by decide)).2
      simp only [Stage, hpc] at hstage
      simpa [Stage, send, hpc, hstage.2.2, Job.stop] using ⟨hstage.1, hstage.2.1⟩
  · rcases List.mem_append.1 he with he | he
    · exact I.kills e he
    · obtain rfl := List.mem_singleton.1 he
      exact ⟨I.table.pos hlive, hlive.2⟩

theorem handler (I : MgrInv s) (hf : s.handlers = f :: rest) : MgrInv (s.handler f rest) := by
  have F := I.frames f rest hf
  obtain ⟨sig, pc⟩ := f
  cases pc with
  | test =>
    by_cases hcc : s.currChild = -1
    · have hback := I.back hf (by simp) (hcc ▸ I.stage)
      simpa [Mgr.handler, hcc] using hback
    · simp only [Mgr.handler, hcc, if_false]
      have hlive := (F.aim (by simp)).resolve_left fun h => hcc h.1
      exact I.advance hf (by simp) s.numSuspended (if sig = .INT then .mark else .count) hlive (by split_ifs <;> decide)
  | count =>
    have hlive := (F.aim (by simp)).resolve_left fun h => absurd h.2 (by simp)
    exact I.advance hf (by simp) (s.numSuspended + 1) .mark hlive (by decide)
  | mark =>
    have hlive := (F.aim (by simp)).resolve_left fun h => absurd h.2 (by simp)
    cases sig with
    | INT => exact I.markChild hf hlive (.inl ⟨rfl, rfl⟩)
    | TSTP => exact I.markChild hf hlive (.inr ⟨rfl, rfl⟩)
  | kill =>
    have hlive := (F.aim (by simp)).resolve_left fun h => absurd h.2 (by simp)
    cases sig with
    | INT => exact I.signalChild hf hlive (.inl ⟨rfl, rfl⟩)
    | TSTP => exact I.signalChild hf hlive (.inr ⟨rfl, rfl⟩)
  | reset =>
    refine I.back hf (by simp) ?_
    have hstage := I.stage
    by_cases hcc : s.currChild = -1
    · exact hcc ▸ hstage
    · rcases I.engaged_cases hf hcc with ⟨pid, hpc⟩ | hpc | ⟨cmd, hpc, hall⟩
      · simp [Stage, hpc]
      · simp only [Stage, hpc] at hstage ⊢
        exact hstage
      · simp only [Stage, hpc] at hstage ⊢
        exact hstage

/-! ## Signals, and jobs that end -/

theorem signal (I : MgrInv s) {sig : Sig} (hok : s.AtLiveJob (.signal sig)) :
    MgrInv { s with handlers := ⟨sig, .test⟩ :: s.handlers } := by
  have hpending : s.currChild = -1 ∨
      s.Live s.currChild ∧ Engaged { s with handlers := ⟨sig, .test⟩ :: s.handlers } := by
    by_cases hcc : s.currChild = -1
    · exact .inl hcc
    · right
      obtain ⟨haim, -⟩ := hok.resolve_left hcc
      have hengaged := I.engaged.resolve_left hcc
      have hstage := I.stage
      rw [Aimed] at haim
      split at haim
      case h_1 pid hpc =>
        simp only [Engaged, hpc] at hengaged ⊢
        exact ⟨⟨hengaged.1, by rw [hengaged.2]; exact haim⟩, hengaged⟩
      case h_2 job hpc =>
        simp only [Engaged, hpc] at hengaged ⊢
        simp only [Stage, hpc] at hstage
        exact ⟨⟨hengaged ▸ hstage.1, hengaged ▸ haim⟩, hengaged⟩
      case h_3 cmd job hpc =>
        simp only [Engaged, hpc] at hengaged ⊢
        simp only [Stage, hpc] at hstage
        obtain ⟨rfl, hall⟩ := hengaged
        refine ⟨⟨hstage.1, by rw [hstage.2.2]; rfl⟩, rfl, fun f hf => ?_⟩
        rcases List.mem_cons.1 hf with rfl | hf
        · exact haim
        · exact hall f hf
      case h_4 => exact haim.elim
  have hbelow : ∀ g ∈ s.handlers, g.pc = .test ∨ g.pc = .reset := by
    intro g hg
    rcases hok with hcc | ⟨-, hall⟩
    · cases hf : s.handlers with
      | nil => exact absurd (hf ▸ hg) List.not_mem_nil
      | cons f rest =>
        have F := I.frames f rest hf
        rcases List.mem_cons.1 (hf ▸ hg) with rfl | hg
        · by_cases hreset : g.pc = .reset
          · exact .inr hreset
          · rcases F.aim hreset with h | h
            · exact .inl h.2
            · exact absurd (hcc ▸ h.1.1) (by decide)
        · exact F.below g hg
    · rcases hall g hg with h | rfl
      · exact .inl h
      · exact .inr rfl
  refine ⟨I.table.congr rfl rfl, fun i hi h => ?_, I.stage,
    hpending.imp id fun h => h.2, ?_, I.kills⟩
  · rcases I.suspended i hi h with h | h | h | h
    · exact .inl h
    · exact .inr (.inl h)
    · exact .inr (.inr (.inl h))
    · obtain ⟨f, hmem, rfl⟩ : ∃ f ∈ s.handlers, f = ⟨.TSTP, .kill⟩ := ⟨_, List.mem_of_head? h.2, rfl⟩
      exact absurd (hbelow _ hmem) (by decide)
  · rintro f rest heq
    cases heq
    exact ⟨fun _ => hpending.imp (fun hcc => ⟨hcc, rfl⟩) fun h => h.1, fun h => absurd h (by simp), hbelow⟩

theorem finish (I : MgrInv s) (hrun : s.job pid = .running) (hok : s.AtLiveJob (.finish pid)) :
    MgrInv { s with job := update s.job pid .exited } := by
  refine ⟨I.table.finish hrun, fun i hi h => ?_, stage_finish hrun I.stage, I.engaged, fun f rest hf => ?_, I.kills⟩
  · refine (I.suspended i hi h).imp (fun hstop => ?_) id
    exact (update_exited hrun (by simp [hstop])).trans hstop
  · have F := I.frames f rest hf
    refine ⟨fun h => (F.aim h).imp id fun hlive => ⟨hlive.1, ?_⟩, F.marked, F.below⟩
    have hne : (s.PT s.currChild).pid ≠ pid := by
      rcases hok with hquiet | hcc | hne
      · exact absurd (hquiet.symm.trans hf) (by simp)
      · exact absurd (hcc ▸ hlive.1.1) (by decide)
      · exact hne
    show (update s.job pid .exited (s.PT s.currChild).pid).live = true
    rw [Function.update_of_ne hne]
    exact hlive.2

theorem step (I : MgrInv s) {m : Move} (hok : s.AtLiveJob m) (h : s.step m = some s') : MgrInv s' := by
  cases Mgr.moved_of_step h with
  | command cmd hquiet hpc =>
    refine I.goto hquiet _ (by simp [hpc]) (by simp [hpc]) ?_ (.inr ?_)
    · cases cmd <;> trivial
    · cases cmd <;> exact hquiet
  | pick cmd job hquiet hpc => exact I.goto hquiet _ (by simp [hpc]) (by simp [hpc]) hok (.inr hquiet)
  | fork pid hquiet hpc hpos habsent => exact I.fork hquiet hpc hpos habsent
  | next s' hquiet hnext => exact I.next hquiet hnext
  | handler f rest hf => exact I.handler hf
  | signal sig _ => exact I.signal hok
  | finish pid hrun => exact I.finish hrun hok

end MgrInv

end Mgr

end OsLab.A2
