import Mathlib.Algebra.BigOperators.Group.Finset.Piecewise
import OsLab.A2.Signals
import OsLab.Lib.Tally

/-!
# The number of suspended jobs (A2/mgr.c)

`numSuspended` is raised by the handler of `SIGTSTP` (:61) and lowered by `c` and `k` (:165, :196), each at another
moment than the status it goes with. The handler does not look at the status it overwrites, so the two come apart when

- `SIGTSTP` reaches mgr in `c` or `k` between `currChild = job` and the `strcpy`: the job is `SUSPENDED` already;
- `SIGTSTP` reaches mgr in `r` before the entry of the job is written: the slot it marks is used again;
- `SIGINT` reaches mgr inside the handler of `SIGTSTP`: it takes `SUSPENDED` away, or leaves -1 as `currChild`.

`Countable` is the absence of the three, and with it the count is right whenever mgr is blocked.
-/

namespace OsLab.A2

open Function (update)

/-- `main` is between `currChild = i` and the entry of the job in `r`, or between `currChild = job` and the new status
in `c` and `k`. -/
def Pc.committed : Pc → Bool
  | .record _ | .kill _ _ | .wait _ | .mark _ _ => true
  | _ => false

namespace Mgr

variable {s s' : Mgr} {i j pid : Int} {f : Frame} {rest : List Frame}

/-- The number of slots of the table whose status is `SUSPENDED`. -/
def suspended (PT : Int → Entry) : Nat := ((Finset.range 11).filter fun i : Nat => (PT i).status = .SUSPENDED).card

/-- mgr is at a prompt, or in `waitpid` for a job that has not ended. -/
def Blocked (s : Mgr) : Prop :=
  s.handlers = [] ∧ match s.pc with
    | .prompt | .pick _ => True
    | .waitRun pid => s.job pid = .running
    | .wait job => (s.job (s.PT job).pid).live = true
    | _ => False

instance : (s : Mgr) → Decidable s.Blocked
  | { pc := .prompt, .. } | { pc := .pick _, .. } => inferInstanceAs (Decidable (_ ∧ True))
  | { pc := .waitRun _, .. } | { pc := .wait _, .. } => inferInstanceAs (Decidable (_ ∧ _ = _))
  | { pc := .quit, .. } | { pc := .isFull, .. } | { pc := .fork, .. } | { pc := .slot _, .. } | { pc := .record _, .. }
  | { pc := .reset, .. } | { pc := .test _, .. } | { pc := .check _ _, .. } | { pc := .set _ _, .. }
  | { pc := .kill _ _, .. } | { pc := .mark _ _, .. } | { pc := .decr, .. } => inferInstanceAs (Decidable (_ ∧ False))

/-- No `SIGTSTP` arrives while `currChild` is a job whose entry `main` is about to write, no `SIGINT` inside the handler
of `SIGTSTP`. The job number names a slot of the table. -/
def Countable (s : Mgr) : Move → Prop
  | .signal .TSTP => s.currChild = -1 ∨ s.pc.committed = false
  | .signal .INT => ∀ f ∈ s.handlers, f.pc = .test
  | .pick job => 0 ≤ job ∧ job ≤ 10
  | _ => True

instance (s : Mgr) : ∀ m, Decidable (s.Countable m)
  | .signal .TSTP => inferInstanceAs (Decidable (s.currChild = -1 ∨ s.pc.committed = false))
  | .signal .INT => inferInstanceAs (Decidable (∀ f ∈ s.handlers, f.pc = .test))
  | .pick job => inferInstanceAs (Decidable (0 ≤ job ∧ job ≤ 10))
  | .command _ | .fork _ | .next | .handler | .finish _ => isTrue trivial

/-! ## Counting slots -/

/-- What a status contributes. -/
def weight (status : Status) : Nat := if status = .SUSPENDED then 1 else 0

theorem suspended_update (PT : Int → Entry) (hi : 0 ≤ i ∧ i ≤ 10) (e : Entry) :
    suspended (update PT i e) + weight (PT i).status = suspended PT + weight e.status := by
  obtain ⟨k, rfl⟩ : ∃ k : Nat, i = k := ⟨i.toNat, by omega⟩
  have hk : k ∈ Finset.range 11 := Finset.mem_range.2 (by omega)
  have hsum : ∀ PT : Int → Entry, suspended PT = ∑ l ∈ Finset.range 11, weight (PT (l : Nat)).status := fun PT =>
    Finset.card_filter _ _
  have hinj : Function.Injective fun l : Nat => (l : Int) := fun _ _ h => Int.ofNat.inj h
  rw [hsum, hsum]
  exact Tally.sum_update_of_mem (fun _ (e : Entry) => weight e.status) PT (fun l : Nat => (l : Int)) hinj.injOn hk e

theorem suspended_congr {PT PT' : Int → Entry}
    (h : ∀ i, 0 ≤ i → i ≤ 10 → ((PT' i).status = .SUSPENDED ↔ (PT i).status = .SUSPENDED)) :
    suspended PT' = suspended PT := by
  rw [suspended, suspended]
  congr 1
  refine Finset.filter_congr fun l hl => ?_
  have hl' := Finset.mem_range.1 hl
  exact h l (by omega) (by omega)

theorem suspended_outside (PT : Int → Entry) (hi : ¬ (0 ≤ i ∧ i ≤ 10)) (e : Entry) :
    suspended (update PT i e) = suspended PT := by
  refine suspended_congr fun l h0 h10 => ?_
  rw [Function.update_of_ne (by omega)]

/-! ## The invariant -/

/-- `c` or `k` works on the job in slot `i`. -/
def Work (s : Mgr) (i : Int) : Prop := (∃ cmd, s.pc = .kill cmd i) ∨ s.pc = .wait i ∨ ∃ cmd, s.pc = .mark cmd i

/-- What `main` will still take off the count. -/
def owed (s : Mgr) : Nat :=
  match s.pc with
  | .kill _ job | .wait job | .mark _ job => if (s.PT job).status = .SUSPENDED then 0 else 1
  | .decr => 1
  | _ => 0

/-- What the handler of `SIGTSTP` has counted and not marked yet. -/
def counted (s : Mgr) : Nat := if s.handlers.head? = some ⟨.TSTP, .mark⟩ then 1 else 0

/-- `currChild` names a job; it is `SUSPENDED` only under the hands of `c`, `k` or the handler that marked it. -/
structure Child (s : Mgr) : Prop where
  slot : Slot s.currChild
  used : (∀ pid, s.pc ≠ .record pid) → (s.PT s.currChild).pid ≠ 0
  fresh : (s.PT s.currChild).status = .SUSPENDED →
    s.Work s.currChild ∨ s.handlers.head? = some ⟨.TSTP, .kill⟩ ∨ s.handlers.head? = some ⟨.TSTP, .reset⟩

/-- Whoever took `SUSPENDED` away from the job `c` or `k` works on has killed it or is about to. -/
def Settled (s : Mgr) (job : Int) : Prop :=
  Slot job ∧ (s.currChild = -1 ∨ s.currChild = job) ∧ ((s.PT job).status ≠ .SUSPENDED →
    (s.job (s.PT job).pid).live = false ∨ s.currChild = job ∧ s.handlers.head? = some ⟨.INT, .kill⟩)

/-- What `main` knows where it is. -/
def CountStage (s : Mgr) : Prop :=
  match s.pc with
  | .fork => (s.PT 10).pid = 0
  | .slot pid => 0 < pid ∧ (s.PT 10).pid = 0
  | .record pid => 0 < pid ∧ (s.currChild ≠ -1 → (s.PT s.currChild).pid = 0)
  | .check _ job => 0 ≤ job ∧ job ≤ 10
  | .set _ job => Slot job ∧ (s.PT job).status = .SUSPENDED
  | .kill _ job => s.Settled job
  | .wait job => s.Settled job
  | .mark _ job => Slot job ∧ (s.currChild = -1 ∨ s.currChild = job)
  | _ => True

/-- The handler of `SIGTSTP` is not interrupted from its test on, and works on a job that `main` is not committed to. -/
structure CountFrames (s : Mgr) (f : Frame) (rest : List Frame) : Prop where
  counts : ∀ g ∈ f :: rest, g ≠ ⟨.INT, .count⟩
  tstp : ∀ g ∈ f :: rest, g.sig = .TSTP → s.currChild = -1 ∨ s.pc.committed = false
  unmarked : f = ⟨.TSTP, .count⟩ ∨ f = ⟨.TSTP, .mark⟩ → s.currChild ≠ -1 ∧ (s.PT s.currChild).status ≠ .SUSPENDED
  below : ∀ g ∈ rest, g.sig = .TSTP → g.pc = .test

structure CountInv (s : Mgr) : Prop where
  self : (s.PT 0).pid ≠ 0 ∧ (s.PT 0).status ≠ .SUSPENDED
  used : ∀ i, Slot i → (s.PT i).status = .SUSPENDED → (s.PT i).pid ≠ 0
  child : s.currChild = -1 ∨ s.Child
  stage : s.CountStage
  frames : ∀ f rest, s.handlers = f :: rest → s.CountFrames f rest
  count : s.numSuspended = suspended s.PT + s.owed + s.counted

theorem weight_eq_zero {status : Status} (h : status ≠ .SUSPENDED) : weight status = 0 := if_neg h

theorem counted_quiet (hquiet : s.handlers = []) : s.counted = 0 := by
  simp [counted, hquiet]

namespace CountInv

/-- `PT[0]` is mgr itself, the rest of the table is empty. -/
theorem init (self : Int) (mem : Int → Entry) (hself : 0 < self) : CountInv (Mgr.init self mem) where
  self := ⟨Int.ne_of_gt hself, by simp [Mgr.init]⟩
  used i hi h := by
    have h0 : i ≠ 0 := fun h => absurd (h ▸ hi).1 (by decide)
    simp [Mgr.init, h0, hi.1, hi.2] at h
  child := .inl rfl
  stage := trivial
  frames _ _ h := by cases h
  count := by
    have hnone : suspended (Mgr.init self mem).PT = 0 := by
      refine Finset.card_eq_zero.2 (Finset.filter_eq_empty_iff.2 fun i hi => ?_)
      have := Finset.mem_range.1 hi
      by_cases h0 : i = 0
      · simp [Mgr.init, h0]
      · simp [Mgr.init, h0, show (i : Int) ≤ 10 by omega, show (1 : Int) ≤ i by omega]
    rw [hnone]
    rfl

theorem no_frames (hquiet : s.handlers = []) : ∀ f rest, s.handlers = f :: rest → s.CountFrames f rest := by
  intro f rest hf
  exact absurd (hquiet.symm.trans hf) (by simp)

/-- A job that `currChild` still names is not `SUSPENDED` unless `c` or `k` works on it. -/
theorem work_of_suspended (I : CountInv s) (hint : ∀ f ∈ s.handlers.head?, f.sig = .INT) (hcc : s.currChild ≠ -1)
    (h : (s.PT s.currChild).status = .SUSPENDED) : s.Work s.currChild := by
  rcases (I.child.resolve_left hcc).fresh h with h | h | h
  · exact h
  · exact absurd (hint _ h) (by decide)
  · exact absurd (hint _ h) (by decide)

/-- `main` goes on and touches no entry; it was not committed to a job. -/
theorem move (I : CountInv s) (hquiet : s.handlers = []) (hpc : s.pc.committed = false) (hPT : s'.PT = s.PT)
    (hhandlers : s'.handlers = s.handlers) (hchild : s'.currChild = s.currChild) (hstage : s'.CountStage)
    (hn : s'.numSuspended = s.numSuspended + s'.owed - s.owed) : CountInv s' := by
  have hnot : ¬ s.Work s.currChild := by
    rintro (⟨cmd, h⟩ | h | ⟨cmd, h⟩) <;> simp [h, Pc.committed] at hpc
  refine ⟨hPT ▸ I.self, hPT ▸ I.used, ?_, hstage, no_frames (hhandlers.trans hquiet), ?_⟩
  · rw [hchild]
    refine I.child.imp_right fun C => ⟨hchild ▸ C.slot, fun _ => ?_, fun h => ?_⟩
    · rw [hPT, hchild]
      exact C.used fun pid h => by simp [h, Pc.committed] at hpc
    · rw [hPT, hchild] at h
      have hcc : s.currChild ≠ -1 := fun h => absurd (h ▸ C.slot).1 (by decide)
      exact absurd (I.work_of_suspended (by simp [hquiet]) hcc h) hnot
  · have := I.count
    have h0 := counted_quiet hquiet
    have h0' := counted_quiet (hhandlers.trans hquiet)
    rw [hn, hPT, h0']
    omega

/-- `c` and `k` go on to the next statement about the same job. -/
theorem work (I : CountInv s) (hquiet : s.handlers = []) {job : Int} (hslot : Slot job)
    (hcc : s.currChild = -1 ∨ s.currChild = job) (hpc : s.Work job) (hPT : s'.PT = s.PT)
    (hhandlers : s'.handlers = s.handlers) (hchild : s'.currChild = s.currChild) (hpc' : s'.Work job)
    (hstage : s'.CountStage) (hn : s'.numSuspended = s.numSuspended) : CountInv s' := by
  have howed : ∀ t : Mgr, t.Work job → t.owed = if (t.PT job).status = .SUSPENDED then 0 else 1 := by
    rintro t (⟨cmd, h⟩ | h | ⟨cmd, h⟩) <;> simp only [owed, h]
  refine ⟨hPT ▸ I.self, hPT ▸ I.used, ?_, hstage, no_frames (hhandlers.trans hquiet), ?_⟩
  · rw [hchild]
    refine hcc.imp_right fun hcj => ⟨?_, fun _ => ?_, fun _ => ?_⟩
    · rw [hchild, hcj]; exact hslot
    · rw [hPT, hchild]
      refine (I.child.resolve_left fun h => ?_).used fun pid h => ?_
      · exact absurd ((hcj.symm.trans h) ▸ hslot).1 (by decide)
      · rcases hpc with ⟨cmd, h'⟩ | h' | ⟨cmd, h'⟩ <;> simp [h'] at h
    · rw [hchild, hcj]; exact .inl hpc'
  · have := I.count
    rw [hn, howed s' hpc', hPT, ← howed s hpc, counted_quiet (hhandlers.trans hquiet)]
    rw [counted_quiet hquiet] at this
    exact this

/-- Signals bring no job back. -/
theorem settled_send (act : Job → Job) (hact : ∀ j : Job, j.live = false → (act j).live = false) {job q : Int}
    (h : (s.job (s.PT job).pid).live = false) : ((s.send q act).job (s.PT job).pid).live = false := by
  rw [send_job]
  split_ifs with hq
  · rw [← hq]; exact hact _ h
  · exact h

theorem firstEmpty (I : CountInv s) (h : (s.PT 10).pid = 0) : ∃ i, s.firstEmpty = some i ∧ Slot i ∧ (s.PT i).pid = 0 :=
  firstEmpty_slot I.self.1 h

/-- The entry of a new job goes into a slot that was empty. -/
theorem record (I : CountInv s) (hquiet : s.handlers = []) (hpc : s.pc = .record pid) (hpos : 0 < pid)
    (hempty : s.currChild ≠ -1 → (s.PT s.currChild).pid = 0) :
    CountInv { s with PT := update s.PT s.currChild ⟨pid, .FINISHED⟩, pc := .waitRun pid } := by
  have hcount := I.count
  simp only [owed, hpc, counted_quiet hquiet] at hcount
  by_cases hcc : s.currChild = -1
  · have hother : ∀ i, 0 ≤ i → update s.PT s.currChild ⟨pid, .FINISHED⟩ i = s.PT i := fun i hi =>
      Function.update_of_ne (by omega) _ _
    refine ⟨?_, fun i hi h => ?_, .inl hcc, trivial, no_frames hquiet, ?_⟩
    · simpa only [hother 0 le_rfl] using I.self
    · have h1 := hi.1
      simp only [hother i (by omega)] at h ⊢
      exact I.used i hi h
    · have hsame := suspended_outside s.PT (i := s.currChild) (by omega) ⟨pid, .FINISHED⟩
      simpa [owed, counted, hquiet, hsame] using hcount
  · have hslot := (I.child.resolve_left hcc).slot
    have hold : (s.PT s.currChild).status ≠ .SUSPENDED := fun h => I.used _ hslot h (hempty hcc)
    refine ⟨?_, fun i hi h => ?_, .inr ⟨hslot, fun _ => ?_, fun h => ?_⟩, trivial, no_frames hquiet, ?_⟩
    · have h1 := hslot.1
      have h0 : (0 : Int) ≠ s.currChild := by omega
      simpa only [Function.update_of_ne h0] using I.self
    · by_cases hic : i = s.currChild
      · simp [hic] at h
      · simp only [Function.update_of_ne hic] at h ⊢
        exact I.used i hi h
    · simpa using Int.ne_of_gt hpos
    · simp at h
    · have hsum := suspended_update s.PT (i := s.currChild) ⟨by have := hslot.1; omega, hslot.2⟩ ⟨pid, .FINISHED⟩
      rw [weight_eq_zero hold, weight_eq_zero (by simp)] at hsum
      have hsame : suspended (update s.PT s.currChild ⟨pid, .FINISHED⟩) = suspended s.PT := by omega
      simpa [owed, counted, hquiet, hsame] using hcount

/-- `c` and `k` write a status that is not `SUSPENDED`; the count follows in the next statement. -/
theorem mark (I : CountInv s) (hquiet : s.handlers = []) {cmd : Pick} {job : Int} {status : Status}
    (hpc : s.pc = .mark cmd job) (hslot : Slot job) (hcc : s.currChild = -1 ∨ s.currChild = job)
    (hst : status ≠ .SUSPENDED) : CountInv ((s.setStatus job status).goto .decr) := by
  have hcount := I.count
  simp only [owed, hpc, counted_quiet hquiet] at hcount
  refine ⟨⟨?_, fun h => ?_⟩, fun i hi h => ?_, ?_, trivial, no_frames hquiet, ?_⟩
  · exact (setStatus_pid s job 0 status).trans_ne I.self.1
  · have h' := (setStatus_status s job 0 status).symm.trans h
    split_ifs at h' with hj
    · exact hst h'
    · exact I.self.2 h'
  · refine (setStatus_pid s job i status).trans_ne ?_
    have h' := (setStatus_status s job i status).symm.trans h
    split_ifs at h' with hj
    · exact absurd h' hst
    · exact I.used i hi h'
  · refine hcc.imp_right fun hcj => ⟨?_, fun _ => ?_, fun h => ?_⟩
    · exact hcj.symm ▸ hslot
    · refine (setStatus_pid s job _ status).trans_ne ((I.child.resolve_left fun h => ?_).used fun pid h => ?_)
      · exact absurd ((hcj.symm.trans h) ▸ hslot).1 (by decide)
      · simp [hpc] at h
    · have h' := (setStatus_status s job s.currChild status).symm.trans h
      rw [if_pos hcj] at h'
      exact absurd h' hst
  · have hsum := suspended_update s.PT (i := job) ⟨by have := hslot.1; omega, hslot.2⟩ ⟨(s.PT job).pid, status⟩
    rw [show weight status = 0 from weight_eq_zero hst] at hsum
    show s.numSuspended = suspended (update s.PT job ⟨(s.PT job).pid, status⟩) + (1 : Nat) + counted (goto _ _)
    rw [counted_quiet (s := (s.setStatus job status).goto .decr) hquiet]
    by_cases hsusp : (s.PT job).status = .SUSPENDED
    · simp only [weight, hsusp, if_true] at hsum hcount
      omega
    · simp only [weight, hsusp, if_false] at hsum hcount
      omega

theorem next (I : CountInv s) (hquiet : s.handlers = []) (hnext : s.Next s') : CountInv s' := by
  have h0 := counted_quiet hquiet
  have hcount := I.count
  have hstage := I.stage
  cases hnext with
  | isFull hpc =>
    refine I.move hquiet (by simp [hpc, Pc.committed]) rfl rfl rfl ?_ ?_
    · by_cases hfull : s.isFull
      · simp [CountStage, Mgr.goto, hfull]
      · have h10 : (s.PT 10).pid = 0 := by simpa [isFull] using hfull
        simp [CountStage, Mgr.goto, isFull, h10]
    · by_cases hfull : s.isFull <;> simp [owed, Mgr.goto, hpc, hfull]
  | slot pid hpc =>
    simp only [CountStage, hpc] at hstage
    obtain ⟨i, hi, hslot, hpid⟩ := I.firstEmpty hstage.2
    refine ⟨I.self, I.used, .inr ⟨?_, fun h => absurd rfl (h pid), fun h => ?_⟩, ?_, no_frames hquiet, ?_⟩
    · simpa [hi] using hslot
    · exact absurd hpid (I.used i hslot (by simpa [hi] using h))
    · exact ⟨hstage.1, fun _ => by simpa [hi] using hpid⟩
    · simpa [owed, hpc, counted] using hcount
  | record pid hpc =>
    simp only [CountStage, hpc] at hstage
    exact I.record hquiet hpc hstage.1 hstage.2
  | waitRun pid hpc _ => exact I.move hquiet (by simp [hpc, Pc.committed]) rfl rfl rfl trivial (by simp [owed, Mgr.goto, hpc])
  | reset hpc =>
    refine ⟨I.self, I.used, .inl rfl, trivial, no_frames hquiet, ?_⟩
    simpa [owed, hpc, counted] using hcount
  | test cmd hpc =>
    refine I.move hquiet (by simp [hpc, Pc.committed]) rfl rfl rfl ?_ ?_
    · by_cases hn : s.numSuspended = 0 <;> simp [CountStage, Mgr.goto, hn]
    · by_cases hn : s.numSuspended = 0 <;> simp [owed, Mgr.goto, hpc, hn]
  | check cmd job hpc =>
    simp only [CountStage, hpc] at hstage
    refine I.move hquiet (by simp [hpc, Pc.committed]) rfl rfl rfl ?_ ?_
    · by_cases hsusp : (s.PT job).status = .SUSPENDED
      · have hne : job ≠ 0 := fun h => I.self.2 (h ▸ hsusp)
        simp only [CountStage, Mgr.goto, hsusp, if_true]
        exact ⟨⟨by omega, hstage.2⟩, trivial⟩
      · simp [CountStage, Mgr.goto, hsusp]
    · by_cases hsusp : (s.PT job).status = .SUSPENDED <;> simp [owed, Mgr.goto, hpc, hsusp]
  | set cmd job hpc =>
    simp only [CountStage, hpc] at hstage
    refine ⟨I.self, I.used, .inr ⟨hstage.1, fun _ => I.used job hstage.1 hstage.2, fun _ => .inl (.inl ⟨cmd, rfl⟩)⟩,
      ⟨hstage.1, .inr rfl, fun h => absurd hstage.2 h⟩, no_frames hquiet, ?_⟩
    simpa [owed, hpc, counted, hstage.2] using hcount
  | cont job hpc =>
    simp only [CountStage, hpc] at hstage
    obtain ⟨hslot, hcc, hdead⟩ := hstage
    refine I.work hquiet hslot hcc (.inl ⟨_, hpc⟩) rfl rfl rfl (.inr (.inl rfl)) ⟨hslot, hcc, fun h => ?_⟩ rfl
    left
    refine settled_send Job.cont (fun j => by cases j <;> simp [Job.live, Job.cont]) ((hdead h).resolve_right ?_)
    simp [hquiet]
  | kill job hpc =>
    simp only [CountStage, hpc] at hstage
    obtain ⟨hslot, hcc, -⟩ := hstage
    exact I.work hquiet hslot hcc (.inl ⟨_, hpc⟩) rfl rfl rfl (.inr (.inr ⟨_, rfl⟩)) ⟨hslot, hcc⟩ rfl
  | wait job hpc _ =>
    simp only [CountStage, hpc] at hstage
    obtain ⟨hslot, hcc, -⟩ := hstage
    exact I.work hquiet hslot hcc (.inr (.inl hpc)) rfl rfl rfl (.inr (.inr ⟨_, rfl⟩)) ⟨hslot, hcc⟩ rfl
  | mark cmd job status hpc hst =>
    simp only [CountStage, hpc] at hstage
    exact I.mark hquiet hpc hstage.1 hstage.2 hst
  | decr hpc =>
    refine I.move hquiet (by simp [hpc, Pc.committed]) rfl rfl rfl trivial ?_
    simp [owed, hpc]

/-! ## The steps of a handler -/

/-- The count that the handler of `SIGTSTP` owes the table. -/
theorem counted_cons (hf : s.handlers = f :: rest) : s.counted = if f = ⟨.TSTP, .mark⟩ then 1 else 0 := by
  simp [counted, hf]

theorem stage_congr (hpc : s'.pc = s.pc) (hPT : s'.PT = s.PT) (hcc : s'.currChild = s.currChild)
    (hsettled : ∀ job, s.pc.committed = true → s.Settled job → s'.Settled job) (h : s.CountStage) : s'.CountStage := by
  cases hs : s.pc <;> simp only [CountStage, hs] at h <;> simp only [CountStage, hpc, hs, hPT, hcc]
  case kill => exact hsettled _ (by simp [hs, Pc.committed]) h
  case wait => exact hsettled _ (by simp [hs, Pc.committed]) h
  all_goals exact h

/-- The handler goes on and touches no entry. -/
theorem push (I : CountInv s) (hf : s.handlers = f :: rest) (pc : HandlerPc) (hpc : s'.pc = s.pc) (hPT : s'.PT = s.PT)
    (hcc : s'.currChild = s.currChild) (hf' : s'.handlers = ⟨f.sig, pc⟩ :: rest)
    (hsettled : ∀ job, s.Settled job → s'.Settled job)
    (hunmarked : f.sig = .TSTP → pc = .count ∨ pc = .mark → s.currChild ≠ -1 ∧ (s.PT s.currChild).status ≠ .SUSPENDED)
    (hfresh : f = ⟨.TSTP, .kill⟩ → pc = .reset) (hnot : f.pc ≠ .reset) (hcount : f.sig = .INT → pc ≠ .count)
    (hn : s'.numSuspended + s.counted = s.numSuspended + s'.counted) : CountInv s' := by
  have F := I.frames f rest hf
  have hwork : ∀ i, s.Work i → s'.Work i := by
    intro i h
    rw [Work, hpc]; exact h
  refine ⟨hPT ▸ I.self, hPT ▸ I.used, ?_, stage_congr hpc hPT hcc (fun job _ => hsettled job) I.stage, fun g rest' hg => ?_, ?_⟩
  · rw [hcc]
    refine I.child.imp_right fun C => ⟨hcc ▸ C.slot, fun h => ?_, fun h => ?_⟩
    · rw [hPT, hcc]; exact C.used (hpc ▸ h)
    · rw [hPT, hcc] at h
      rw [hcc, hf']
      rcases C.fresh h with h | h | h
      · exact .inl (hwork _ h)
      · rw [hf, List.head?_cons, Option.some.injEq] at h
        exact .inr (.inr (by rw [h, hfresh h]; rfl))
      · rw [hf, List.head?_cons, Option.some.injEq] at h
        exact absurd (by rw [h]) hnot
  · obtain ⟨rfl, rfl⟩ := List.cons.inj (hf'.symm.trans hg)
    refine ⟨fun g hg h => ?_, fun g hg hsig => ?_, fun h => ?_, F.below⟩
    · rcases List.mem_cons.1 hg with rfl | hg
      · exact hcount (congrArg Frame.sig h) (congrArg Frame.pc h)
      · exact F.counts g (List.mem_cons_of_mem _ hg) h
    · rw [hcc, hpc]
      rcases List.mem_cons.1 hg with rfl | hg
      · exact F.tstp f List.mem_cons_self hsig
      · exact F.tstp g (List.mem_cons_of_mem _ hg) hsig
    · rw [hcc, hPT]
      rcases h with h | h
      · exact hunmarked (congrArg Frame.sig h) (.inl (congrArg Frame.pc h))
      · exact hunmarked (congrArg Frame.sig h) (.inr (congrArg Frame.pc h))
  · have := I.count
    have howed : s'.owed = s.owed := by simp only [owed, hpc, hPT]
    rw [howed, hPT]
    omega

/-- The handler returns, or has nothing to do. -/
theorem back (I : CountInv s) (hf : s.handlers = f :: rest) (hnot : f ≠ ⟨.TSTP, .mark⟩) (hint : f ≠ ⟨.INT, .kill⟩) :
    CountInv { s with currChild := -1, handlers := rest } := by
  have F := I.frames f rest hf
  have hsettled : ∀ job, s.Settled job → Settled { s with currChild := -1, handlers := rest } job := by
    rintro job ⟨hslot, -, hdead⟩
    refine ⟨hslot, .inl rfl, fun h => .inl ((hdead h).resolve_right fun h => hint ?_)⟩
    simpa [hf] using h.2
  refine ⟨I.self, I.used, .inl rfl, ?_, fun g rest' hg => ?_, ?_⟩
  · have hstage := I.stage
    cases hpc : s.pc <;> simp only [CountStage, hpc] at hstage ⊢
    case record => exact ⟨hstage.1, fun h => absurd rfl h⟩
    case kill => exact hsettled _ hstage
    case wait => exact hsettled _ hstage
    case mark => exact ⟨hstage.1, .inl trivial⟩
    all_goals exact hstage
  · obtain rfl : rest = g :: rest' := hg
    have hg' := F.below g List.mem_cons_self
    refine ⟨fun k hk => F.counts k (List.mem_cons_of_mem _ hk), fun _ _ _ => .inl rfl, fun h => ?_,
      fun k hk => F.below k (List.mem_cons_of_mem _ hk)⟩
    rcases h with rfl | rfl <;> exact absurd (hg' rfl) (by decide)
  · have hcount := I.count
    rw [counted_cons hf, if_neg hnot] at hcount
    have h0 : counted { s with currChild := -1, handlers := rest } = 0 := by
      rw [counted, if_neg]
      intro h
      exact absurd (F.below _ (List.mem_of_head? h) rfl) (by decide)
    rw [h0]
    exact hcount

theorem suspended_setStatus (s : Mgr) (hi : Slot i) (status : Status) :
    suspended (s.setStatus i status).PT + weight (s.PT i).status = suspended s.PT + weight status :=
  suspended_update s.PT ⟨by have := hi.1; omega, hi.2⟩ _

theorem self_setStatus (I : CountInv s) (hi : i ≠ 0) (status : Status) :
    ((s.setStatus i status).PT 0).pid ≠ 0 ∧ ((s.setStatus i status).PT 0).status ≠ .SUSPENDED := by
  rw [setStatus_pid, setStatus_status, if_neg (Ne.symm hi)]
  exact I.self

/-- The handler of `SIGTSTP` marks the entry it has counted. -/
theorem markSuspended (I : CountInv s) (hf : s.handlers = ⟨.TSTP, .mark⟩ :: rest) :
    CountInv { s.setStatus s.currChild .SUSPENDED with handlers := ⟨.TSTP, .kill⟩ :: rest } := by
  have F := I.frames _ rest hf
  obtain ⟨hcc, hold⟩ := F.unmarked (.inr rfl)
  have hfree := (F.tstp _ List.mem_cons_self rfl).resolve_left hcc
  have C := I.child.resolve_left hcc
  have hused := C.used fun pid h => by simp [h, Pc.committed] at hfree
  have h1 := C.slot.1
  refine ⟨I.self_setStatus (by omega) _, fun i hi h => ?_, .inr ⟨C.slot, fun _ => ?_, fun _ => .inr (.inl rfl)⟩, ?_,
    fun g rest' hg => ?_, ?_⟩
  · replace h : ((s.setStatus s.currChild .SUSPENDED).PT i).status = .SUSPENDED := h
    show ((s.setStatus s.currChild .SUSPENDED).PT i).pid ≠ 0
    rw [setStatus_status] at h
    rw [setStatus_pid]
    split_ifs at h with hic
    · rw [hic]; exact hused
    · exact I.used i hi h
  · show ((s.setStatus s.currChild .SUSPENDED).PT s.currChild).pid ≠ 0
    rw [setStatus_pid]
    exact hused
  · have hstage := I.stage
    have hpid : ∀ i, ((s.setStatus s.currChild .SUSPENDED).PT i).pid = (s.PT i).pid := fun i => setStatus_pid _ _ _ _
    cases hpc : s.pc <;> simp only [CountStage, hpc] at hstage <;> simp only [hpc, Pc.committed, Bool.true_eq_false] at hfree <;>
      simp only [CountStage, setStatus, hpc]
    case fork => exact (hpid 10).trans hstage
    case slot => exact ⟨hstage.1, (hpid 10).trans hstage.2⟩
    case check => exact hstage
    case set cmd job =>
      refine ⟨hstage.1, ?_⟩
      show ((s.setStatus s.currChild .SUSPENDED).PT job).status = .SUSPENDED
      rw [setStatus_status]
      split_ifs
      · rfl
      · exact hstage.2
  · cases hg
    refine ⟨fun g hg => ?_, fun _ _ _ => .inr hfree, fun h => absurd h (by simp), F.below⟩
    rcases List.mem_cons.1 hg with rfl | hg
    · decide
    · exact F.counts g (List.mem_cons_of_mem _ hg)
  · have hcount := I.count
    have hsum := suspended_setStatus s C.slot .SUSPENDED
    rw [weight_eq_zero hold] at hsum
    rw [counted_cons hf, if_pos rfl] at hcount
    have howed : owed { s.setStatus s.currChild .SUSPENDED with handlers := ⟨.TSTP, .kill⟩ :: rest } = s.owed := by
      cases hpc : s.pc <;> simp only [hpc, Pc.committed, Bool.true_eq_false] at hfree <;> simp only [owed, setStatus, hpc]
    show s.numSuspended = suspended (s.setStatus s.currChild .SUSPENDED).PT + owed _ + (0 : Nat)
    rw [howed]
    simp only [weight, if_true] at hsum
    omega

theorem owed_of_work (h : s.Work i) : s.owed = if (s.PT i).status = .SUSPENDED then 0 else 1 := by
  rcases h with ⟨cmd, h⟩ | h | ⟨cmd, h⟩ <;> simp only [owed, h]

/-- What `main` owes depends on the statuses of the table only. -/
theorem owed_congr (I : CountInv s) (hpc : s'.pc = s.pc)
    (h : ∀ i, Slot i → ((s'.PT i).status = .SUSPENDED ↔ (s.PT i).status = .SUSPENDED)) : s'.owed = s.owed := by
  have hstage := I.stage
  cases hs : s.pc <;> simp only [CountStage, hs] at hstage <;> simp only [owed, hpc, hs]
  case kill => simp only [h _ hstage.1]
  case wait => simp only [h _ hstage.1]
  case mark => simp only [h _ hstage.1]

theorem terminate_stage (I : CountInv s) (hf : s.handlers = ⟨.INT, .mark⟩ :: rest)
    (hsettled : ∀ job, s.Settled job →
      Settled { s.setStatus s.currChild .TERMINATED with handlers := ⟨.INT, .kill⟩ :: rest } job) :
    CountStage { s.setStatus s.currChild .TERMINATED with handlers := ⟨.INT, .kill⟩ :: rest } := by
  have hpid : ∀ i, ((s.setStatus s.currChild .TERMINATED).PT i).pid = (s.PT i).pid := fun i => setStatus_pid _ _ _ _
  have hstatus : ∀ i, ((s.setStatus s.currChild .TERMINATED).PT i).status =
      if i = s.currChild then .TERMINATED else (s.PT i).status := fun i => setStatus_status _ _ _ _
  have hstage := I.stage
  cases hpc : s.pc <;> simp only [CountStage, hpc] at hstage <;> simp only [CountStage, setStatus, hpc]
  case fork => exact (hpid 10).trans hstage
  case slot => exact ⟨hstage.1, (hpid 10).trans hstage.2⟩
  case record => exact ⟨hstage.1, fun h => (hpid _).trans (hstage.2 h)⟩
  case check => exact hstage
  case set cmd job =>
    refine ⟨hstage.1, ?_⟩
    show ((s.setStatus s.currChild .TERMINATED).PT job).status = .SUSPENDED
    rw [hstatus, if_neg]
    · exact hstage.2
    · rintro rfl
      have hcc : s.currChild ≠ -1 := by have := hstage.1.1; omega
      rcases I.work_of_suspended (by simp [hf]) hcc hstage.2 with ⟨cmd, h⟩ | h | ⟨cmd, h⟩ <;> simp [hpc] at h
  case kill => simpa only [setStatus, hpc] using hsettled _ hstage
  case wait => simpa only [setStatus, hpc] using hsettled _ hstage
  case mark => exact hstage

theorem terminate_count (I : CountInv s) (hf : s.handlers = ⟨.INT, .mark⟩ :: rest) :
    suspended (s.setStatus s.currChild .TERMINATED).PT +
        owed { s.setStatus s.currChild .TERMINATED with handlers := ⟨.INT, .kill⟩ :: rest } =
      suspended s.PT + s.owed := by
  have hstatus : ∀ i, ((s.setStatus s.currChild .TERMINATED).PT i).status =
      if i = s.currChild then .TERMINATED else (s.PT i).status := fun i => setStatus_status _ _ _ _
  by_cases hsusp : s.currChild ≠ -1 ∧ (s.PT s.currChild).status = .SUSPENDED
  · have hsum := suspended_setStatus s (I.child.resolve_left hsusp.1).slot .TERMINATED
    have hw := I.work_of_suspended (by simp [hf]) hsusp.1 hsusp.2
    rw [hsusp.2] at hsum
    rw [owed_of_work hw, owed_of_work (s := { s.setStatus s.currChild .TERMINATED with handlers := _ }) hw, hsusp.2]
    simp only [hstatus, weight, if_true] at hsum ⊢
    simp at hsum ⊢
    omega
  · have hsame : ∀ i, 0 ≤ i → (((s.setStatus s.currChild .TERMINATED).PT i).status = .SUSPENDED ↔
        (s.PT i).status = .SUSPENDED) := by
      intro i hi
      rw [hstatus]
      split_ifs with hic
      · rw [hic] at hi ⊢
        exact iff_of_false (by decide) fun h => hsusp ⟨by omega, h⟩
      · rfl
    have howed : owed { s.setStatus s.currChild .TERMINATED with handlers := ⟨.INT, .kill⟩ :: rest } = s.owed :=
      I.owed_congr rfl fun i hi => hsame i (by have := hi.1; omega)
    rw [howed, suspended_congr fun i hi _ => hsame i hi]

/-- The handler of `SIGINT` marks the entry `currChild`, which is outside of the table when another handler has put
-1 there. -/
theorem markTerminated (I : CountInv s) (hf : s.handlers = ⟨.INT, .mark⟩ :: rest) :
    CountInv { s.setStatus s.currChild .TERMINATED with handlers := ⟨.INT, .kill⟩ :: rest } := by
  have F := I.frames _ rest hf
  have hpid : ∀ i, ((s.setStatus s.currChild .TERMINATED).PT i).pid = (s.PT i).pid := fun i => setStatus_pid _ _ _ _
  have hstatus : ∀ i, ((s.setStatus s.currChild .TERMINATED).PT i).status =
      if i = s.currChild then .TERMINATED else (s.PT i).status := fun i => setStatus_status _ _ _ _
  have hne0 : s.currChild ≠ 0 := by
    rcases I.child with h | C
    · omega
    · have := C.slot.1; omega
  have hsettled : ∀ job, s.Settled job →
      Settled { s.setStatus s.currChild .TERMINATED with handlers := ⟨.INT, .kill⟩ :: rest } job := by
    rintro job ⟨hslot, hcc, hdead⟩
    refine ⟨hslot, hcc, fun h => ?_⟩
    by_cases hjc : job = s.currChild
    · exact .inr ⟨hjc.symm, rfl⟩
    · replace h : ((s.setStatus s.currChild .TERMINATED).PT job).status ≠ .SUSPENDED := h
      rw [hstatus, if_neg hjc] at h
      left
      show (s.job ((s.setStatus s.currChild .TERMINATED).PT job).pid).live = false
      rw [hpid]
      exact (hdead h).resolve_right fun h' => by simp [hf] at h'
  refine ⟨I.self_setStatus hne0 _, fun i hi h => ?_, I.child.imp_right fun C => ⟨C.slot, fun h => ?_, fun h => ?_⟩, ?_,
    fun g rest' hg => ?_, ?_⟩
  · replace h : ((s.setStatus s.currChild .TERMINATED).PT i).status = .SUSPENDED := h
    rw [hstatus] at h
    show ((s.setStatus s.currChild .TERMINATED).PT i).pid ≠ 0
    rw [hpid]
    split_ifs at h
    exact I.used i hi h
  · exact (hpid _).trans_ne (C.used h)
  · replace h : ((s.setStatus s.currChild .TERMINATED).PT s.currChild).status = .SUSPENDED := h
    rw [hstatus, if_pos rfl] at h
    exact absurd h (by decide)
  · exact I.terminate_stage hf hsettled
  · cases hg
    refine ⟨fun g hg => ?_, fun g hg hsig => ?_, fun h => absurd h (by simp), F.below⟩
    · rcases List.mem_cons.1 hg with rfl | hg
      · decide
      · exact F.counts g (List.mem_cons_of_mem _ hg)
    · rcases List.mem_cons.1 hg with rfl | hg
      · cases hsig
      · exact F.tstp g (List.mem_cons_of_mem _ hg) hsig
  · have hcount := I.count
    rw [counted_cons hf, if_neg (by decide)] at hcount
    have hsum := I.terminate_count hf
    show s.numSuspended = suspended (s.setStatus s.currChild .TERMINATED).PT + owed _ + (0 : Nat)
    omega

/-- The handler sends its signal; that of `SIGINT` kills the job. -/
theorem sendChild (I : CountInv s) {sig : Sig} (hf : s.handlers = ⟨sig, .kill⟩ :: rest) {act : Job → Job}
    (hact : ∀ j : Job, j.live = false → (act j).live = false) (hkill : sig = .INT → ∀ j : Job, (act j).live = false) :
    CountInv { s.send (s.PT s.currChild).pid act with handlers := ⟨sig, .reset⟩ :: rest } := by
  refine I.push hf .reset rfl rfl rfl rfl ?_ (fun _ h => by simp at h) (fun _ => rfl) (by simp) (by simp) ?_
  · rintro job ⟨hslot, hcc, hdead⟩
    refine ⟨hslot, hcc, fun h => .inl ?_⟩
    rcases hdead h with hdead | ⟨hjob, haim⟩
    · exact settled_send act hact hdead
    · obtain rfl : sig = .INT := by simpa [hf] using haim
      show ((s.send (s.PT s.currChild).pid act).job (s.PT job).pid).live = false
      rw [hjob, send_job, if_pos rfl]
      exact hkill rfl _
  · rw [counted_cons hf, counted_cons (s := { s.send _ act with handlers := ⟨sig, .reset⟩ :: rest }) rfl]
    simp [send]

theorem handler (I : CountInv s) (hf : s.handlers = f :: rest) : CountInv (s.handler f rest) := by
  have F := I.frames f rest hf
  obtain ⟨sig, pc⟩ := f
  cases pc with
  | test =>
    by_cases hcc : s.currChild = -1
    · have hback := I.back hf (by simp) (by simp)
      simpa [Mgr.handler, hcc] using hback
    · simp only [Mgr.handler, hcc, if_false]
      cases sig with
      | INT =>
        refine I.push hf .mark rfl rfl rfl rfl (fun _ h => ?_) (by simp) (by simp) (by simp) (by simp) ?_
        · simpa [Settled, hf] using h
        · simp [counted, hf]
      | TSTP =>
        refine I.push hf .count rfl rfl rfl rfl (fun _ h => ?_) (fun _ _ => ⟨hcc, fun h => ?_⟩) (by simp) (by simp)
          (by simp) ?_
        · simpa [Settled, hf] using h
        -- a job that is `SUSPENDED` already is one that `c` or `k` is committed to
        · have hfree := (F.tstp _ List.mem_cons_self rfl).resolve_left hcc
          have hfresh := (I.child.resolve_left hcc).fresh h
          rw [hf] at hfresh
          rcases hfresh with (⟨cmd, h⟩ | h | ⟨cmd, h⟩) | h | h
          · simp [h, Pc.committed] at hfree
          · simp [h, Pc.committed] at hfree
          · simp [h, Pc.committed] at hfree
          · simp at h
          · simp at h
        · simp [counted, hf]
  | count =>
    cases sig with
    | INT => exact absurd rfl (F.counts _ List.mem_cons_self)
    | TSTP =>
      simp only [Mgr.handler]
      refine I.push hf .mark rfl rfl rfl rfl (fun _ h => ?_) (fun _ _ => F.unmarked (.inl rfl)) (by simp) (by simp)
        (by simp) ?_
      · simpa [Settled, hf] using h
      · simp [counted, hf]
  | mark =>
    cases sig with
    | INT => exact I.markTerminated hf
    | TSTP => exact I.markSuspended hf
  | kill =>
    cases sig with
    | INT =>
      refine I.sendChild hf (fun j => ?_) fun _ j => ?_
      · cases j <;> simp [Job.live, Job.kill]
      · cases j <;> rfl
    | TSTP =>
      refine I.sendChild hf (fun j => ?_) (by simp)
      cases j <;> simp [Job.live, Job.stop]
  | reset => exact I.back hf (by simp) (by simp)

/-! ## Signals, and jobs that end -/

theorem no_count (I : CountInv s) (hf : f ∈ s.handlers) : f ≠ ⟨.INT, .count⟩ := by
  cases hs : s.handlers with
  | nil => simp [hs] at hf
  | cons g rest => exact (I.frames g rest hs).counts f (hs ▸ hf)

theorem tstp (I : CountInv s) (hf : f ∈ s.handlers) (hsig : f.sig = .TSTP) :
    s.currChild = -1 ∨ s.pc.committed = false := by
  cases hs : s.handlers with
  | nil => simp [hs] at hf
  | cons g rest => exact (I.frames g rest hs).tstp f (hs ▸ hf) hsig

theorem signal (I : CountInv s) {sig : Sig} (hok : s.Countable (.signal sig)) (hother : ∀ f ∈ s.handlers, f.sig ≠ sig) :
    CountInv { s with handlers := ⟨sig, .test⟩ :: s.handlers } := by
  -- no handler of `SIGTSTP` is under way beyond its test
  have hbelow : ∀ g ∈ s.handlers, g.sig = .TSTP → g.pc = .test := by
    intro g hg hsig
    cases sig with
    | INT => exact hok g hg
    | TSTP => exact absurd hsig (hother g hg)
  have hhead : ∀ pc, pc ≠ .test → s.handlers.head? ≠ some ⟨.TSTP, pc⟩ := by
    intro pc hpc h
    exact hpc (hbelow _ (List.mem_of_head? h) rfl)
  have hsettled : ∀ job, s.pc.committed = true → s.Settled job →
      Settled { s with handlers := ⟨sig, .test⟩ :: s.handlers } job := by
    rintro job hcommitted ⟨hslot, hcc, hdead⟩
    refine ⟨hslot, hcc, fun h => (hdead h).imp_right fun haim => ?_⟩
    exfalso
    cases sig with
    | INT => exact absurd (hok _ (List.mem_of_head? haim.2)) (by decide)
    | TSTP =>
      rcases hok with h | h
      · exact absurd ((haim.1.symm.trans h) ▸ hslot).1 (by decide)
      · exact absurd (hcommitted.symm.trans h) (by decide)
  refine ⟨I.self, I.used, I.child.imp_right fun C => ⟨C.slot, C.used, fun h => .inl ?_⟩,
    stage_congr (s := s) rfl rfl rfl hsettled I.stage, ?_, ?_⟩
  · exact (C.fresh h).resolve_right fun h => h.elim (hhead .kill (by decide)) (hhead .reset (by decide))
  · rintro f rest hf
    obtain ⟨rfl, rfl⟩ := List.cons.inj hf
    refine ⟨fun g hg => ?_, fun g hg hsig => ?_, fun h => by simp at h, hbelow⟩
    · rcases List.mem_cons.1 hg with rfl | hg
      · simp
      · exact I.no_count hg
    · rcases List.mem_cons.1 hg with rfl | hg
      · obtain rfl : sig = .TSTP := hsig
        exact hok
      · exact I.tstp hg hsig
  · have hcount := I.count
    have h0 : s.counted = 0 := if_neg (hhead .mark (by decide))
    have h0' : counted { s with handlers := ⟨sig, .test⟩ :: s.handlers } = 0 := if_neg (by simp)
    rw [h0] at hcount
    rw [h0']
    exact hcount

theorem finish (I : CountInv s) (hrun : s.job pid = .running) : CountInv { s with job := update s.job pid .exited } := by
  refine ⟨I.self, I.used, I.child.imp_right fun C => ⟨C.slot, C.used, C.fresh⟩,
    stage_congr (s := s) rfl rfl rfl (fun job _ h => ⟨h.1, h.2.1, fun hst => (h.2.2 hst).imp_left fun hdead => ?_⟩)
      I.stage, fun f rest hf => ?_, I.count⟩
  · have hne : (s.PT job).pid ≠ pid := by
      rintro rfl
      exact absurd hdead (by simp [hrun, Job.live])
    simpa [hne] using hdead
  · have F := I.frames f rest hf
    exact ⟨F.counts, F.tstp, F.unmarked, F.below⟩

theorem step (I : CountInv s) {m : Move} (hok : s.Countable m) (h : s.step m = some s') : CountInv s' := by
  cases Mgr.moved_of_step h with
  | command cmd hquiet hpc =>
    refine I.move hquiet (by simp [hpc, Pc.committed]) rfl rfl rfl ?_ ?_
    · cases cmd <;> trivial
    · cases cmd <;> simp [owed, Mgr.goto, afterCommand, hpc]
  | pick cmd job hquiet hpc =>
    exact I.move hquiet (by simp [hpc, Pc.committed]) rfl rfl rfl hok (by simp [owed, Mgr.goto, hpc])
  | fork pid hquiet hpc hpos _ =>
    have hstage := I.stage
    simp only [CountStage, hpc] at hstage
    exact I.move hquiet (by simp [hpc, Pc.committed]) rfl rfl rfl ⟨hpos, hstage⟩ (by simp [owed, hpc])
  | next s' hquiet hnext => exact I.next hquiet hnext
  | handler f rest hf => exact I.handler hf
  | signal sig hother => exact I.signal hok hother
  | finish pid hrun => exact I.finish hrun

end CountInv

/-- **`numSuspended` counts the suspended jobs** whenever mgr is blocked, in every run in which no signal comes between
two writes that belong together. -/
theorem numSuspended_eq_suspended (self : Int) (mem : Int → Entry) (hself : 0 < self) (s : Mgr)
    (h : Trans.ReachIf Mgr.step Countable (Mgr.init self mem) s) (hblocked : s.Blocked) :
    s.numSuspended = suspended s.PT := by
  have I : CountInv s := h.inv (.init self mem hself) fun _ _ _ _ I hok hs => I.step hok hs
  obtain ⟨hquiet, hwhere⟩ := hblocked
  have hcount := I.count
  have hstage := I.stage
  rw [counted_quiet hquiet] at hcount
  have howed : s.owed = 0 := by
    split at hwhere
    case h_1 hpc => simp [owed, hpc]
    case h_2 hpc => simp [owed, hpc]
    case h_3 hpc => simp [owed, hpc]
    -- `c` waits for a job that is marked `SUSPENDED` as long as it lives
    case h_4 job hpc =>
      simp only [CountStage, hpc] at hstage
      by_cases hsusp : (s.PT job).status = .SUSPENDED
      · simp [owed, hpc, hsusp]
      · rcases hstage.2.2 hsusp with h | h
        · exact absurd (hwhere.symm.trans h) (by simp)
        · simp [hquiet] at h
    case h_5 => exact hwhere.elim
  rw [howed] at hcount
  simpa using hcount

/-- Two jobs are suspended, the first one is continued and terminated; mgr waits for the second one. -/
theorem numSuspended_eq_suspended_continued : ∃ s : Mgr,
    Trans.ReachIf Mgr.step Countable (Mgr.init 1 fun _ => ⟨0, .EMPTY⟩) s ∧ s.pc = .wait 2 ∧
      s.numSuspended = suspended s.PT := by
  obtain ⟨s, hr, hs⟩ := Trans.exists_reachIf_of_run Mgr.step Countable (Mgr.init 1 fun _ => ⟨0, .EMPTY⟩)
    [.command .r, .next, .fork 5, .next, .next, .signal .TSTP, .handler, .handler, .handler, .handler, .handler,
      .next, .next, .command .r, .next, .fork 6, .next, .next, .signal .TSTP, .handler, .handler, .handler, .handler,
      .handler, .next, .next, .command .c, .next, .pick 1, .next, .next, .next, .signal .INT, .handler, .handler,
      .handler, .handler, .next, .next, .next, .command .c, .next, .pick 2, .next, .next, .next]
    (fun s => decide (s.Blocked ∧ s.pc = .wait 2)) (by decide +kernel)
  obtain ⟨hblocked, hpc⟩ := of_decide_eq_true hs
  exact ⟨s, hr, hpc, numSuspended_eq_suspended 1 (fun _ => ⟨0, .EMPTY⟩) (by decide) s hr hblocked⟩

/-- A job is suspended, continued and, while `c` waits for it, suspended again: it counts twice. -/
theorem suspended_twice : ¬ ∀ s : Mgr, Trans.ReachIf Mgr.step AtRest (Mgr.init 1 fun _ => ⟨0, .EMPTY⟩) s → s.Blocked →
    s.numSuspended = suspended s.PT := by
  intro h
  obtain ⟨s, hr, hs⟩ := Trans.exists_reachIf_of_run Mgr.step AtRest (Mgr.init 1 fun _ => ⟨0, .EMPTY⟩)
    [.command .r, .next, .fork 5, .next, .next, .signal .TSTP, .handler, .handler, .handler, .handler, .handler,
      .next, .next, .command .c, .next, .pick 1, .next, .next, .next, .signal .TSTP, .handler, .handler, .handler,
      .handler, .handler]
    (fun s => decide (s.Blocked ∧ s.numSuspended ≠ suspended s.PT)) (by decide +kernel)
  obtain ⟨hblocked, hne⟩ := of_decide_eq_true hs
  exact hne (h s hr hblocked)

end Mgr

end OsLab.A2
