import OsLab.A6.Handshake

/-!
# The wake-ups of the assistant (A6/session.c)

`asst_done` is set and signalled without `asst_mutex` (:164, :178, :209, :238). main finds it 0 with the mutex held and
blocks a statement later; a thread that sets it and signals in between signals to nobody, and main sleeps on a set
flag. As each block of main waits for one thread, no other signal comes.

`no_lost_wakeup`: this is the only way. As long as no signal that the flag needs is made between main's test and its
block, a set flag has its signal still to come whenever main is about to block or blocked.
-/

namespace OsLab.A6

open Trans (Reach ReachIf)

/-- Between the test that has found `asst_done` 0 and the call of `pthread_cond_wait`. -/
def MainPc.aboutToBlock : MainPc → Bool
  | .asst .wait _ => true
  | _ => false

/-- Blocked in `pthread_cond_wait(&asst_cond, &asst_mutex)`. -/
def MainPc.blockedOnAsst : MainPc → Bool
  | .asst .blocked _ => true
  | _ => false

def MainPc.awaits (p : MainPc) : Bool := p.aboutToBlock || p.blockedOnAsst

namespace Clinic

/-- The step is `pthread_cond_signal(&asst_cond)`. -/
def signals (s : Clinic) : SessionStep → Bool
  | .main _ => false
  | .doctor => s.doctor = .signal
  | .visitor i => (s.threads[i]?).any (·.pc = .signal)

/-- How many threads have set `asst_done` and not signalled yet. -/
def signalsToCome (s : Clinic) : Nat :=
  (if s.doctor = .signal then 1 else 0) + s.threads.countP (·.pc = .signal)

/-- main is blocked on `asst_cond` with `asst_done` set, and no signal will come. -/
def LostWakeup (s : Clinic) : Prop :=
  s.main.blockedOnAsst = true ∧ s.asstDone = true ∧ ∀ t a, Reach step s t → (t.step a).isSome = true → t.signals a = false

/-- The step is not the last signal for a set flag that main is about to block on. -/
def Heard (s : Clinic) (a : SessionStep) : Prop :=
  s.signals a = true → s.main.aboutToBlock = true → s.asstDone = true → 1 < s.signalsToCome

instance (s : Clinic) (a : SessionStep) : Decidable (s.Heard a) :=
  inferInstanceAs (Decidable (_ → _ → _ → _))

variable {s s' : Clinic} {i w : Nat} {t : Thread} {p : VisitorPc}

/-! ## What main does -/

theorem awaits_away {p : MainPc} (h : ∀ q a, p ≠ .asst q a) : p.awaits = false := by
  cases p with
  | asst q a => exact absurd rfl (h q a)
  | _ => rfl

theorem wakeDoctor_away {p : WakePc} {w : Wake} (h : s.wakeDoctor p w = some s') : s'.main.awaits = false := by
  cases p with
  | lock =>
    obtain ⟨m, -, rfl⟩ := Option.map_eq_some_iff.1 h
    rfl
  | set | signal => cases h; rfl
  | unlock => cases h; cases w <;> rfl

theorem callVisitor_away {p : CallPc} {k : Kind} {v : Serve} (h : s.callVisitor p k v w = some s') :
    s'.main.awaits = false := by
  cases p with
  | lock =>
    obtain ⟨m, -, rfl⟩ := Option.map_eq_some_iff.1 h
    rfl
  | set | count | unlock => cases h; rfl
  | signal =>
    simp only [callVisitor] at h
    split at h <;> split_ifs at h <;> cases h <;> rfl

theorem loop_away (s : Clinic) : s.loop.main.awaits = false := by
  refine awaits_away fun q a h => ?_
  simp only [loop] at h
  split_ifs at h

theorem dispatch_away (s : Clinic) : s.dispatch.main.awaits = false := by
  refine awaits_away fun q a h => ?_
  simp only [dispatch] at h
  split_ifs at h
  split at h
  · split at h <;> cases h
  · cases h

theorem receive_away (s : Clinic) : s.receive.main.awaits = false := by
  refine awaits_away fun q a h => ?_
  simp only [receive] at h
  split_ifs at h

theorem others_away (s : Clinic) : s.others.main.awaits = false := by
  refine awaits_away fun q a h => ?_
  simp only [others] at h
  split_ifs at h

/-- main comes to its block only with the flag at 0, and does not touch the flag on the way. -/
theorem waitAsst_awaits {p : AsstPc} {a : Awaited} (hmain : s.main = .asst p a) (h : s.waitAsst p a = some s')
    (hawaits : s'.main.awaits = true) (hflag : s'.asstDone = true) :
    s.main.awaits = true ∧ s.asstDone = true ∧ s'.signalsToCome = s.signalsToCome := by
  cases p with
  | lock | relock =>
    obtain ⟨m, -, rfl⟩ := Option.map_eq_some_iff.1 h
    cases hawaits
  | test =>
    cases h
    rw [if_neg (by simpa using hflag)] at hawaits
    cases hawaits
  | wait =>
    cases h
    exact ⟨by rw [hmain]; rfl, hflag, rfl⟩
  | blocked => cases h
  | clear => cases h; cases hflag
  | unlock =>
    cases h
    cases a <;> cases hawaits

theorem stepMain_awaits (h : s.stepMain w = some s') (hawaits : s'.main.awaits = true) (hflag : s'.asstDone = true) :
    s.main.awaits = true ∧ s.asstDone = true ∧ s'.signalsToCome = s.signalsToCome := by
  by_cases hasst : ∃ p a, s.main = .asst p a
  · obtain ⟨p, a, hmain⟩ := hasst
    rw [stepMain, hmain] at h
    exact waitAsst_awaits hmain h hawaits hflag
  have haway : s'.main.awaits = false := by
    cases hmain : s.main <;> simp only [stepMain, hmain] at h
    case asst p a => exact absurd ⟨p, a, hmain⟩ hasst
    case wake p w => exact wakeDoctor_away h
    case call p k v => exact callVisitor_away h
    case loop => cases h; exact loop_away s
    case dispatch => cases h; exact dispatch_away s
    case receive => cases h; exact receive_away s
    case others => cases h; exact others_away s
    case join l =>
      split_ifs at h
      cases h
      cases l <;> rfl
    case turn v =>
      cases h
      split
      · rfl
      · cases v <;> rfl
    case enter v =>
      obtain ⟨b, -, rfl⟩ := Option.map_eq_some_iff.1 h
      rfl
    case barrier v =>
      obtain ⟨⟨s₁, done⟩, -, rfl⟩ := Option.map_eq_some_iff.1 h
      cases done <;> rfl
    case addevent v => cases h; cases v <;> rfl
    case pending => cases h; split_ifs <;> rfl
    case returned => cases h
    all_goals
      cases h
      rfl
  rw [haway] at hawaits
  cases hawaits

/-! ## What the others do -/

theorem signalAsst_away (s : Clinic) : s.signalAsst.main.awaits = s.main.aboutToBlock := by
  cases hmain : s.main <;> simp only [signalAsst, hmain] <;> try rfl
  case asst p a => cases p <;> rfl

theorem signalsToCome_setThread (h : s.threads[i]? = some t) :
    (s.setThread i t p).signalsToCome + (if t.pc = .signal then 1 else 0) =
      s.signalsToCome + if p = .signal then 1 else 0 := by
  obtain ⟨hi, ht⟩ := List.getElem?_eq_some_iff.1 h
  have hle : (if t.pc = .signal then 1 else 0) ≤ s.threads.countP (·.pc = .signal) := by
    split_ifs with hs
    · exact List.countP_pos_iff.2 ⟨t, List.mem_of_getElem? h, by simpa using hs⟩
    · exact Nat.zero_le _
  have hset : (s.setThread i t p).threads.countP (·.pc = .signal) =
      s.threads.countP (·.pc = .signal) - (if t.pc = .signal then 1 else 0) + if p = .signal then 1 else 0 := by
    rw [setThread, List.countP_set hi, ht]
    simp only [decide_eq_true_eq]
  rw [signalsToCome, signalsToCome, hset, show (s.setThread i t p).doctor = s.doctor from rfl]
  omega

/-! ## The invariant -/

/-- When main is about to block or blocked and the flag is set, its signal is still to come. -/
def Handed (s : Clinic) : Prop := s.main.awaits = true → s.asstDone = true → 0 < s.signalsToCome

namespace Handed

theorem keep (I : s.Handed) (hmain : s'.main = s.main) (hflag : s'.asstDone = s.asstDone)
    (hle : s.signalsToCome ≤ s'.signalsToCome) : s'.Handed := by
  intro hawaits hdone
  rw [hmain] at hawaits
  rw [hflag] at hdone
  exact (I hawaits hdone).trans_le hle

theorem stepMain (I : s.Handed) (h : s.stepMain w = some s') : s'.Handed := by
  intro hawaits hflag
  obtain ⟨hawaits', hflag', heq⟩ := stepMain_awaits h hawaits hflag
  rw [heq]
  exact I hawaits' hflag'

/-- Only a signal loses one that is to come. -/
theorem doctor_le (hdoctor : s.doctor ≠ .signal) (hthreads : s'.threads = s.threads) :
    s.signalsToCome ≤ s'.signalsToCome := by
  rw [signalsToCome, signalsToCome, hthreads, if_neg hdoctor, Nat.zero_add]
  exact Nat.le_add_left _ _

theorem stepDoctor (I : s.Handed) (hheard : s.Heard .doctor) (h : s.stepDoctor = some s') : s'.Handed := by
  cases hpc : s.doctor <;> simp only [Clinic.stepDoctor, hpc] at h
  case unborn | blocked | left => cases h
  case lock | relock =>
    obtain ⟨m, -, rfl⟩ := Option.map_eq_some_iff.1 h
    exact I.keep rfl rfl (doctor_le (by simp [hpc]) rfl)
  case test | wait | take | unlock =>
    cases h
    exact I.keep rfl rfl (doctor_le (by simp [hpc]) rfl)
  case check =>
    split_ifs at h <;> cases h <;> exact I.keep rfl rfl (doctor_le (by simp [hpc]) rfl)
  case store =>
    cases h
    intro _ _
    exact Nat.lt_add_right _ (by simp)
  case signal =>
    cases h
    intro hawaits hflag
    have hblock : s.main.aboutToBlock = true := (signalAsst_away s).symm.trans hawaits
    have hmany := hheard (by simp [signals, hpc]) hblock hflag
    rw [signalsToCome, if_pos hpc] at hmany
    have hthreads : s.signalAsst.threads = s.threads := rfl
    simp only [signalsToCome, hthreads]
    omega
  case enter =>
    obtain ⟨b, -, rfl⟩ := Option.map_eq_some_iff.1 h
    exact I.keep rfl rfl (doctor_le (by simp [hpc]) rfl)
  case barrier =>
    obtain ⟨⟨s₁, done⟩, hb, rfl⟩ := Option.map_eq_some_iff.1 h
    obtain ⟨b, -, he⟩ := Option.map_eq_some_iff.1 hb
    cases he
    exact I.keep rfl rfl (doctor_le (by simp [hpc]) rfl)

theorem setThread (I : s.Handed) (ht : s.threads[i]? = some t) (hpc : t.pc ≠ .signal) (p : VisitorPc) :
    (s.setThread i t p).Handed := by
  refine I.keep rfl rfl ?_
  have := signalsToCome_setThread (p := p) ht
  rw [if_neg hpc] at this
  omega

theorem stepVisitor (I : s.Handed) (hheard : s.Heard (.visitor i)) (h : s.stepVisitor i = some s') : s'.Handed := by
  obtain ⟨t, ht, h⟩ := Option.bind_eq_some_iff.1 h
  -- what the thread changes besides its own place is not what `Handed` is about
  have hset : ∀ {s₁ : Clinic} (p : VisitorPc), t.pc ≠ .signal → s₁.main = s.main → s₁.asstDone = s.asstDone →
      s₁.doctor = s.doctor → s₁.threads = s.threads → (s₁.setThread i t p).Handed := by
    intro s₁ p hpc hmain hflag hdoctor hthreads
    have I₁ : s₁.Handed := I.keep hmain hflag (by rw [signalsToCome, signalsToCome, hdoctor, hthreads])
    exact I₁.setThread (hthreads ▸ ht) hpc p
  cases hpc : t.pc <;> simp only [execVisitor, hpc] at h
  case blocked | left => cases h
  case lock | relock =>
    obtain ⟨m, -, rfl⟩ := Option.map_eq_some_iff.1 h
    exact hset _ (by simp [hpc]) rfl rfl rfl rfl
  case test | wait | take | visit | unlock =>
    cases h
    exact hset _ (by simp [hpc]) rfl rfl rfl rfl
  case store =>
    cases h
    intro _ _
    have hsum := signalsToCome_setThread (s := { s with asstDone := true }) (p := .signal) ht
    rw [hpc] at hsum
    simp only [reduceCtorEq, if_false, if_true] at hsum
    omega
  case signal =>
    cases h
    intro hawaits hflag
    have hblock : s.main.aboutToBlock = true := (signalAsst_away s).symm.trans hawaits
    have hmany := hheard (by simp [signals, ht, hpc]) hblock hflag
    have hsum := signalsToCome_setThread (s := s.signalAsst) (p := .test) ht
    rw [hpc, show s.signalAsst.signalsToCome = s.signalsToCome from rfl] at hsum
    simp only [reduceCtorEq, if_false, if_true] at hsum
    omega
  case enter =>
    obtain ⟨b, -, rfl⟩ := Option.map_eq_some_iff.1 h
    exact hset _ (by simp [hpc]) rfl rfl rfl rfl
  case barrier =>
    obtain ⟨⟨s₁, done⟩, hb, rfl⟩ := Option.map_eq_some_iff.1 h
    obtain ⟨b, -, he⟩ := Option.map_eq_some_iff.1 hb
    cases he
    exact hset _ (by simp [hpc]) rfl rfl rfl rfl

theorem step {a : SessionStep} (I : s.Handed) (hheard : s.Heard a) (h : s.step a = some s') : s'.Handed := by
  cases a with
  | main w => exact I.stepMain h
  | doctor => exact I.stepDoctor hheard h
  | visitor i => exact I.stepVisitor hheard h

end Handed

/-- A thread that is to signal can. -/
theorem exists_signal (h : 0 < s.signalsToCome) : ∃ a, (s.step a).isSome = true ∧ s.signals a = true := by
  by_cases hdoctor : s.doctor = .signal
  · exact ⟨.doctor, by simp [step, stepDoctor, hdoctor], by simp [signals, hdoctor]⟩
  rw [signalsToCome, if_neg hdoctor, Nat.zero_add, List.countP_pos_iff] at h
  obtain ⟨t, ht, hpc⟩ := h
  obtain ⟨i, hi⟩ := List.mem_iff_getElem?.1 ht
  rw [decide_eq_true_eq] at hpc
  exact ⟨.visitor i, by simp [step, stepVisitor, execVisitor, hi, hpc], by simp [signals, hi, hpc]⟩

/-! ## Lost wake-ups -/

/-- **No wake-up is lost** in a run in which every signal that the flag needs is heard. -/
theorem no_lost_wakeup (arrivals : List Event) (s : Clinic) (h : ReachIf step Heard (.init arrivals) s) :
    ¬ s.LostWakeup := by
  rintro ⟨hblocked, hflag, hnever⟩
  have I : s.Handed := h.inv (I := Handed) (fun h => by cases h) fun _ _ _ _ I hheard hs => I.step hheard hs
  obtain ⟨a, ha, hsignals⟩ := exists_signal (I (by rw [MainPc.awaits, hblocked, Bool.or_true]) hflag)
  rw [hnever s a .refl ha] at hsignals
  cases hsignals

/-- A patient at the opening: main waits for its thread, which has set the flag and is about to signal. -/
theorem no_lost_wakeup_patient : ∃ s, ReachIf step Heard (.init [⟨'P', 0, 10⟩]) s ∧
    s.main = .asst .blocked (.visitor .patient) ∧ s.asstDone = true ∧ ¬ s.LostWakeup := by
  obtain ⟨s, hr, hs⟩ := Trans.exists_reachIf_of_run step Heard (.init [⟨'P', 0, 10⟩])
    (List.replicate 7 (.main 0) ++ List.replicate 2 (.visitor 0))
    (fun s => s.main == .asst .blocked (.visitor .patient) && s.asstDone) (by decide +kernel)
  rw [Bool.and_eq_true, beq_iff_eq] at hs
  exact ⟨s, hr, hs.1, hs.2, no_lost_wakeup _ s hr⟩

/-- With main, the doctor and the visitors blocked nothing happens any more. -/
theorem step_blocked (hmain : s.main.blockedOnAsst = true) (hdoctor : s.doctor = .blocked)
    (hthreads : ∀ t ∈ s.threads, t.pc = .blocked) (a : SessionStep) : s.step a = none := by
  cases a with
  | main w =>
    obtain ⟨b, hpc⟩ : ∃ b, s.main = .asst .blocked b := by
      cases hpc : s.main <;> rw [hpc] at hmain
      case asst p b => cases p <;> first | exact ⟨b, rfl⟩ | cases hmain
      all_goals cases hmain
    simp only [step, stepMain, hpc, waitAsst]
  | doctor => simp only [step, stepDoctor, hdoctor]
  | visitor i =>
    cases ht : s.threads[i]? with
    | none => simp only [step, stepVisitor, ht, Option.bind_none]
    | some t =>
      have hpc := hthreads t (List.mem_of_getElem? ht)
      simp only [step, stepVisitor, ht, Option.bind_some, execVisitor, hpc]

theorem lostWakeup_of_blocked (hmain : s.main.blockedOnAsst = true) (hflag : s.asstDone = true)
    (hdoctor : s.doctor = .blocked) (hthreads : ∀ t ∈ s.threads, t.pc = .blocked) : s.LostWakeup := by
  refine ⟨hmain, hflag, fun t a hr ha => ?_⟩
  have hstuck := step_blocked hmain hdoctor hthreads
  rw [Trans.eq_of_stuck hstuck hr, hstuck a] at ha
  cases ha

/-- The patient sets the flag and signals when main has found it 0 and is about to block. -/
theorem patient_signals_early : ∃ s, Reach step (.init [⟨'P', 0, 10⟩]) s ∧ s.LostWakeup := by
  obtain ⟨s, hr, hs⟩ := Trans.exists_reach_of_run step (.init [⟨'P', 0, 10⟩])
    (List.replicate 6 (.main 0) ++ List.replicate 5 (.visitor 0) ++ [.main 0] ++ List.replicate 3 .doctor)
    (fun s => s.main.blockedOnAsst && s.asstDone && decide (s.doctor = .blocked) &&
      s.threads.all fun t => decide (t.pc = .blocked)) (by decide +kernel)
  simp only [Bool.and_eq_true, decide_eq_true_eq, List.all_eq_true] at hs
  obtain ⟨⟨⟨hmain, hflag⟩, hdoctor⟩, hthreads⟩ := hs
  exact ⟨s, hr, lostWakeup_of_blocked hmain hflag hdoctor hthreads⟩

end Clinic

end OsLab.A6
