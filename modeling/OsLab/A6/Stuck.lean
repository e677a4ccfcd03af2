import OsLab.A6.Handover
import OsLab.A6.Closing
import OsLab.A6.Wakeup

/-!
# Where the session can get stuck (A6/session.c)

The mutexes of the doctor and of the assistant are given back (`guards`, `asst`), a doctor that sleeps on a set `doc_done`
is about to be signalled (`blocked`), for main sets it with the mutex, and a doctor that is to leave finds
`doc_session_done` set (`leaves`). So all threads can be stuck before main has returned in one way only: main sleeps in
its wait for `asst_done`, and the wake-up has been lost (`stuck_only_for_asst`). Where every signal is heard some thread
can go on until main has returned (`heard_never_stuck`).
-/

namespace OsLab.A6

open Function (update)
open Trans (Reach ReachIf)

/-- main has `asst_mutex`. -/
def MainPc.hasAsst : MainPc → Bool
  | .asst .test _ | .asst .wait _ | .asst .clear _ | .asst .unlock _ => true
  | _ => false

/-- main has the mutex of the doctor. -/
def MainPc.hasDoctor : MainPc → Bool
  | .wake .lock _ => false
  | .wake _ _ => true
  | _ => false

def DoctorPc.holds : DoctorPc → Bool
  | .test | .wait | .take | .unlock => true
  | _ => false

/-- About to tell the doctor to leave, for a reason that the doctor will see. -/
def MainPc.dismisses : MainPc → Bool
  | .wake .lock (.leave l) | .wake .set (.leave l) => l ≠ .final
  | _ => false

/-- In no handshake with the doctor, and not about to dismiss it. -/
def MainPc.calm : MainPc → Bool
  | .wake .lock (.serve _) | .wake .lock (.leave .final) => true
  | .wake .. | .asst .. | .join _ => false
  | _ => true

theorem MainPc.calm_spec {m : MainPc} (h : m.calm = true) :
    m.hasDoctor = false ∧ m.dismisses = false ∧ m.leaves = false ∧ m.greets = false ∧
      ∀ (turn : Option Kind) (inside : Prop) [Decidable inside], m.phase turn inside ≠ .roused := by
  cases m with
  | wake p o =>
    cases o with
    | serve v => cases p <;> first | exact ⟨rfl, rfl, rfl, rfl, fun _ _ _ => by simp [phase]⟩ | cases h
    | leave l => cases p <;> cases l <;> first | exact ⟨rfl, rfl, rfl, rfl, fun _ _ _ => by simp [phase]⟩ | cases h
  | asst | join => cases h
  | turn v | barrier v =>
    refine ⟨rfl, rfl, rfl, rfl, fun _ _ _ => ?_⟩
    simp only [phase]
    split_ifs <;> simp
  | _ => exact ⟨rfl, rfl, rfl, rfl, fun _ _ _ => by simp [phase]⟩

namespace Clinic

/-- Who has the mutex of the doctor. -/
def HasDoctor (m : MainPc) (d : DoctorPc) : Party → Prop
  | .main => m.hasDoctor = true
  | .doctor => d.holds = true
  | .visitor _ => False

structure Attended (s : Clinic) : Prop where
  asst : s.asstMutex ≠ none → s.main.hasAsst = true
  guards : ∀ q, s.doctorMutex = some q ↔ HasDoctor s.main s.doctor q
  wait : s.doctor = .wait → s.docDone = false
  blocked : s.doctor = .blocked → s.docDone = true → ∃ o, s.main = .wake .signal o
  dismisses : s.main.dismisses = true → s.chamber.docSessionDone = true
  leaves : s.main.leaves = true → s.chamber.docSessionDone = true ∧ s.doctor ≠ .store ∧ s.place ≠ .come
  greets : s.main.greets = true → s.asstDone = false → ∃ u ∈ s.threads, u.pc.unheard = true
  come : s.phase = .roused → s.place = .come → s.asstDone = true

variable {s s' : Clinic} {b : PthreadBarrier Party} {i n : Nat} {u : Thread} {p : VisitorPc}

theorem roused_congr {m : MainPc} {turn turn' : Option Kind} {p q : Prop} [Decidable p] [Decidable q]
    (h : m.phase turn p = .roused) : m.phase turn' q = .roused := by
  cases m with
  | wake a o => cases a <;> simp_all [MainPc.phase]
  | asst a o => cases a <;> cases o <;> simp_all [MainPc.phase]
  | turn v | barrier v =>
    simp only [MainPc.phase] at h
    split_ifs at h
  | join l => rfl
  | _ => cases h

theorem wakeAsst_attended (m : MainPc) :
    m.wakeAsst.hasAsst = m.hasAsst ∧ m.wakeAsst.hasDoctor = m.hasDoctor ∧ m.wakeAsst.dismisses = m.dismisses ∧
      m.wakeAsst.leaves = m.leaves ∧ m.wakeAsst.greets = m.greets ∧
      ∀ o, m.wakeAsst = .wake .signal o ↔ m = .wake .signal o := by
  cases m with
  | asst p a => cases p <;> cases a <;> exact ⟨rfl, rfl, rfl, rfl, rfl, fun _ => by simp [MainPc.wakeAsst]⟩
  | _ => exact ⟨rfl, rfl, rfl, rfl, rfl, fun _ => Iff.rfl⟩

namespace Attended

/-- The doctor or a visitor goes on. -/
theorem ofOther (A : s.Attended) (hm : s'.main = s.main ∨ s'.main = s.main.wakeAsst) (hmutex : s'.asstMutex = s.asstMutex)
    (hover : s'.chamber.docSessionDone = s.chamber.docSessionDone)
    (hguards : ∀ q, s'.doctorMutex = some q ↔ HasDoctor s.main s'.doctor q)
    (hwait : s'.doctor = .wait → s'.docDone = false)
    (hblocked : s'.doctor = .blocked → s'.docDone = true → ∃ o, s.main = .wake .signal o)
    (hleaves : s.main.leaves = true → s'.doctor ≠ .store ∧ s'.place ≠ .come)
    (hgreets : s.main.greets = true → s'.asstDone = false → ∃ u ∈ s'.threads, u.pc.unheard = true)
    (hcome : s.phase = .roused → s'.place = .come → s'.asstDone = true) : s'.Attended := by
  obtain ⟨h1, h2, h3, h4, h5, h6⟩ := wakeAsst_attended s.main
  have hphase : s'.phase = .roused → s.phase = .roused := by
    intro h
    rcases hm with hm | hm <;> rw [Clinic.phase, hm] at h
    · exact roused_congr h
    · rw [(wakeAsst_spec s.main).2.2.2.2.2.1] at h
      exact roused_congr h
  have hcome' := fun h => hcome (hphase h)
  rcases hm with hm | hm
  · refine ⟨?_, ?_, hwait, ?_, ?_, ?_, ?_, hcome'⟩ <;> rw [hm]
    · rw [hmutex]
      exact A.asst
    · exact hguards
    · exact hblocked
    · rw [hover]
      exact A.dismisses
    · rw [hover]
      exact fun h => ⟨(A.leaves h).1, hleaves h⟩
    · exact hgreets
  · refine ⟨?_, fun q => ?_, hwait, ?_, ?_, ?_, ?_, hcome'⟩ <;> rw [hm]
    · rw [hmutex, h1]
      exact A.asst
    · rw [hguards]
      cases q with
      | main => simp only [HasDoctor, h2]
      | doctor | visitor => rfl
    · simp only [h6]
      exact hblocked
    · rw [hover, h3]
      exact A.dismisses
    · rw [hover, h4]
      exact fun h => ⟨(A.leaves h).1, hleaves h⟩
    · rw [h5]
      exact hgreets

/-! ### The doctor -/

theorem stepDoctor (A : s.Attended) (P : s.Protocol) (h : s.stepDoctor = some s') : s'.Attended := by
  have G := A.guards
  have hgreets := A.greets
  -- a step that neither takes the mutex nor gives it back
  have hkeep : ∀ {d : DoctorPc}, d.holds = s.doctor.holds → ∀ q, s.doctorMutex = some q ↔ HasDoctor s.main d q := by
    intro d hd q
    rw [G]
    cases q <;> simp only [HasDoctor, hd]
  have htake : ∀ {d : DoctorPc}, s.doctorMutex = none → d.holds = true →
      ∀ q, some Party.doctor = some q ↔ HasDoctor s.main d q := by
    intro d hfree hd q
    have hnot := G q
    rw [hfree] at hnot
    cases q <;> simp_all [HasDoctor]
  have hgive : ∀ {d : DoctorPc}, s.doctor.holds = true → d.holds = false →
      ∀ q, (none : Option Party) = some q ↔ HasDoctor s.main d q := by
    intro d hheld hd q
    have howner : s.doctorMutex = some .doctor := (G .doctor).2 hheld
    have hmain : s.main.hasDoctor ≠ true := fun h => by
      have hboth := (G .main).2 h
      rw [howner] at hboth
      cases hboth
    cases q <;> simp [HasDoctor, hd, hmain]
  cases hpc : s.doctor <;> simp only [Clinic.stepDoctor, hpc] at h
  case unborn | blocked | left => cases h
  case lock | relock =>
    obtain ⟨m, hm, rfl⟩ := Option.map_eq_some_iff.1 h
    obtain ⟨hfree, rfl⟩ : s.doctorMutex = none ∧ some .doctor = m := by simpa [acquire] using hm
    exact A.ofOther (.inl rfl) rfl rfl (htake hfree rfl) (by simp) (by simp) (by simp [place, DoctorPc.place])
      hgreets (by simp [place, DoctorPc.place])
  case test =>
    cases h
    refine A.ofOther (.inl rfl) rfl rfl (hkeep ?_) ?_ ?_ (fun _ => ?_) hgreets ?_
    · rw [hpc]
      split_ifs <;> rfl
    · dsimp only
      split_ifs with hdone
      · exact fun _ => hdone
      · simp
    · dsimp only
      split_ifs <;> simp
    · dsimp only [place]
      split_ifs <;> simp [DoctorPc.place]
    · dsimp only [place]
      split_ifs <;> simp [DoctorPc.place]
  case wait =>
    cases h
    have hdone := A.wait hpc
    exact A.ofOther (.inl rfl) rfl rfl (hgive (by rw [hpc]; rfl) rfl) (by simp) (by simp [hdone])
      (by simp [place, DoctorPc.place]) hgreets (by simp [place, DoctorPc.place])
  case take =>
    cases h
    exact A.ofOther (.inl rfl) rfl rfl (hkeep (by rw [hpc]; rfl)) (by simp) (by simp) (by simp [place, DoctorPc.place])
      hgreets (by simp [place, DoctorPc.place])
  case unlock =>
    cases h
    exact A.ofOther (.inl rfl) rfl rfl (hgive (by rw [hpc]; rfl) rfl) (by simp) (by simp) (by simp [place, DoctorPc.place])
      hgreets (by simp [place, DoctorPc.place])
  case check =>
    by_cases hover : s.chamber.docSessionDone = true
    · rw [if_pos hover] at h
      cases h
      exact A.ofOther (.inl rfl) rfl rfl (hkeep (by rw [hpc]; rfl)) (by simp) (by simp) (by simp [place, DoctorPc.place])
        hgreets (by simp [place, DoctorPc.place])
    · rw [if_neg hover] at h
      cases h
      exact A.ofOther (.inl rfl) rfl rfl (hkeep (by rw [hpc]; rfl)) (by simp) (by simp)
        (fun hl => absurd (A.leaves hl).1 hover) hgreets (by simp [place, DoctorPc.place])
  case store =>
    cases h
    exact A.ofOther (.inl rfl) rfl rfl (hkeep (by rw [hpc]; rfl)) (by simp) (by simp)
      (fun hl => absurd hpc (A.leaves hl).2.1) (by simp) (by simp)
  case signal =>
    cases h
    have hplace : s.place = .come := by rw [place, hpc]; rfl
    exact A.ofOther (.inr (signalAsst_main s)) rfl rfl (hkeep (by rw [hpc]; rfl)) (by simp) (by simp)
      (fun hl => absurd hplace (A.leaves hl).2.2) hgreets fun hr _ => A.come hr hplace
  case enter =>
    obtain ⟨b, hb, rfl⟩ := Option.map_eq_some_iff.1 h
    have hplace : s.place = .come := by rw [place, hpc]; rfl
    exact A.ofOther (.inl rfl) rfl rfl (hkeep (by rw [hpc]; rfl)) (by simp) (by simp)
      (fun hl => absurd hplace (A.leaves hl).2.2) hgreets fun hr _ => A.come hr hplace
  case barrier =>
    obtain ⟨⟨s₁, done⟩, hb, rfl⟩ := Option.map_eq_some_iff.1 h
    obtain ⟨b, hstep, he⟩ := Option.map_eq_some_iff.1 hb
    cases he
    have hback : DoctorPc.place (if decide (b.pc .doctor = none) = true then .lock else .barrier) (b.inside .doctor) =
        .come → s.place = .come := by
      intro hplace
      rw [place, hpc]
      by_cases hin : b.inside .doctor
      · exact if_pos (inside_of_inside P (.inl hstep) hin)
      · split_ifs at hplace <;> simp [DoctorPc.place, hin] at hplace
    refine A.ofOther (.inl rfl) rfl rfl (hkeep ?_) ?_ ?_ (fun hl => ⟨?_, fun hc => (A.leaves hl).2.2 (hback hc)⟩) hgreets
      fun hr hc => A.come hr (hback hc)
    · rw [hpc]
      split_ifs <;> rfl
    · dsimp only
      split_ifs <;> simp
    · dsimp only
      split_ifs <;> simp
    · dsimp only
      split_ifs <;> simp

/-! ### A visitor -/

theorem ofVisitor (A : s.Attended) (hu : s.threads[i]? = some u) (hm : s'.main = s.main ∨ s'.main = s.main.wakeAsst)
    (hsame : s'.doctor = s.doctor ∧ s'.docDone = s.docDone ∧ s'.doctorMutex = s.doctorMutex ∧
      s'.asstMutex = s.asstMutex ∧ s'.chamber.docSessionDone = s.chamber.docSessionDone)
    (hback : s'.barrier.inside .doctor → s.barrier.inside .doctor)
    (hts : s'.threads = s.threads.set i { u with pc := p })
    (hdone : s.asstDone = true → s'.asstDone = true)
    (hheard : u.pc.unheard = true → s'.asstDone = false → p.unheard = true) : s'.Attended := by
  obtain ⟨hd, hdoc, hmutex, hasst, hover⟩ := hsame
  have hplace : s'.place = .come → s.place = .come := by
    rw [place, place, hd]
    intro hc
    cases hpc : s.doctor <;> rw [hpc] at hc
    case barrier =>
      simp only [DoctorPc.place] at hc
      split_ifs at hc with hin
      exact if_pos (hback hin)
    all_goals exact hc
  refine A.ofOther hm hasst hover (by rw [hmutex, hd]; exact A.guards) (by rw [hd, hdoc]; exact A.wait)
    (by rw [hd, hdoc]; exact A.blocked) (fun hl => ⟨?_, fun hc => (A.leaves hl).2.2 (hplace hc)⟩) (fun hg ha => ?_)
    fun hr hc => hdone (A.come hr (hplace hc))
  · rw [hd]
    exact (A.leaves hl).2.1
  · rw [hts]
    have hnot : s.asstDone = false := Bool.eq_false_iff.2 fun h => by simp [hdone h] at ha
    exact exists_mem_goto hu (A.greets hg hnot) fun h => hheard h ha

theorem stepVisitor (A : s.Attended) (P : s.Protocol) (h : s.stepVisitor i = some s') : s'.Attended := by
  obtain ⟨u, hu, h⟩ := Option.bind_eq_some_iff.1 h
  cases hpc : u.pc <;> simp only [execVisitor, hpc] at h
  case blocked | left => cases h
  case lock | relock =>
    obtain ⟨m, -, rfl⟩ := Option.map_eq_some_iff.1 h
    exact A.ofVisitor hu (.inl rfl) ⟨rfl, rfl, rfl, rfl, rfl⟩ id rfl id (by simp [hpc, VisitorPc.unheard])
  case store =>
    cases h
    exact A.ofVisitor hu (.inl rfl) ⟨rfl, rfl, rfl, rfl, rfl⟩ id rfl (fun _ => rfl) (fun _ h => by cases h)
  case signal =>
    cases h
    exact A.ofVisitor hu (.inr (signalAsst_main s)) ⟨rfl, rfl, rfl, rfl, rfl⟩ id rfl id (by simp [hpc, VisitorPc.unheard])
  case enter =>
    obtain ⟨b, hb, rfl⟩ := Option.map_eq_some_iff.1 h
    exact A.ofVisitor hu (.inl rfl) ⟨rfl, rfl, rfl, rfl, rfl⟩ (inside_of_inside P (.inr ⟨by simp, hb⟩)) rfl id
      (by simp [hpc, VisitorPc.unheard])
  case barrier =>
    obtain ⟨⟨s₁, done⟩, hb, rfl⟩ := Option.map_eq_some_iff.1 h
    obtain ⟨b, hstep, he⟩ := Option.map_eq_some_iff.1 hb
    cases he
    exact A.ofVisitor hu (.inl rfl) ⟨rfl, rfl, rfl, rfl, rfl⟩ (inside_of_inside P (.inl hstep)) rfl id
      (by simp [hpc, VisitorPc.unheard])
  all_goals
    cases h
    exact A.ofVisitor hu (.inl rfl) ⟨rfl, rfl, rfl, rfl, rfl⟩ id rfl id (by simp [hpc, VisitorPc.unheard])

/-! ### main -/

theorem asst_free (A : s.Attended) (h : s.main.hasAsst = false) : s.asstMutex = none := by
  by_contra hheld
  exact absurd (h.symm.trans (A.asst hheld)) (by simp)

/-- While main has the mutex of the doctor the doctor has not. -/
theorem doctor_out (A : s.Attended) (h : s.main.hasDoctor = true) : s.doctor.holds ≠ true := by
  intro hd
  have hmain := (A.guards .main).2 h
  rw [(A.guards .doctor).2 hd] at hmain
  cases hmain

/-- Only main's signal finds the doctor asleep on a set flag. -/
theorem not_called (A : s.Attended) (h : ∀ o, s.main ≠ .wake .signal o) (hb : s.doctor = .blocked) :
    s.docDone ≠ true := fun hdone => (A.blocked hb hdone).elim h

/-- main goes on with neither mutex. -/
theorem ofMain (A : s.Attended) (hasst : s.main.hasAsst = false) (hwake : s.main.hasDoctor = false)
    (hsame : s'.doctor = s.doctor ∧ s'.docDone = s.docDone ∧ s'.doctorMutex = s.doctorMutex ∧
      s'.asstMutex = s.asstMutex)
    (hdoctor : s'.main.hasDoctor = false)
    (hdismisses : s'.main.dismisses = true → s'.chamber.docSessionDone = true) (hleaves : s'.main.leaves = false)
    (hgreets : s'.main.greets = false) (hphase : s'.phase ≠ .roused) : s'.Attended := by
  obtain ⟨hd, hdoc, hmutex, hmutex'⟩ := hsame
  have hfree := A.asst_free hasst
  refine ⟨fun h => absurd (hmutex'.trans hfree) h, fun q => ?_, ?_, fun hb hdone => ?_, hdismisses,
    fun h => (by rw [hleaves] at h; cases h), fun h => (by rw [hgreets] at h; cases h), fun h => absurd h hphase⟩
  · rw [hmutex, hd, A.guards]
    cases q <;> simp [HasDoctor, hdoctor, hwake]
  · rw [hd, hdoc]
    exact A.wait
  · rw [hd] at hb
    rw [hdoc] at hdone
    obtain ⟨o, ho⟩ := A.blocked hb hdone
    rw [ho] at hwake
    cases hwake

theorem ofCalm {m : MainPc} (A : s.Attended) (hm : s.main = m) (hasst : m.hasAsst = false) (hwake : m.hasDoctor = false)
    (hsame : s'.doctor = s.doctor ∧ s'.docDone = s.docDone ∧ s'.doctorMutex = s.doctorMutex ∧
      s'.asstMutex = s.asstMutex)
    (hcalm : s'.main.calm = true) : s'.Attended := by
  obtain ⟨hdoctor, hdismisses, hleaves, hgreets, hphase⟩ := MainPc.calm_spec hcalm
  exact A.ofMain (hm ▸ hasst) (hm ▸ hwake) hsame hdoctor (fun h => absurd (hdismisses.symm.trans h) (by simp)) hleaves
    hgreets (hphase _ _)

theorem stepWake {a : WakePc} {o : Wake} (A : s.Attended) (P : s.Protocol) (hm : s.main = .wake a o)
    (h : s.wakeDoctor a o = some s') : s'.Attended := by
  have G := A.guards
  have hfree := A.asst_free (by rw [hm]; rfl)
  have hpaired := P.rousing.paired
  cases a with
  | lock =>
    obtain ⟨m, ha, rfl⟩ := Option.map_eq_some_iff.1 h
    obtain ⟨hnone, rfl⟩ : s.doctorMutex = none ∧ some .main = m := by simpa [acquire] using ha
    refine ⟨fun h => absurd hfree h, fun q => ?_, A.wait, fun hb hdone => ?_, fun hd => A.dismisses ?_,
      fun h => (by cases h), fun h => (by cases h), fun h => (by cases h)⟩
    · have hnot := G q
      rw [hnone] at hnot
      cases q <;> simp_all [HasDoctor, MainPc.hasDoctor]
    · exact absurd hdone (A.not_called (by simp [hm]) hb)
    · rw [hm]
      cases o with
      | leave l => exact hd
      | serve v => cases hd
  | set =>
    cases h
    have hout := A.doctor_out (by rw [hm]; rfl)
    have hcome : s.place ≠ .come ∧ s.doctor ≠ .store := by
      have hphase : s.phase = .apart := by rw [phase, hm]; rfl
      rw [hphase] at hpaired
      refine ⟨fun hc => ?_, fun hd => ?_⟩
      · rw [hc] at hpaired
        cases hpaired
      · rw [place, hd] at hpaired
        cases hpaired
    refine ⟨fun h => absurd hfree h, fun q => ?_, fun hw => absurd (by rw [hw]; rfl) hout, fun _ _ => ⟨o, rfl⟩,
      fun h => (by cases o <;> cases h), fun hl => ⟨?_, hcome.2, hcome.1⟩, fun h => (by cases h),
      fun _ hc => absurd hc hcome.1⟩
    · rw [G, hm]
      cases q <;> simp [HasDoctor, MainPc.hasDoctor]
    · dsimp only
      split_ifs with hfinal
      · rfl
      · cases o with
        | leave l => exact A.dismisses (by rw [hm]; simpa [MainPc.dismisses] using hfinal)
        | serve v => cases hl
  | signal =>
    cases h
    have hplace : DoctorPc.place (if s.doctor = .blocked then .relock else s.doctor) (s.barrier.inside .doctor) =
        s.place := by
      rw [place]
      split_ifs with hb
      · rw [hb]
        rfl
      · rfl
    refine ⟨fun h => absurd hfree h, fun q => ?_, ?_, ?_, fun h => (by cases o <;> cases h), fun hl => ?_,
      fun h => (by cases h), fun hr hc => A.come (by rw [phase, hm]; rfl) (hplace.symm.trans hc)⟩
    · rw [G, hm]
      by_cases hb : s.doctor = .blocked
      · rw [if_pos hb, hb]
        cases q <;> simp [HasDoctor, MainPc.hasDoctor, DoctorPc.holds]
      · rw [if_neg hb]
        cases q <;> simp [HasDoctor, MainPc.hasDoctor]
    · dsimp only
      split_ifs
      · simp
      · exact A.wait
    · dsimp only
      split_ifs with hb
      · simp
      · exact fun h => absurd h hb
    · cases o with
      | leave l =>
        obtain ⟨hover, hstore, hcome⟩ := A.leaves (by rw [hm]; rfl)
        refine ⟨hover, ?_, fun hc => hcome (hplace.symm.trans hc)⟩
        dsimp only
        split_ifs
        · simp
        · exact hstore
      | serve v => cases hl
  | unlock =>
    cases h
    have hout := A.doctor_out (by rw [hm]; rfl)
    refine ⟨fun h => absurd hfree h, fun q => ?_, A.wait, fun hb hdone => ?_, fun h => (by cases o <;> cases h),
      fun hl => ?_, fun h => (by cases o <;> cases h), fun _ => A.come (by rw [phase, hm]; rfl)⟩
    · cases q <;> cases o <;> simp [HasDoctor, MainPc.hasDoctor, hout]
    · exact absurd hdone (A.not_called (by simp [hm]) hb)
    · cases o with
      | leave l => exact A.leaves (by rw [hm]; rfl)
      | serve v => cases hl

theorem stepAsst {a : AsstPc} {o : Awaited} (A : s.Attended) (hm : s.main = .asst a o) (h : s.waitAsst a o = some s') :
    s'.Attended := by
  have hwake : s.main.hasDoctor = false := by rw [hm]; rfl
  have hguards : ∀ {m : MainPc}, m.hasDoctor = false → ∀ q, s.doctorMutex = some q ↔ HasDoctor m s.doctor q := by
    intro m h q
    rw [A.guards]
    cases q <;> simp [HasDoctor, hwake, h]
  have hblocked := A.not_called (by simp [hm])
  -- main stays in its wait
  have hstay : ∀ {m : Option Party} {p : AsstPc}, p ≠ .unlock → a ≠ .unlock →
      (m ≠ none → (MainPc.asst p o).hasAsst = true) → Attended { s with asstMutex := m, main := .asst p o } := by
    intro m p hp ha hasst
    have hphase : phase { s with asstMutex := m, main := .asst p o } = s.phase := by
      rw [phase, phase, hm]
      cases p <;> cases a <;> cases o <;> first | rfl | exact absurd rfl hp | exact absurd rfl ha
    have hgreets : (MainPc.asst p o).greets = s.main.greets := by
      rw [hm]
      cases p <;> cases a <;> cases o <;> first | rfl | exact absurd rfl hp | exact absurd rfl ha
    refine ⟨hasst, hguards rfl, A.wait, fun hb hdone => absurd hdone (hblocked hb), fun h => (by cases h),
      fun h => (by cases h), fun h => A.greets (hgreets.symm.trans h), fun h => A.come (hphase.symm.trans h)⟩
  have hhas : s.asstMutex ≠ none → (MainPc.asst a o).hasAsst = true := fun h => hm ▸ A.asst h
  cases a with
  | lock | relock =>
    obtain ⟨m, -, rfl⟩ := Option.map_eq_some_iff.1 h
    exact hstay (by simp) (by simp) fun _ => rfl
  | test =>
    cases h
    by_cases hdone : s.asstDone = false
    · rw [if_pos hdone]
      exact hstay (by simp) (by simp) fun _ => rfl
    · rw [if_neg hdone]
      exact hstay (by simp) (by simp) fun _ => rfl
  | wait =>
    cases h
    exact hstay (by simp) (by simp) fun h => absurd rfl h
  | blocked => cases h
  | clear =>
    cases h
    exact ⟨fun _ => rfl, hguards rfl, A.wait, fun hb hdone => absurd hdone (hblocked hb), fun h => (by cases h),
      fun h => (by cases h), fun h => (by cases h), fun h => (by cases o <;> cases h)⟩
  | unlock =>
    cases h
    refine ⟨fun h => absurd rfl h, hguards (by cases o <;> rfl), A.wait, fun hb hdone => absurd hdone (hblocked hb),
      fun h => (by cases o <;> cases h), fun h => (by cases o <;> cases h), fun h => (by cases o <;> cases h), fun h => ?_⟩
    cases o with
    | visitor k => cases h
    | doctor v =>
      simp only [phase, MainPc.phase] at h
      split_ifs at h

theorem stepMain (A : s.Attended) (P : s.Protocol) (h : s.stepMain n = some s') : s'.Attended := by
  cases hm : s.main <;> simp only [Clinic.stepMain, hm] at h
  case returned => cases h
  case wake p o => exact A.stepWake P hm h
  case asst p o => exact A.stepAsst hm h
  case createDoctor =>
    cases h
    have hphase : s.phase = .alone := by rw [phase, hm]; rfl
    have hpaired := P.rousing.paired
    rw [hphase] at hpaired
    have hplace : s.place = .unborn := by
      cases hp : s.place <;> cases hdone : s.docDone <;> rw [hp, hdone] at hpaired <;> first | rfl | cases hpaired
    have hd : s.doctor = .unborn := by
      cases hd : s.doctor <;> rw [place, hd] at hplace
      case barrier =>
        simp only [DoctorPc.place] at hplace
        split_ifs at hplace
      all_goals cases hplace
    refine ⟨fun h => ?_, fun q => ?_, (by simp), (by simp), (fun h => by cases h), (fun h => by cases h),
      (fun h => by cases h), (fun h => by cases h)⟩
    · exact absurd (A.asst_free (by rw [hm]; rfl)) h
    · rw [A.guards, hm, hd]
      cases q <;> simp [HasDoctor, MainPc.hasDoctor, DoctorPc.holds]
  case createThread k =>
    cases h
    refine ⟨fun h => ?_, fun q => ?_, A.wait, fun hb hdone => ?_, (fun h => by cases h), (fun h => by cases h),
      fun _ _ => ⟨_, List.mem_append_right _ (List.mem_singleton_self _), rfl⟩, (fun h => by cases h)⟩
    · exact absurd (A.asst_free (by rw [hm]; rfl)) h
    · rw [A.guards, hm]
      cases q <;> simp [HasDoctor, MainPc.hasDoctor]
    · exact absurd hdone (A.not_called (by simp [hm]) hb)
  case join l =>
    split_ifs at h
    cases h
    cases l <;> exact A.ofCalm hm rfl rfl ⟨rfl, rfl, rfl, rfl⟩ rfl
  case loop =>
    cases h
    simp only [Clinic.loop]
    split_ifs with hempty hleaves
    · exact A.ofCalm hm rfl rfl ⟨rfl, rfl, rfl, rfl⟩ rfl
    · exact A.ofMain (by rw [hm]; rfl) (by rw [hm]; rfl) ⟨rfl, rfl, rfl, rfl⟩ rfl (fun _ => hleaves.1) rfl rfl
        (by simp [phase, MainPc.phase])
    · exact A.ofCalm hm rfl rfl ⟨rfl, rfl, rfl, rfl⟩ rfl
  case others =>
    cases h
    simp only [Clinic.others]
    split_ifs with hserve hleaves
    · exact A.ofCalm hm rfl rfl ⟨rfl, rfl, rfl, rfl⟩ rfl
    · exact A.ofMain (by rw [hm]; rfl) (by rw [hm]; rfl) ⟨rfl, rfl, rfl, rfl⟩ rfl (fun _ => hleaves.1) rfl rfl
        (by simp [phase, MainPc.phase])
    · exact A.ofCalm hm rfl rfl ⟨rfl, rfl, rfl, rfl⟩ rfl
  case dispatch =>
    cases h
    simp only [Clinic.dispatch]
    split_ifs
    · exact A.ofCalm hm rfl rfl ⟨rfl, rfl, rfl, rfl⟩ rfl
    · exact A.ofCalm hm rfl rfl ⟨rfl, rfl, rfl, rfl⟩ rfl
    · split
      · split <;> exact A.ofCalm hm rfl rfl ⟨rfl, rfl, rfl, rfl⟩ rfl
      · exact A.ofCalm hm rfl rfl ⟨rfl, rfl, rfl, rfl⟩ rfl
  case receive =>
    cases h
    simp only [Clinic.receive]
    split_ifs with hfree hlt hturn
    · exact A.ofCalm hm rfl rfl ⟨rfl, rfl, rfl, rfl⟩ rfl
    · exact A.ofCalm hm rfl rfl ⟨rfl, rfl, rfl, rfl⟩ rfl
    · exact A.ofCalm hm rfl rfl ⟨rfl, rfl, rfl, rfl⟩ rfl
    · exact A.ofCalm hm rfl rfl ⟨rfl, rfl, rfl, rfl⟩ rfl
  case pending =>
    cases h
    split_ifs <;> exact A.ofCalm hm rfl rfl ⟨rfl, rfl, rfl, rfl⟩ rfl
  case addevent v =>
    cases h
    cases v <;> exact A.ofCalm hm rfl rfl ⟨rfl, rfl, rfl, rfl⟩ rfl
  case turn v =>
    cases h
    split
    · exact A.ofCalm hm rfl rfl ⟨rfl, rfl, rfl, rfl⟩ rfl
    · cases v <;> exact A.ofCalm hm rfl rfl ⟨rfl, rfl, rfl, rfl⟩ rfl
  case call p k v =>
    cases p with
    | lock =>
      obtain ⟨m, -, rfl⟩ := Option.map_eq_some_iff.1 h
      exact A.ofCalm hm rfl rfl ⟨rfl, rfl, rfl, rfl⟩ rfl
    | signal =>
      simp only [callVisitor] at h
      split at h <;> split_ifs at h <;> cases h <;>
        exact A.ofCalm hm rfl rfl ⟨rfl, rfl, rfl, rfl⟩ rfl
    | set | count | unlock =>
      cases h
      exact A.ofCalm hm rfl rfl ⟨rfl, rfl, rfl, rfl⟩ rfl
  case enter v =>
    obtain ⟨b, hb, rfl⟩ := Option.map_eq_some_iff.1 h
    exact A.ofCalm hm rfl rfl ⟨rfl, rfl, rfl, rfl⟩ rfl
  case barrier v =>
    obtain ⟨⟨s₁, done⟩, hb, rfl⟩ := Option.map_eq_some_iff.1 h
    obtain ⟨b, hstep, he⟩ := Option.map_eq_some_iff.1 hb
    cases he
    by_cases hnone : b.pc .main = none
    · simp only [hnone, decide_true, if_true]
      exact A.ofCalm hm rfl rfl ⟨rfl, rfl, rfl, rfl⟩ rfl
    · simp only [hnone, decide_false, Bool.false_eq_true, if_false]
      exact A.ofCalm hm rfl rfl ⟨rfl, rfl, rfl, rfl⟩ rfl
  case admitted k | finish | resume =>
    cases h
    exact A.ofCalm hm rfl rfl ⟨rfl, rfl, rfl, rfl⟩ rfl

theorem step {a : SessionStep} (A : s.Attended) (P : s.Protocol) (h : s.step a = some s') : s'.Attended := by
  cases a with
  | main n => exact A.stepMain P h
  | doctor => exact A.stepDoctor P h
  | visitor i => exact A.stepVisitor P h

theorem init (arrivals : List Event) : (Clinic.init arrivals).Attended where
  asst h := absurd rfl h
  guards q := by cases q <;> simp [Clinic.init, HasDoctor, MainPc.hasDoctor, DoctorPc.holds]
  wait h := by cases h
  blocked h := by cases h
  dismisses h := by cases h
  leaves h := by cases h
  greets h := by cases h
  come h := by cases h

end Attended

theorem attended_of_reach {arrivals : List Event} (h : Reach step (.init arrivals) s) : s.Attended :=
  h.inv (Attended.init arrivals) fun _ _ _ hr A _ hs => A.step (protocol_of_reach hr) hs

/-! ## Who goes on -/

theorem doctorMutex_free (A : s.Attended) (hmain : s.main.hasDoctor = false) (hd : s.doctor.holds = false) :
    s.doctorMutex = none := by
  cases hmutex : s.doctorMutex with
  | none => rfl
  | some q =>
    have hq := (A.guards q).1 hmutex
    cases q with
    | main => exact absurd hq (by simp [HasDoctor, hmain])
    | doctor => exact absurd hq (by simp [HasDoctor, hd])
    | visitor j => exact hq.elim

/-- A doctor that is neither blocked nor in the barrier goes on, and so does the one that comes out of it. -/
theorem goesOn_of_doctor (P : s.Protocol) (A : s.Attended) (hmain : s.main.hasDoctor = false)
    (hout : ¬ s.barrier.inside .doctor) (hborn : s.doctor ≠ .unborn) (hblocked : s.doctor ≠ .blocked)
    (hleft : s.doctor ≠ .left) : s.GoesOn := by
  cases hpc : s.doctor
  case unborn => exact absurd hpc hborn
  case blocked => exact absurd hpc hblocked
  case left => exact absurd hpc hleft
  case lock | relock =>
    have hnone := doctorMutex_free A hmain (by rw [hpc]; rfl)
    exact ⟨.doctor, _, by simp only [Clinic.step, Clinic.stepDoctor, hpc, acquire, hnone, if_true]; rfl⟩
  case check =>
    refine ⟨.doctor, ?_⟩
    simp only [Clinic.step, Clinic.stepDoctor, hpc]
    split_ifs <;> exact ⟨_, rfl⟩
  case enter =>
    have hnone : s.barrier.pc .doctor = none := by
      by_contra hin
      have hin' := P.meeting.doctor.1 hin
      rw [hpc] at hin'
      cases hin'
    obtain ⟨b, hb⟩ := enters hnone
    exact ⟨.doctor, _, by simp only [Clinic.step, Clinic.stepDoctor, hpc, hb, Option.map_some]; rfl⟩
  case barrier =>
    obtain ⟨I, G⟩ := P.meeting.gathers
    have hleaving : leaving (s.barrier.pc .doctor) = true := by
      by_contra h
      exact hout ⟨P.meeting.doctor.2 hpc, by simpa using h⟩
    obtain ⟨q, b, hb⟩ := G.exists_step_of_leaving hleaving
    exact goesOn_of_barrier P hb
  all_goals exact ⟨.doctor, _, by simp only [Clinic.step, Clinic.stepDoctor, hpc]; rfl⟩

/-- A doctor that has been called and has not told main yet goes on. -/
theorem goesOn_of_roused (P : s.Protocol) (A : s.Attended) (hmain : s.main.hasDoctor = false) (hroused : s.phase = .roused)
    (hcome : s.place ≠ .come) (hleft : s.doctor ≠ .left) : s.GoesOn := by
  have hpaired := P.rousing.paired
  rw [hroused] at hpaired
  refine goesOn_of_doctor P A hmain (fun hin => hcome ?_) (fun hd => ?_) (fun hd => ?_) hleft
  · rw [place, P.meeting.doctor.1 hin.1]
    exact if_pos hin
  · rw [place, hd] at hpaired
    cases hdone : s.docDone <;> rw [hdone] at hpaired <;> cases hpaired
  · rw [place, hd] at hpaired
    cases hdone : s.docDone
    · rw [hdone] at hpaired
      cases hpaired
    · obtain ⟨o, ho⟩ := A.blocked hd hdone
      rw [ho] at hmain
      cases hmain

/-- The visitor that main waits for goes on until it has set the flag. -/
theorem goesOn_of_greets (P : s.Protocol) (A : s.Attended) (hgreets : s.main.greets = true) (hnot : s.asstDone = false) :
    s.GoesOn := by
  obtain ⟨u, hu, hunheard⟩ := A.greets hgreets hnot
  obtain ⟨j, hj⟩ := List.mem_iff_getElem?.1 hu
  have hholds : s.main.holds ≠ some u.kind := by
    cases hm : s.main <;> rw [hm] at hgreets <;> first | cases hgreets | simp [MainPc.holds]
  refine (free_or_goesOn P u.kind hholds).elim (fun hfree => ⟨.visitor j, ?_⟩) id
  simp only [Clinic.step, Clinic.stepVisitor, hj, Option.bind_some, execVisitor]
  cases hpc : u.pc <;> rw [hpc] at hunheard
  case lock => exact ⟨_, by simp only [acquire, hfree, if_true]; rfl⟩
  case store => exact ⟨_, rfl⟩
  all_goals cases hunheard

/-- main sleeps on a set flag, or some thread goes on. -/
theorem asst_or_goesOn {arrivals : List Event} (h : Reach Clinic.step (.init arrivals) s) (hmain : s.main ≠ .returned)
    (hstuck : ¬ s.GoesOn) : (∃ a, s.main = .asst .blocked a) ∧ s.asstDone = true := by
  have P := protocol_of_reach h
  have A := attended_of_reach h
  by_contra hnot
  refine hstuck ?_
  have htogether : s.phase = .together → s.GoesOn := fun ht => absurd (handover_never_stuck _ s h ht) hstuck
  cases hm : s.main
  case returned => exact absurd hm hmain
  case wake p o =>
    cases p with
    | lock =>
      by_cases hd : s.doctor.holds = true
      · refine ⟨.doctor, ?_⟩
        simp only [Clinic.step, Clinic.stepDoctor]
        cases hpc : s.doctor <;> rw [hpc] at hd <;> first | exact ⟨_, rfl⟩ | cases hd
      · have hfree := doctorMutex_free A (by rw [hm]; rfl) (by simpa using hd)
        exact ⟨.main 0, _, by simp only [Clinic.step, Clinic.stepMain, hm, wakeDoctor, acquire, hfree, if_true]; rfl⟩
    | set | signal | unlock => exact ⟨.main 0, _, by simp only [Clinic.step, Clinic.stepMain, hm, wakeDoctor]; rfl⟩
  case asst p o =>
    cases p with
    | lock | relock =>
      have hfree := A.asst_free (by rw [hm]; rfl)
      exact ⟨.main 0, _, by simp only [Clinic.step, Clinic.stepMain, hm, waitAsst, acquire, hfree, if_true]; rfl⟩
    | blocked =>
      have hflag : s.asstDone = false := Bool.eq_false_iff.2 fun hflag => hnot ⟨⟨o, hm⟩, hflag⟩
      cases o with
      | visitor k => exact goesOn_of_greets P A (by rw [hm]; rfl) hflag
      | doctor v =>
        have hroused : s.phase = .roused := by rw [phase, hm]; rfl
        refine goesOn_of_roused P A (by rw [hm]; rfl) hroused (fun hc => ?_) (not_left P (closing_of_reach h) hm)
        rw [A.come hroused hc] at hflag
        cases hflag
    | test | wait | clear | unlock => exact ⟨.main 0, _, by simp only [Clinic.step, Clinic.stepMain, hm, waitAsst]; rfl⟩
  case join l =>
    by_cases hleft : s.doctor = .left
    · exact ⟨.main 0, _, by simp only [Clinic.step, Clinic.stepMain, hm, hleft, if_true]; rfl⟩
    · exact goesOn_of_roused P A (by rw [hm]; rfl) (by rw [phase, hm]; rfl) (A.leaves (by rw [hm]; rfl)).2.2 hleft
  case call p k v => exact htogether (by rw [phase, hm]; rfl)
  case enter v => exact htogether (by rw [phase, hm]; rfl)
  case barrier v =>
    by_cases hin : s.barrier.inside .main
    · exact htogether (by rw [phase, hm]; exact if_pos hin)
    · obtain ⟨I, G⟩ := P.meeting.gathers
      have hleaving : leaving (s.barrier.pc .main) = true := by
        by_contra h
        exact hin ⟨P.meeting.main.2 (by rw [hm]; rfl), by simpa using h⟩
      obtain ⟨q, b, hb⟩ := G.exists_step_of_leaving hleaving
      exact goesOn_of_barrier P hb
  all_goals exact ⟨.main 0, _, by simp only [Clinic.step, Clinic.stepMain, hm]; rfl⟩

/-- **One way to be stuck.** When no thread can go on and main has not returned, main sleeps in its wait for
`asst_done`, and the wake-up has been lost. -/
theorem stuck_only_for_asst (arrivals : List Event) (s : Clinic) (h : Reach Clinic.step (.init arrivals) s)
    (hmain : s.main ≠ .returned) (hstuck : ¬ s.GoesOn) : s.LostWakeup := by
  obtain ⟨⟨a, hm⟩, hflag⟩ := asst_or_goesOn h hmain hstuck
  have hnone : ∀ a, s.step a = none := fun a => Option.eq_none_iff_forall_not_mem.2 fun s' h => hstuck ⟨a, s', h⟩
  refine ⟨by rw [hm]; rfl, hflag, fun t a hr ha => ?_⟩
  rw [Trans.eq_of_stuck hnone hr, hnone a] at ha
  cases ha

/-- The patient signals before main sleeps, and nobody can go on. -/
theorem stuck_only_for_asst_patient : ∃ s, Reach Clinic.step (.init [⟨'P', 0, 10⟩]) s ∧ s.main ≠ .returned ∧
    ¬ s.GoesOn ∧ s.LostWakeup := by
  obtain ⟨s, hr, hs⟩ := Trans.exists_reach_of_run Clinic.step (.init [⟨'P', 0, 10⟩])
    (List.replicate 6 (.main 0) ++ List.replicate 5 (.visitor 0) ++ [.main 0] ++ List.replicate 3 .doctor)
    (fun s => s.main.blockedOnAsst && decide (s.doctor = .blocked) && s.threads.all fun t => decide (t.pc = .blocked))
    (by decide +kernel)
  simp only [Bool.and_eq_true, decide_eq_true_eq, List.all_eq_true] at hs
  obtain ⟨⟨hblocked, hdoctor⟩, hthreads⟩ := hs
  have hmain : s.main ≠ .returned := fun hm => by
    rw [hm] at hblocked
    cases hblocked
  have hstuck : ¬ s.GoesOn := fun ⟨a, s', ha⟩ => by
    rw [step_blocked hblocked hdoctor hthreads a] at ha
    cases ha
  exact ⟨s, hr, hmain, hstuck, stuck_only_for_asst _ s hr hmain hstuck⟩

/-- **No deadlock** in a run in which every signal that the flag needs is heard: until main has returned some thread can
go on. -/
theorem heard_never_stuck (arrivals : List Event) (s : Clinic) (h : ReachIf step Heard (.init arrivals) s)
    (hmain : s.main ≠ .returned) : s.GoesOn := by
  by_contra hstuck
  obtain ⟨⟨a, hm⟩, hflag⟩ := asst_or_goesOn h.reach hmain hstuck
  have I : s.Handed := h.inv (I := Handed) (fun h => by cases h) fun _ _ _ _ I hheard hs => I.step hheard hs
  obtain ⟨b, hb, -⟩ := exists_signal (I (by rw [hm]; rfl) hflag)
  obtain ⟨s', hs⟩ := Option.isSome_iff_exists.1 hb
  exact hstuck ⟨b, s', hs⟩

/-- The patient at the opening has set the flag and main sleeps: the signal comes. -/
theorem heard_never_stuck_patient : ∃ s, ReachIf step Heard (.init [⟨'P', 0, 10⟩]) s ∧
    s.main = .asst .blocked (.visitor .patient) ∧ s.asstDone = true ∧ s.GoesOn := by
  obtain ⟨s, hr, hs⟩ := Trans.exists_reachIf_of_run step Heard (.init [⟨'P', 0, 10⟩])
    (List.replicate 7 (.main 0) ++ List.replicate 2 (.visitor 0))
    (fun s => s.main == .asst .blocked (.visitor .patient) && s.asstDone) (by decide +kernel)
  rw [Bool.and_eq_true, beq_iff_eq] at hs
  exact ⟨s, hr, hs.1, hs.2, heard_never_stuck _ s hr (by rw [hs.1]; simp)⟩

end Clinic

end OsLab.A6
