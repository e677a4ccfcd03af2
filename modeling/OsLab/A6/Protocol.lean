import OsLab.A6.Meeting

/-!
# How main, the doctor and the visitors meet (A6/session.c)

Between two rounds of the barrier nobody but main does anything that counts (`Phase.apart`): the doctor is on its way
to its wait with `doc_done` 0, or has left, and no visitor has its flag set. main wakes the doctor (`roused`), which
leaves or sets `asst_done`, and once main has seen that the two are `together`: main sets the flag of one class, one
visitor of that class takes it, and main goes on when the barrier has tripped, behind all that the visitor has done.

`Protocol` holds in every reachable state (`protocol_of_reach`), whatever the order of the steps.
-/

namespace OsLab.A6

open Function (update)

namespace Clinic

variable (s : Clinic)

theorem signalAsst_main : s.signalAsst.main = s.main.wakeAsst := rfl

def phase : Phase := s.main.phase s.chamber.turn (s.barrier.inside .main)

def place : Place := s.doctor.place (s.barrier.inside .doctor)

structure Protocol : Prop where
  meeting : Meeting s.barrier s.main s.doctor s.threads
  rousing : Rousing s.phase s.main s.chamber.turn s.doctor s.place s.docDone
  greeting : Greeting s.phase s.main s.place s.asstDone s.threads
  calling : Calling s.main.holds s.main.calls (s.main.meets (s.barrier.inside .main)) (Seen s.barrier s.threads)
    s.threads s.visitorMutex s.visitorDone

variable {s} {s' : Clinic} {i : Nat} {t : Thread} {b : PthreadBarrier Party}

namespace Protocol

theorem unique (P : s.Protocol) (j : Nat) (hj : Seen s.barrier s.threads j) (i : Nat) (hi : Seen s.barrier s.threads i) :
    i = j := (P.calling.seen j hj).1 i hi

/-- Nothing that others see happens in the barrier. -/
theorem passOn (P : s.Protocol) (hg : ∃ I, b.Gathers 3 I) (hin : ∀ q, b.inside q ↔ s.barrier.inside q)
    (hpc : ∀ q, b.pc q = none ↔ s.barrier.pc q = none) : Protocol { s with barrier := b } := by
  have hphase : phase { s with barrier := b } = s.phase := MainPc.phase_congr (hin _)
  have hplace : place { s with barrier := b } = s.place := DoctorPc.place_congr (hin _)
  have hmeets : s.main.meets (b.inside .main) = s.main.meets (s.barrier.inside .main) := MainPc.meets_congr (hin _)
  refine ⟨P.meeting.ofMain hg (fun q _ => hpc q) ((not_congr (hpc _)).trans P.meeting.main), ?_, ?_, ?_⟩
  · rw [hphase, hplace]
    exact P.rousing
  · rw [hphase, hplace]
    exact P.greeting
  · show Calling _ _ (s.main.meets (b.inside .main)) _ _ _ _
    rw [hmeets]
    exact P.calling.congr fun j => seen_barrier (hin _)

/-- The barrier trips. -/
theorem trip (P : s.Protocol) (hg : ∃ I, b.Gathers 3 I) {I : Finset Party} (hcard : I.card = 3)
    (hI : ∀ q, q ∈ I ↔ s.barrier.inside q) (hout : ∀ q, ¬ b.inside q) (hpc : ∀ q, b.pc q = none ↔ s.barrier.pc q = none) :
    Protocol { s with barrier := b } := by
  obtain ⟨hmain, hdoctor, j, hj⟩ := P.meeting.all_inside hI hcard P.unique
  have hbarrier : s.main.inBarrier = true := P.meeting.main.1 hmain.1
  obtain ⟨v, hv⟩ : ∃ v, s.main = .barrier v := by
    cases hm : s.main <;> rw [hm] at hbarrier
    case barrier v => exact ⟨v, rfl⟩
    all_goals cases hbarrier
  have hd : s.doctor = .barrier := P.meeting.doctor.1 hdoctor.1
  have hphase : s.phase = .together := by rw [phase, hv]; exact if_pos hmain
  have hplace : s.place = .come := by rw [place, hd]; exact if_pos hdoctor
  have hphase' : phase { s with barrier := b } = .apart := by simp only [phase, hv]; exact if_neg (hout _)
  have hplace' : place { s with barrier := b } = .resting := by simp only [place, hd]; exact if_neg (hout _)
  have R := P.rousing
  have G := P.greeting
  have C := P.calling
  rw [hphase, hplace] at R G
  have hdone : s.docDone = false := by
    have hpaired := R.paired
    cases h : s.docDone
    · rfl
    · rw [h] at hpaired
      exact hpaired.elim
  refine ⟨P.meeting.ofMain hg (fun q _ => hpc q) ((not_congr (hpc _)).trans P.meeting.main), ⟨?_, R.take, R.wanted⟩, ?_, ?_⟩
  · rw [hphase', hplace']
    show Paired .apart .resting s.docDone
    rw [hdone]
    trivial
  · rw [hphase', hplace']
    exact G.congr rfl G.clear fun _ h => by cases h
  · have hseen : ∀ i, ¬ Seen b s.threads i := by
      rintro i ⟨t, ht, hs⟩
      have hone := P.unique j (P.meeting.seen_of_inside hj)
      obtain ⟨u, hu, hpcu⟩ := (P.meeting.visitor j).1 hj.1
      have hi : i = j := by
        refine hone i ⟨t, ht, ?_⟩
        cases hp : t.pc <;> simp [VisitorPc.seen, hp, hout] at hs ⊢
      rw [hi] at ht
      rw [ht] at hu
      cases hu
      simp [VisitorPc.seen, hpcu, hout] at hs
    simp only [hv] at C ⊢
    have hmeets : MainPc.meets (.barrier v) (b.inside .main) = false := decide_eq_false (hout _)
    rw [hmeets]
    exact C.tripped (P.meeting.seen_of_inside hj) hseen

/-- A step inside `pthread_barrier_wait` that does not return. -/
theorem passes (P : s.Protocol) {q : Party} (hstep : s.barrier.step (.step q) = some b) (hin : b.pc q ≠ none) :
    Protocol { s with barrier := b } := by
  obtain ⟨I, G⟩ := P.meeting.gathers
  obtain ⟨hg, hpasses⟩ := G.step_cases hstep
  cases hpasses with
  | on hinside hpc => exact P.passOn hg hinside hpc
  | out _ hnone => exact absurd hnone hin
  | trip I _ hcard hI hout hpc => exact P.trip hg hcard hI hout hpc

/-! ### The doctor -/

/-- The doctor moves on outside the barrier. -/
theorem ofDoctor (P : s.Protocol) (hb : s'.barrier = s.barrier) (hm : s'.main = s.main) (hts : s'.threads = s.threads)
    (hmutex : s'.visitorMutex = s.visitorMutex) (hdone : s'.visitorDone = s.visitorDone)
    (hasst : s'.asstDone = s.asstDone) (hturn : s'.chamber.turn = s.chamber.turn) (hd : s.doctor ≠ .barrier)
    (hd' : s'.doctor ≠ .barrier) (hp : Paired s.phase s'.place s'.docDone) (ht : s'.doctor = .take → s'.docDone = true)
    (hc : s.place = .come → s'.place = .come) : s'.Protocol := by
  have hphase : s'.phase = s.phase := by rw [phase, phase, hb, hm, hturn]
  constructor
  · rw [hb, hm, hts]
    exact P.meeting.ofDoctor P.meeting.gathers (fun _ _ => Iff.rfl) (by rw [P.meeting.doctor]; simp [hd, hd'])
  · rw [hphase, hm, hturn]
    exact ⟨hp, ht, P.rousing.wanted⟩
  · rw [hphase, hm, hasst, hts]
    exact P.greeting.congr rfl P.greeting.clear fun _ hroused hcome => ⟨hroused, hc hcome⟩
  · rw [hb, hm, hts, hmutex, hdone]
    exact P.calling

/-- The doctor sets `asst_done`, and main waits for that. -/
theorem storeDoctor (P : s.Protocol) (hd : s.doctor = .store) :
    Protocol { s with asstDone := true, doctor := .signal } := by
  have hplace : s.place = .awake := by rw [place, hd]; rfl
  have R := P.rousing
  have G := P.greeting
  rw [hplace] at R G
  have hpaired := R.paired
  have hphase : s.phase = .roused ∧ s.docDone = false := by
    cases hphase : s.phase <;> cases hdone : s.docDone <;> simp [hphase, hdone, Paired] at hpaired ⊢
  have hgreets : s.main.greets = false := by
    by_contra hg
    have hroused := hphase.1
    cases hm : s.main with
    | asst p a => cases p <;> cases a <;> simp [phase, MainPc.phase, MainPc.greets, hm] at hg hroused
    | _ => simp [MainPc.greets, hm] at hg
  have hheard := G.heard fun h => by rw [hgreets] at h; cases h
  refine ⟨P.meeting.ofDoctor P.meeting.gathers (fun _ _ => Iff.rfl) ?_, ⟨?_, (by simp), R.wanted⟩, ?_, P.calling⟩
  · rw [P.meeting.doctor]
    simp [hd]
  · show Paired s.phase .come s.docDone
    rw [hphase.1, hphase.2]
    trivial
  · refine ⟨fun _ => .inr ⟨hphase.1, rfl⟩, fun _ _ => rfl, fun t ht hu => ?_, G.one⟩
    rw [hheard t ht] at hu
    cases hu

/-- A signal brings main no further than its flag does. -/
theorem signalled (P : s.Protocol) : s.signalAsst.Protocol := by
  obtain ⟨hgreets, hserves, hholds, hcalls, hin, hphase, hmeets, hclear⟩ := wakeAsst_spec s.main
  have hphase' : s.signalAsst.phase = s.phase := hphase _ _
  have M := P.meeting
  have C := P.calling
  refine ⟨⟨M.gathers, ?_, M.doctor, M.visitor⟩, ⟨?_, P.rousing.take, ?_⟩, ?_, ?_⟩
  · rw [signalAsst_main, hin]
    exact M.main
  · rw [hphase']
    exact P.rousing.paired
  · rw [signalAsst_main, hserves]
    exact P.rousing.wanted
  · rw [hphase', signalAsst_main]
    exact P.greeting.congr hgreets (fun a h => P.greeting.clear a ((hclear a).1 h)) fun _ hr hc => ⟨hr, hc⟩
  · rw [signalAsst_main, hholds, hcalls, hmeets]
    exact C

/-- A party comes to the barrier. -/
theorem entered (P : s.Protocol) {q : Party} (hstep : s.barrier.step (.enter q) = some b)
    (hvisitor : ∀ i, q = .visitor i → Seen s.barrier s.threads i) :
    (∃ I, b.Gathers 3 I) ∧ s.barrier.pc q = none ∧ b.inside q ∧ ∀ p, p ≠ q → b.pc p = s.barrier.pc p := by
  obtain ⟨I, G⟩ := P.meeting.gathers
  have hout : ¬ s.barrier.inside q := by
    intro hin
    simp [PthreadBarrier.step, hin.1] at hstep
  obtain ⟨G', hnone, hin, hsame⟩ := G.enter (P.meeting.card_lt G.mem P.unique hout hvisitor) hstep
  exact ⟨⟨_, G'⟩, hnone, hin, hsame⟩

/-- A party comes back from the barrier. -/
theorem returned (P : s.Protocol) {q : Party} (hstep : s.barrier.step (.step q) = some b) (hnone : b.pc q = none) :
    (∃ I, b.Gathers 3 I) ∧ ¬ s.barrier.inside q ∧ ∀ p, p ≠ q → b.pc p = s.barrier.pc p := by
  obtain ⟨I, G⟩ := P.meeting.gathers
  obtain ⟨hg, hpasses⟩ := G.step_cases hstep
  have hpc : s.barrier.pc q ≠ none := by
    intro h
    simp [PthreadBarrier.step, h] at hstep
  cases hpasses with
  | on _ hnone' => exact absurd ((hnone' q).1 hnone) hpc
  | out hout _ hsame => exact ⟨hg, hout, hsame⟩
  | trip _ _ _ _ _ hnone' => exact absurd ((hnone' q).1 hnone) hpc

/-- The doctor comes to the barrier, or comes back from it. -/
theorem doctorBarrier {d : DoctorPc} (P : s.Protocol) (hg : ∃ I, b.Gathers 3 I)
    (hsame : ∀ q, q ≠ .doctor → b.pc q = s.barrier.pc q) (hd : b.pc .doctor ≠ none ↔ d = .barrier) (ht : d ≠ .take)
    (hplace : d.place (b.inside .doctor) = s.place) : Protocol { s with barrier := b, doctor := d } := by
  have hother : ∀ q, q ≠ .doctor → (b.inside q ↔ s.barrier.inside q) := by
    intro q hq
    rw [PthreadBarrier.inside, hsame q hq, PthreadBarrier.inside]
  have hphase : phase { s with barrier := b, doctor := d } = s.phase := MainPc.phase_congr (hother .main (by simp))
  have hplace' : place { s with barrier := b, doctor := d } = s.place := hplace
  have hmeets : s.main.meets (b.inside .main) = s.main.meets (s.barrier.inside .main) :=
    MainPc.meets_congr (hother .main (by simp))
  refine ⟨P.meeting.ofDoctor hg (fun q hq => by rw [hsame q hq]) hd,
    ⟨?_, fun h => absurd h ht, P.rousing.wanted⟩, ?_, ?_⟩
  · rw [hphase, hplace']
    exact P.rousing.paired
  · rw [hphase, hplace']
    exact P.greeting
  · show Calling _ _ (s.main.meets (b.inside .main)) _ _ _ _
    rw [hmeets]
    exact P.calling.congr fun j => seen_barrier (hother _ (by simp))

theorem stepDoctor (P : s.Protocol) (h : s.stepDoctor = some s') : s'.Protocol := by
  have hpaired := P.rousing.paired
  cases hpc : s.doctor <;> simp only [Clinic.stepDoctor, hpc] at h
  case unborn | blocked | left => cases h
  case lock | relock =>
    obtain ⟨m, -, rfl⟩ := Option.map_eq_some_iff.1 h
    refine P.ofDoctor rfl rfl rfl rfl rfl rfl rfl (by simp [hpc]) (by simp) ?_ (by simp) (by simp [place, hpc, DoctorPc.place])
    simpa [place, hpc, DoctorPc.place] using hpaired
  case test =>
    cases h
    refine P.ofDoctor rfl rfl rfl rfl rfl rfl rfl (by simp [hpc]) ?_ ?_ ?_ (by simp [place, hpc, DoctorPc.place])
    · dsimp only
      split_ifs <;> simp
    · dsimp only [place] at hpaired ⊢
      split_ifs <;> simpa [hpc, DoctorPc.place] using hpaired
    · dsimp only
      split_ifs with hdone
      · simp
      · exact fun _ => by simpa using hdone
  case wait =>
    cases h
    refine P.ofDoctor rfl rfl rfl rfl rfl rfl rfl (by simp [hpc]) (by simp) ?_ (by simp) (by simp [place, hpc, DoctorPc.place])
    simpa [place, hpc, DoctorPc.place] using hpaired
  case take =>
    cases h
    have hdone := P.rousing.take hpc
    refine P.ofDoctor rfl rfl rfl rfl rfl rfl rfl (by simp [hpc]) (by simp) ?_ (by simp) (by simp [place, hpc, DoctorPc.place])
    rw [place, hpc, hdone] at hpaired
    cases hphase : s.phase <;> simp [hphase, Paired, place, DoctorPc.place] at hpaired ⊢
  case unlock =>
    cases h
    refine P.ofDoctor rfl rfl rfl rfl rfl rfl rfl (by simp [hpc]) (by simp) ?_ (by simp) (by simp [place, hpc, DoctorPc.place])
    simpa [place, hpc, DoctorPc.place] using hpaired
  case check =>
    rw [place, hpc] at hpaired
    by_cases hover : s.chamber.docSessionDone = true
    · rw [if_pos hover] at h
      cases h
      refine P.ofDoctor rfl rfl rfl rfl rfl rfl rfl (by simp [hpc]) (by simp) ?_ (by simp) (by simp [place, hpc, DoctorPc.place])
      cases hphase : s.phase <;> cases hdone : s.docDone <;>
        simp [hphase, hdone, Paired, place, DoctorPc.place] at hpaired ⊢
    · rw [if_neg hover] at h
      cases h
      refine P.ofDoctor rfl rfl rfl rfl rfl rfl rfl (by simp [hpc]) (by simp) ?_ (by simp) (by simp [place, hpc, DoctorPc.place])
      simpa [place, DoctorPc.place] using hpaired
  case store =>
    cases h
    exact P.storeDoctor hpc
  case signal =>
    cases h
    have hpaired' := P.signalled.rousing.paired
    refine P.signalled.ofDoctor rfl rfl rfl rfl rfl rfl rfl (by simp [signalAsst, hpc]) (by simp) ?_ (by simp)
      (by simp [place, DoctorPc.place])
    simpa [place, hpc, DoctorPc.place, signalAsst] using hpaired'
  case enter =>
    obtain ⟨b, hb, rfl⟩ := Option.map_eq_some_iff.1 h
    obtain ⟨hg, hnone, hin, hsame⟩ := P.entered hb (by simp)
    have hcome : s.place = .come := by rw [place, hpc]; rfl
    exact P.doctorBarrier hg hsame (by simp [hin.1]) (by simp) ((if_pos hin).trans hcome.symm)
  case barrier =>
    obtain ⟨⟨s₁, done⟩, hb, rfl⟩ := Option.map_eq_some_iff.1 h
    obtain ⟨b, hstep, he⟩ := Option.map_eq_some_iff.1 hb
    cases he
    by_cases hnone : b.pc .doctor = none
    · obtain ⟨hg, hout, hsame⟩ := P.returned hstep hnone
      have hplace : s.place = .resting := by rw [place, hpc]; exact if_neg hout
      simp only [hnone, decide_true, if_true]
      exact P.doctorBarrier hg hsame (by simp [hnone]) (by simp) hplace.symm
    · have P' := P.passes hstep hnone
      have heq : { s with barrier := b, doctor := .barrier } = { s with barrier := b } := by rw [← hpc]
      simpa [hnone, heq] using P'

/-! ### A visitor -/

/-- A visitor moves on outside the barrier. -/
theorem ofVisitor {p : VisitorPc} {mutex : Kind → Option Party} {done : Kind → Bool} {asst : Bool} (P : s.Protocol)
    (ht : s.threads[i]? = some t) (hp : p ≠ .barrier) (hp' : t.pc ≠ .barrier)
    (hg : Greeting s.phase s.main s.place asst (s.threads.set i { t with pc := p }))
    (hc : Calling s.main.holds s.main.calls (s.main.meets (s.barrier.inside .main))
      (Seen s.barrier (s.threads.set i { t with pc := p })) (s.threads.set i { t with pc := p }) mutex done) :
    Protocol ({ s with visitorMutex := mutex, visitorDone := done, asstDone := asst }.setThread i t p) :=
  ⟨P.meeting.goto ht hp hp', P.rousing, hg, hc⟩

/-- A visitor comes to the barrier, or comes back from it. -/
theorem visitorBarrier {p : VisitorPc} (P : s.Protocol) (ht : s.threads[i]? = some t) (hg : ∃ I, b.Gathers 3 I)
    (hsame : ∀ q, q ≠ .visitor i → b.pc q = s.barrier.pc q) (hv : b.pc (.visitor i) ≠ none ↔ p = .barrier)
    (hp : p.unheard = t.pc.unheard) (hheld : p.holds = t.pc.holds) (htake : p ≠ .take)
    (hseen : p.seen (b.inside (.visitor i)) = t.pc.seen (s.barrier.inside (.visitor i))) :
    Protocol ({ s with barrier := b }.setThread i t p) := by
  have hother : ∀ q, q ≠ .visitor i → (b.inside q ↔ s.barrier.inside q) := by
    intro q hq
    rw [PthreadBarrier.inside, hsame q hq, PthreadBarrier.inside]
  have hphase : phase ({ s with barrier := b }.setThread i t p) = s.phase := MainPc.phase_congr (hother .main (by simp))
  have hplace : place ({ s with barrier := b }.setThread i t p) = s.place := DoctorPc.place_congr (hother .doctor (by simp))
  have hmeets : s.main.meets (b.inside .main) = s.main.meets (s.barrier.inside .main) :=
    MainPc.meets_congr (hother .main (by simp))
  refine ⟨P.meeting.ofVisitor hg ht (fun q hq => iff_of_eq (congrArg (· = none) (hsame q hq))) hv, ?_, ?_, ?_⟩
  · rw [hphase, hplace]
    exact P.rousing
  · rw [hphase, hplace]
    exact P.greeting.goto ht hp
  · show Calling _ _ (s.main.meets (b.inside .main)) _ _ _ _
    rw [hmeets]
    refine P.calling.goto ht hheld (fun h => absurd h htake) fun j => ?_
    show Seen b (s.threads.set i { t with pc := p }) j ↔ _
    rw [seen_goto ht]
    split_ifs with e
    · subst e
      rw [hseen]
      simp [Seen, ht]
    · exact seen_barrier (hother _ (by simpa using e))

theorem stepVisitor (P : s.Protocol) (h : s.stepVisitor i = some s') : s'.Protocol := by
  obtain ⟨t, ht, h⟩ := Option.bind_eq_some_iff.1 h
  have hgreet := fun (p : VisitorPc) (hp : p.unheard = t.pc.unheard) => P.greeting.goto ht hp
  have hsame : ∀ p : VisitorPc, (∀ q : Prop, [Decidable q] → p.seen q = t.pc.seen q) →
      ∀ j, Seen s.barrier (s.threads.set i { t with pc := p }) j ↔ Seen s.barrier s.threads j := by
    intro p hp j
    rw [seen_goto ht, hp]
    split_ifs with e
    · simp [Seen, e, ht]
    · rfl
  cases hpc : t.pc <;> simp only [execVisitor, hpc] at h
  case blocked | left => cases h
  case lock | relock =>
    obtain ⟨m, hm, rfl⟩ := Option.map_eq_some_iff.1 h
    obtain ⟨hfree, rfl⟩ : s.visitorMutex t.kind = none ∧ some (.visitor i) = m := by
      simpa [acquire] using hm
    exact P.ofVisitor ht (by simp) (by simp [hpc]) (hgreet _ (by rw [hpc]; rfl))
      (P.calling.lock ht hfree (by rw [hpc]; rfl) rfl (by simp) (hsame _ fun q _ => by rw [hpc]; rfl))
  case store =>
    cases h
    exact P.ofVisitor ht (by simp) (by simp [hpc]) (P.greeting.store ht hpc)
      (P.calling.goto ht (by rw [hpc]; rfl) (by simp) (hsame _ fun q _ => by rw [hpc]; rfl))
  case signal =>
    cases h
    have P' := P.signalled
    exact P'.ofVisitor ht (by simp) (by simp [hpc]) (P'.greeting.goto ht (by rw [hpc]; rfl))
      (P'.calling.goto ht (by rw [hpc]; rfl) (by simp) (hsame _ fun q _ => by rw [hpc]; rfl))
  case test =>
    cases h
    by_cases hdone : s.visitorDone t.kind = false
    · rw [if_pos hdone]
      exact P.ofVisitor ht (by simp) (by simp [hpc]) (hgreet _ (by rw [hpc]; rfl))
        (P.calling.goto ht (by rw [hpc]; rfl) (by simp) (hsame _ fun q _ => by rw [hpc]; rfl))
    · rw [if_neg hdone]
      exact P.ofVisitor ht (by simp) (by simp [hpc]) (hgreet _ (by rw [hpc]; rfl))
        (P.calling.goto ht (by rw [hpc]; rfl) (fun _ => by simpa using hdone) (hsame _ fun q _ => by rw [hpc]; rfl))
  case wait =>
    cases h
    exact P.ofVisitor ht (by simp) (by simp [hpc]) (hgreet _ (by rw [hpc]; rfl))
      (P.calling.unlock ht (by rw [hpc]; rfl) rfl (by simp) (hsame _ fun q _ => by rw [hpc]; rfl))
  case take =>
    cases h
    refine P.ofVisitor ht (by simp) (by simp [hpc]) (hgreet _ (by rw [hpc]; rfl))
      (P.calling.taken ht hpc (fun k => MainPc.holds_of_calls) fun j => ?_)
    rw [seen_goto ht]
    split_ifs with e
    · simp [e, VisitorPc.seen]
    · simp [e]
  case visit =>
    cases h
    have P' : Protocol { s with chamber := { s.chamber with currentTime := int32 (s.chamber.currentTime + t.duration) } } :=
      ⟨P.meeting, P.rousing, P.greeting, P.calling⟩
    exact P'.ofVisitor ht (by simp) (by simp [hpc]) (hgreet _ (by rw [hpc]; rfl))
      (P.calling.goto ht (by rw [hpc]; rfl) (by simp) (hsame _ fun q _ => by rw [hpc]; rfl))
  case unlock =>
    cases h
    exact P.ofVisitor ht (by simp) (by simp [hpc]) (hgreet _ (by rw [hpc]; rfl))
      (P.calling.unlock ht (by rw [hpc]; rfl) rfl (by simp) (hsame _ fun q _ => by rw [hpc]; rfl))
  case enter =>
    obtain ⟨b, hb, rfl⟩ := Option.map_eq_some_iff.1 h
    obtain ⟨hg, -, hin, hsame'⟩ := P.entered hb fun j hj => by
      cases hj
      exact ⟨t, ht, by rw [hpc]; rfl⟩
    exact P.visitorBarrier ht hg hsame' (by simp [hin.1]) (by rw [hpc]; rfl) (by rw [hpc]; rfl) (by simp)
      (by rw [hpc]; exact decide_eq_true hin)
  case barrier =>
    obtain ⟨⟨s₁, done⟩, hb, rfl⟩ := Option.map_eq_some_iff.1 h
    obtain ⟨b, hstep, he⟩ := Option.map_eq_some_iff.1 hb
    cases he
    by_cases hnone : b.pc (.visitor i) = none
    · obtain ⟨hg, hout, hsame'⟩ := P.returned hstep hnone
      simp only [hnone, decide_true, if_true]
      exact P.visitorBarrier ht hg hsame' (by simp [hnone]) (by rw [hpc]; rfl) (by rw [hpc]; rfl) (by simp)
        (by rw [hpc]; exact (decide_eq_false hout).symm)
    · have P' := P.passes hstep hnone
      have hset : s.threads.set i { t with pc := .barrier } = s.threads := by
        rw [← hpc]
        exact List.ext_getElem? fun j => by
          rw [getElem?_goto ht]
          split_ifs with e
          · rw [e, ht]
          · rfl
      simpa [hnone, setThread, hset] using P'

/-! ### main -/

section
variable {c : Chamber} {n : Event} {m : MainPc} {d : DoctorPc} {x y : Option Party} {done : Bool}

theorem ofMain (P : s.Protocol) (ha : s.main.aside = true) (ha' : m.aside = true)
    (hclear : ∀ a, m = .asst .clear a → s.asstDone = true) (hd : d = .barrier ↔ s.doctor = .barrier)
    (hplace : d.place (s.barrier.inside .doctor) = s.place) (htake : d = .take → done = true)
    (hwanted : m.serves = true → c.turn ≠ none) (hpaired : Paired (m.phase c.turn (s.barrier.inside .main)) s.place done)
    (hcome : s.phase = .roused → s.place = .come → m.phase c.turn (s.barrier.inside .main) = .roused) :
    Protocol { s with
      chamber := c, next := n, main := m, doctor := d, doctorMutex := x, asstMutex := y, docDone := done } := by
  obtain ⟨hgreets, hholds, hcalls, hin, hmeets⟩ := MainPc.aside_spec ha
  obtain ⟨hgreets', hholds', hcalls', hin', hmeets'⟩ := MainPc.aside_spec ha'
  have M := P.meeting
  have C := P.calling
  rw [hholds, hcalls, hmeets] at C
  refine ⟨⟨M.gathers, ?_, M.doctor.trans hd.symm, M.visitor⟩, ⟨?_, htake, hwanted⟩, ?_, ?_⟩
  · rw [M.main, hin, hin']
  · show Paired _ (d.place (s.barrier.inside .doctor)) _
    rw [hplace]
    exact hpaired
  · refine P.greeting.congr (hgreets'.trans hgreets.symm) hclear fun _ hr hc => ⟨hcome hr hc, hplace.trans hc⟩
  · show Calling m.holds m.calls (m.meets (s.barrier.inside .main)) _ _ _ _
    rw [hholds', hcalls', hmeets']
    exact C

/-- main goes on alone. -/
theorem quiet (P : s.Protocol) (ha : s.main.aside = true) (ha' : m.aside = true) (hphase : s.phase = .apart)
    (hphase' : m.phase c.turn (s.barrier.inside .main) = .apart) (hwanted : m.serves = true → c.turn ≠ none) :
    Protocol { s with chamber := c, next := n, main := m, doctorMutex := x, asstMutex := y } := by
  refine P.ofMain ha ha' (fun a hm => ?_) Iff.rfl rfl P.rousing.take hwanted ?_ fun hr => ?_
  · rw [hm] at ha' hphase'
    cases a <;> cases ha'
    cases hphase'
  · rw [hphase', ← hphase]
    exact P.rousing.paired
  · rw [hphase] at hr
    cases hr

end

/-- The flag set, the doctor has been roused. -/
theorem paired_set {q : Place} {done : Bool} (h : Paired .apart q done) : Paired .roused q true := by
  cases q <;> cases done <;> trivial

theorem stepWake {p : WakePc} {w : Wake} (P : s.Protocol) (hm : s.main = .wake p w) (h : s.wakeDoctor p w = some s') :
    s'.Protocol := by
  have ha : s.main.aside = true := by rw [hm]; rfl
  have hpaired := P.rousing.paired
  have hserves : ∀ q, (MainPc.wake q w).serves = true → s.chamber.turn ≠ none := by
    intro q h
    refine P.rousing.wanted ?_
    rw [hm]
    cases w with
    | leave l => cases h
    | serve v => rfl
  cases p with
  | lock =>
    obtain ⟨x, -, rfl⟩ := Option.map_eq_some_iff.1 h
    exact P.quiet ha rfl (by rw [phase, hm]; rfl) rfl (hserves _)
  | set =>
    cases h
    have hturn : (if w = .leave .final then { s.chamber with docSessionDone := true } else s.chamber).turn =
        s.chamber.turn := by split_ifs <;> rfl
    rw [phase, hm] at hpaired
    exact P.ofMain ha rfl (fun a h => by cases h) Iff.rfl rfl (fun _ => rfl) (fun h => by rw [hturn]; exact hserves _ h)
      (paired_set hpaired) fun _ _ => rfl
  | signal =>
    cases h
    have hphase : s.phase = .roused := by rw [phase, hm]; rfl
    rw [hphase] at hpaired
    by_cases hd : s.doctor = .blocked
    · rw [if_pos hd]
      exact P.ofMain ha rfl (fun a h => by cases h) (by simp [hd]) (by rw [place, hd]; rfl) (by simp) (hserves _) hpaired
        fun _ _ => rfl
    · rw [if_neg hd]
      exact P.ofMain ha rfl (fun a h => by cases h) Iff.rfl rfl P.rousing.take (hserves _) hpaired fun _ _ => rfl
  | unlock =>
    cases h
    have hphase : s.phase = .roused := by rw [phase, hm]; rfl
    rw [hphase] at hpaired
    cases w with
    | leave l =>
      exact P.ofMain ha rfl (fun a h => by cases h) Iff.rfl rfl P.rousing.take (fun h => by cases h) hpaired fun _ _ => rfl
    | serve v =>
      exact P.ofMain ha rfl (fun a h => by cases h) Iff.rfl rfl P.rousing.take (fun _ => hserves .unlock rfl) hpaired
        fun _ _ => rfl

/-- main goes on in a block that waits for `asst_done`. -/
theorem asstTo {p q : AsstPc} {a : Awaited} {y : Option Party} (P : s.Protocol) (hm : s.main = .asst p a)
    (hp : p ≠ .unlock) (hq : q ≠ .unlock) (hclear : q = .clear → s.asstDone = true) :
    Protocol { s with main := .asst q a, asstMutex := y } := by
  have halike : (MainPc.asst q a).greets = (MainPc.asst p a).greets ∧ (MainPc.asst q a).serves = (MainPc.asst p a).serves ∧
      (MainPc.asst q a).phase s.chamber.turn (s.barrier.inside .main) =
        (MainPc.asst p a).phase s.chamber.turn (s.barrier.inside .main) := by
    cases a <;> cases p <;> cases q <;> first | exact ⟨rfl, rfl, rfl⟩ | contradiction
  obtain ⟨hgreets, hserves, hphase⟩ := halike
  have hphase' : phase { s with main := .asst q a, asstMutex := y } = s.phase := by
    rw [phase, phase, hm]
    exact hphase
  have M := P.meeting
  have R := P.rousing
  have C := P.calling
  rw [hm] at M R C
  refine ⟨⟨M.gathers, M.main, M.doctor, M.visitor⟩, ⟨?_, R.take, fun h => R.wanted (hserves ▸ h)⟩, ?_, C⟩
  · rw [hphase']
    exact R.paired
  · rw [hphase']
    refine P.greeting.congr (by rw [hm]; exact hgreets) (fun b hb => ?_) fun _ hr hc => ⟨hr, hc⟩
    exact hclear (MainPc.asst.inj hb).1

/-- main has seen that `asst_done` is set. -/
theorem cleared {a : Awaited} (P : s.Protocol) (hm : s.main = .asst .clear a) :
    Protocol { s with asstDone := false, main := .asst .unlock a } := by
  have hflag := P.greeting.clear a hm
  have hheard := P.greeting.heard fun _ => hflag
  have M := P.meeting
  have R := P.rousing
  have C := P.calling
  have G := P.greeting
  rw [hm] at M C
  have hnone : ∀ t ∈ s.threads, t.pc.unheard = true →
      (MainPc.asst .unlock a).greets = true ∧ false = false := by
    intro t ht hu
    rw [hheard t ht] at hu
    cases hu
  cases a with
  | visitor k =>
    have hphase : s.phase = .apart := by rw [phase, hm]; rfl
    have hpaired := R.paired
    rw [hphase] at hpaired
    exact ⟨⟨M.gathers, M.main, M.doctor, M.visitor⟩, ⟨hpaired, R.take, fun h => by cases h⟩,
      ⟨fun h => (by cases h), fun b hb => (by cases hb), hnone, G.one⟩, C⟩
  | doctor v =>
    have hphase : s.phase = .roused := by rw [phase, hm]; rfl
    have hcome : s.place = .come := by
      rcases G.flag hflag with hg | ⟨-, hc⟩
      · rw [hm] at hg
        cases hg
      · exact hc
    have hpaired := R.paired
    rw [hphase, hcome] at hpaired
    have hpaired' : Paired .together s.place s.docDone := by
      rw [hcome]
      cases h : s.docDone <;> rw [h] at hpaired <;> exact hpaired
    exact ⟨⟨M.gathers, M.main, M.doctor, M.visitor⟩, ⟨hpaired', R.take, fun _ => R.wanted (by rw [hm]; rfl)⟩,
      ⟨fun h => (by cases h), fun b hb => (by cases hb), hnone, G.one⟩, C⟩

theorem stepAsst {p : AsstPc} {a : Awaited} (P : s.Protocol) (hm : s.main = .asst p a) (h : s.waitAsst p a = some s') :
    s'.Protocol := by
  cases p with
  | lock | relock =>
    obtain ⟨y, -, rfl⟩ := Option.map_eq_some_iff.1 h
    exact P.asstTo hm (by simp) (by simp) (by simp)
  | test =>
    cases h
    by_cases hflag : s.asstDone = false
    · rw [if_pos hflag]
      exact P.asstTo hm (by simp) (by simp) (by simp)
    · rw [if_neg hflag]
      exact P.asstTo hm (by simp) (by simp) fun _ => by simpa using hflag
  | wait =>
    cases h
    exact P.asstTo hm (by simp) (by simp) (by simp)
  | blocked => cases h
  | clear =>
    cases h
    exact P.cleared hm
  | unlock =>
    cases h
    cases a with
    | visitor k => exact P.quiet (by rw [hm]; rfl) rfl (by rw [phase, hm]; rfl) rfl fun h => by cases h
    | doctor v =>
      have hwanted := P.rousing.wanted (by rw [hm]; rfl)
      have hphase : s.phase = .together := by rw [phase, hm]; rfl
      have hpaired := P.rousing.paired
      rw [hphase] at hpaired
      refine P.ofMain (by rw [hm]; rfl) rfl (fun a h => by cases h) Iff.rfl rfl P.rousing.take (fun h => by cases h) ?_
        fun hr => ?_
      · rw [show (MainPc.turn v).phase s.chamber.turn (s.barrier.inside .main) = .together from if_neg hwanted]
        exact hpaired
      · rw [hphase] at hr
        cases hr

/-- main goes on with the doctor in front of the barrier. -/
theorem ofCall {c : Chamber} {m : MainPc} {mutex : Kind → Option Party} {done : Kind → Bool} (P : s.Protocol)
    (hphase : s.phase = .together) (hm : s.main.greets = false) (hin : s.main.inBarrier = false)
    (hm' : m.greets = false ∧ m.serves = false ∧ m.inBarrier = false ∧ ∀ a, m ≠ .asst .clear a)
    (hphase' : m.phase c.turn (s.barrier.inside .main) = .together)
    (C : Calling m.holds m.calls (m.meets (s.barrier.inside .main)) (Seen s.barrier s.threads) s.threads mutex done) :
    Protocol { s with chamber := c, main := m, visitorMutex := mutex, visitorDone := done } := by
  obtain ⟨hgreets, hserves, hin', hclear⟩ := hm'
  have M := P.meeting
  have hpaired := P.rousing.paired
  rw [hphase] at hpaired
  refine ⟨⟨M.gathers, ?_, M.doctor, M.visitor⟩, ⟨?_, P.rousing.take, fun h => ?_⟩, ?_, C⟩
  · rw [M.main, hin, hin']
  · show Paired (m.phase _ _) _ _
    rw [hphase']
    exact hpaired
  · rw [hserves] at h
    cases h
  · refine P.greeting.congr (hgreets.trans hm.symm) (fun a ha => absurd ha (hclear a)) fun _ hr => ?_
    rw [hphase] at hr
    cases hr

theorem stepCall {p : CallPc} {k : Kind} {v : Serve} {w : Nat} (P : s.Protocol) (hm : s.main = .call p k v)
    (h : s.callVisitor p k v w = some s') : s'.Protocol := by
  have hphase : s.phase = .together := by rw [phase, hm]; rfl
  have hgreets : s.main.greets = false := by rw [hm]; rfl
  have hin : s.main.inBarrier = false := by rw [hm]; rfl
  have C := P.calling
  rw [hm] at C
  cases p with
  | lock =>
    obtain ⟨x, hx, rfl⟩ := Option.map_eq_some_iff.1 h
    obtain ⟨hfree, rfl⟩ : s.visitorMutex k = none ∧ some .main = x := by simpa [acquire] using hx
    exact P.ofCall hphase hgreets hin ⟨rfl, rfl, rfl, by simp⟩ rfl (C.mainLock hfree)
  | set =>
    cases h
    exact P.ofCall hphase hgreets hin ⟨rfl, rfl, rfl, by simp⟩ rfl C.mainSet
  | count =>
    cases h
    exact P.ofCall hphase hgreets hin ⟨rfl, rfl, rfl, by simp⟩ rfl C
  | signal =>
    have P' : Protocol { s with main := .call .unlock k v } :=
      P.ofCall hphase hgreets hin ⟨rfl, rfl, rfl, by simp⟩ rfl C
    simp only [callVisitor] at h
    split at h
    case h_1 t ht =>
      split_ifs at h with hwaits
      cases h
      have hpc : t.pc = .blocked := (by simpa [Thread.waitsFor] using hwaits : _ ∧ _).2
      refine P'.ofVisitor ht (by simp) (by simp [hpc]) (P'.greeting.goto ht (by rw [hpc]; rfl))
        (P'.calling.goto ht (by rw [hpc]; rfl) (by simp) fun j => ?_)
      rw [seen_goto ht]
      split_ifs with e
      · simp [Seen, e, ht, hpc, VisitorPc.seen]
      · rfl
    case h_2 =>
      split_ifs at h
      cases h
      exact P'
  | unlock =>
    cases h
    exact P.ofCall hphase hgreets hin ⟨rfl, rfl, rfl, by simp⟩ rfl C.mainUnlock

/-- A thread is created. -/
theorem created {k : Kind} (P : s.Protocol) (hm : s.main = .createThread k) (hpc : t.pc = .lock) :
    Protocol { s with threads := s.threads ++ [t], main := .asst .lock (.visitor k) } := by
  have hphase : s.phase = .apart := by rw [phase, hm]; rfl
  have M := P.meeting
  have R := P.rousing
  have G := P.greeting
  have C := P.calling
  rw [hm] at M C
  rw [hphase] at R G
  exact ⟨⟨M.gathers, M.main, M.doctor, (M.concat hpc).visitor⟩, ⟨R.paired, R.take, fun h => by cases h⟩,
    G.concat (by rw [hm]; rfl) hpc k, C.concat hpc (seen_concat hpc)⟩

/-- main comes to the barrier. -/
theorem mainEnters {v : Serve} (P : s.Protocol) (hm : s.main = .enter v)
    (hstep : s.barrier.step (.enter .main) = some b) : Protocol { s with barrier := b, main := .barrier v } := by
  obtain ⟨hg, -, hin, hsame⟩ := P.entered hstep (by simp)
  have hother : ∀ q, q ≠ .main → (b.inside q ↔ s.barrier.inside q) := by
    intro q hq
    rw [PthreadBarrier.inside, hsame q hq, PthreadBarrier.inside]
  have hphase : s.phase = .together := by rw [phase, hm]; rfl
  have hphase' : phase { s with barrier := b, main := .barrier v } = s.phase := (if_pos hin).trans hphase.symm
  have hplace : place { s with barrier := b, main := .barrier v } = s.place := DoctorPc.place_congr (hother .doctor (by simp))
  have hmeets : (MainPc.barrier v).meets (b.inside .main) = true := decide_eq_true hin
  have C := P.calling
  rw [hm] at C
  refine ⟨P.meeting.ofMain hg (fun q hq => by rw [hsame q hq]) (by simp [hin.1, MainPc.inBarrier]), ?_, ?_, ?_⟩
  · rw [hphase', hplace]
    exact ⟨P.rousing.paired, P.rousing.take, fun h => by cases h⟩
  · rw [hphase', hplace]
    exact P.greeting.congr (by rw [hm]; rfl) (fun a h => by cases h) fun _ hr hc => ⟨hr, hc⟩
  · show Calling _ _ ((MainPc.barrier v).meets (b.inside .main)) _ _ _ _
    rw [hmeets]
    exact C.congr fun j => seen_barrier (hother _ (by simp))

/-- main comes back from the barrier. -/
theorem mainReturns {v : Serve} (P : s.Protocol) (hm : s.main = .barrier v)
    (hstep : s.barrier.step (.step .main) = some b) (hnone : b.pc .main = none) :
    Protocol { s with barrier := b, main := .addevent v } := by
  obtain ⟨hg, hout, hsame⟩ := P.returned hstep hnone
  have hother : ∀ q, q ≠ .main → (b.inside q ↔ s.barrier.inside q) := by
    intro q hq
    rw [PthreadBarrier.inside, hsame q hq, PthreadBarrier.inside]
  have hphase : s.phase = .apart := by rw [phase, hm]; exact if_neg hout
  have hphase' : phase { s with barrier := b, main := .addevent v } = s.phase := hphase.symm
  have hplace : place { s with barrier := b, main := .addevent v } = s.place :=
    DoctorPc.place_congr (hother .doctor (by simp))
  have hmeets : (MainPc.barrier v).meets (s.barrier.inside .main) = false := decide_eq_false hout
  have C := P.calling
  rw [hm, hmeets] at C
  refine ⟨P.meeting.ofMain hg (fun q hq => by rw [hsame q hq]) (by simp [hnone, MainPc.inBarrier]), ?_, ?_, ?_⟩
  · rw [hphase', hplace]
    exact ⟨P.rousing.paired, P.rousing.take, fun h => by cases h⟩
  · rw [hphase', hplace]
    exact P.greeting.congr (by rw [hm]; rfl) (fun a h => by cases h) fun _ hr hc => ⟨hr, hc⟩
  · exact C.congr fun j => seen_barrier (hother _ (by simp))

theorem aside_back (v : Serve) : (back v).aside = true ∧ (back v).serves = false ∧
    ∀ (turn : Option Kind) (inside : Prop) [Decidable inside], (back v).phase turn inside = .apart := by
  cases v <;> exact ⟨rfl, rfl, fun _ _ _ => rfl⟩

theorem aside_behind (l : Leave) : (behind l).aside = true ∧ (behind l).serves = false ∧
    ∀ (turn : Option Kind) (inside : Prop) [Decidable inside], (behind l).phase turn inside = .apart := by
  cases l <;> exact ⟨rfl, rfl, fun _ _ _ => rfl⟩

theorem stepMain {w : Nat} (P : s.Protocol) (h : s.stepMain w = some s') : s'.Protocol := by
  cases hm : s.main <;> simp only [Clinic.stepMain, hm] at h
  case returned => cases h
  case wake p w => exact P.stepWake hm h
  case asst p a => exact P.stepAsst hm h
  case call p k v => exact P.stepCall hm h
  case createThread k =>
    cases h
    exact P.created hm rfl
  case createDoctor =>
    cases h
    have hphase : s.phase = .alone := by rw [phase, hm]; rfl
    have hpaired := P.rousing.paired
    rw [hphase] at hpaired
    have hborn : s.doctor = .unborn ∧ s.docDone = false := by
      cases hd : s.doctor <;> cases hdone : s.docDone <;> simp [place, hd, hdone, DoctorPc.place, Paired] at hpaired ⊢
      all_goals split_ifs at hpaired <;> exact hpaired
    have M := P.meeting
    have C := P.calling
    rw [hm] at M C
    refine ⟨⟨M.gathers, M.main, ?_, M.visitor⟩, ⟨?_, by simp, fun h => by cases h⟩, ?_, C⟩
    · rw [M.doctor, hborn.1]
      simp
    · show Paired .apart .resting s.docDone
      rw [hborn.2]
      trivial
    · refine P.greeting.congr (by rw [hm]; rfl) (fun a h => by cases h) fun _ hr => ?_
      rw [hphase] at hr
      cases hr
  case join l =>
    split_ifs at h with hd
    cases h
    obtain ⟨ha, hs, hp⟩ := aside_behind l
    have hphase : s.phase = .roused := by rw [phase, hm]; rfl
    have hplace : s.place = .gone := by rw [place, hd]; rfl
    refine P.ofMain (by rw [hm]; rfl) ha (fun a h => ?_) Iff.rfl rfl P.rousing.take (fun h => ?_) ?_ fun _ hc => ?_
    · cases l <;> cases h
    · rw [hs] at h
      cases h
    · rw [hp, hplace]
      trivial
    · rw [hplace] at hc
      cases hc
  case loop =>
    cases h
    have hphase : s.phase = .apart := by rw [phase, hm]; rfl
    simp only [Clinic.loop]
    split_ifs <;> exact P.quiet (by rw [hm]; rfl) rfl hphase rfl fun h => by cases h
  case dispatch =>
    cases h
    have hphase : s.phase = .apart := by rw [phase, hm]; rfl
    simp only [Clinic.dispatch]
    split_ifs
    · exact P.quiet (by rw [hm]; rfl) rfl hphase rfl fun h => by cases h
    · exact P.quiet (by rw [hm]; rfl) rfl hphase rfl fun h => by cases h
    · split
      · split <;> exact P.quiet (by rw [hm]; rfl) rfl hphase rfl fun h => by cases h
      · exact P.quiet (by rw [hm]; rfl) rfl hphase rfl fun h => by cases h
  case admitted k =>
    cases h
    exact P.quiet (by rw [hm]; rfl) rfl (by rw [phase, hm]; rfl) rfl fun h => by cases h
  case receive =>
    cases h
    have hphase : s.phase = .apart := by rw [phase, hm]; rfl
    simp only [Clinic.receive]
    split_ifs with hfree hpast hturn
    · exact P.quiet (by rw [hm]; rfl) rfl hphase rfl fun h => by cases h
    · exact P.quiet (by rw [hm]; rfl) rfl hphase rfl fun _ => hturn
    · exact P.quiet (by rw [hm]; rfl) rfl hphase (if_pos (not_not.1 hturn)) fun h => by cases h
    · exact P.quiet (by rw [hm]; rfl) rfl hphase rfl fun h => by cases h
  case turn v =>
    cases h
    split
    case h_1 k hturn =>
      have C := P.calling
      rw [hm] at C
      have hphase : s.phase = .together := by
        rw [phase, hm]
        exact if_neg (by rw [hturn]; simp)
      exact P.ofCall hphase (by rw [hm]; rfl) (by rw [hm]; rfl) ⟨rfl, rfl, rfl, by simp⟩ rfl C
    case h_2 hturn =>
      obtain ⟨ha, hs, hp⟩ := aside_back v
      have hphase : s.phase = .apart := by
        rw [phase, hm]
        exact if_pos hturn
      exact P.quiet (by rw [hm]; rfl) ha hphase (hp _ _) fun h => by rw [hs] at h; cases h
  case enter v =>
    obtain ⟨b, hb, rfl⟩ := Option.map_eq_some_iff.1 h
    exact P.mainEnters hm hb
  case barrier v =>
    obtain ⟨⟨s₁, done⟩, hb, rfl⟩ := Option.map_eq_some_iff.1 h
    obtain ⟨b, hstep, he⟩ := Option.map_eq_some_iff.1 hb
    cases he
    by_cases hnone : b.pc .main = none
    · simp only [hnone, decide_true, if_true]
      exact P.mainReturns hm hstep hnone
    · have P' := P.passes hstep hnone
      have heq : { s with barrier := b, main := .barrier v } = { s with barrier := b } := by rw [← hm]
      simpa [hnone, heq] using P'
  case addevent v =>
    cases h
    obtain ⟨ha, hs, hp⟩ := aside_back v
    exact P.quiet (by rw [hm]; rfl) ha (by rw [phase, hm]; rfl) (hp _ _) fun h => by rw [hs] at h; cases h
  case finish =>
    cases h
    exact P.quiet (by rw [hm]; rfl) rfl (by rw [phase, hm]; rfl) rfl fun h => by cases h
  case others =>
    cases h
    have hphase : s.phase = .apart := by rw [phase, hm]; rfl
    simp only [Clinic.others]
    split_ifs with hwait
    · exact P.quiet (by rw [hm]; rfl) rfl hphase rfl fun _ => hwait.2
    · exact P.quiet (by rw [hm]; rfl) rfl hphase rfl fun h => by cases h
    · exact P.quiet (by rw [hm]; rfl) rfl hphase rfl fun h => by cases h
  case resume =>
    cases h
    exact P.quiet (by rw [hm]; rfl) rfl (by rw [phase, hm]; rfl) rfl fun h => by cases h
  case pending =>
    cases h
    have hphase : s.phase = .apart := by rw [phase, hm]; rfl
    split_ifs with hturn
    · exact P.quiet (by rw [hm]; rfl) rfl hphase rfl fun _ => hturn
    · exact P.quiet (by rw [hm]; rfl) rfl hphase rfl fun h => by cases h

theorem step {a : SessionStep} (P : s.Protocol) (h : s.step a = some s') : s'.Protocol := by
  cases a with
  | main w => exact P.stepMain h
  | doctor => exact P.stepDoctor h
  | visitor i => exact P.stepVisitor h

theorem init (arrivals : List Event) : (Clinic.init arrivals).Protocol where
  meeting := ⟨⟨∅, .init 3⟩, by simp [Clinic.init, PthreadBarrier.init, MainPc.inBarrier],
    by simp [Clinic.init, PthreadBarrier.init], fun j => by simp [Clinic.init, PthreadBarrier.init]⟩
  rousing := {
    paired := trivial
    take := fun h => by cases h
    wanted := fun h => by cases h }
  greeting := {
    flag := fun h => by cases h
    clear := fun a h => by cases h
    unheard := fun t ht => by cases ht
    one := Nat.zero_le 1 }
  calling := {
    guards := fun k q => by cases q <;> simp [Clinic.init, Critical, MainPc.holds]
    take := fun j t ht => by simp [Clinic.init] at ht
    set := fun k hk => by cases hk
    called := fun k hk => by cases hk
    seen := fun j hj => by
      obtain ⟨t, ht, -⟩ := hj
      simp [Clinic.init] at ht }

end Protocol

/-- The protocol holds whatever the order of the steps. -/
theorem protocol_of_reach {arrivals : List Event} (h : Trans.Reach step (.init arrivals) s) : s.Protocol :=
  h.inv (Protocol.init arrivals) fun _ _ _ _ P _ hs => P.step hs

end Clinic

end OsLab.A6
