import OsLab.A6.Follows
import OsLab.A6.Horizon

/-!
# What the handshakes come to (A6/session.c)

What `Chamber` says of whole handshakes holds of the statements: where main is at the test of a loop, it is where some
run of `Chamber` is (`statements_refine`). So nobody waits any more when main has returned (`everybody_served`). In
between one visitor at a time is with the doctor, and main and the doctor wait for it (`visitor_alone`) at the barrier,
which lets the three go on together (`rounds_of_three`).
-/

namespace OsLab.A6

open Trans (Reach)

namespace Clinic

variable {s : Clinic} {c d : Chamber} {w : Kind → List Visitor} {t x : Int}

theorem Sim.rested (S : Sim c d w t x s) (P : s.Protocol) (hrests : s.main.rests = true) :
    s.chamber = c.known w ∧ (∀ k, (w k).length = (c.waiting k).length) ∧ c.pc = s.main.pc s.next ∧
      List.Forall₂ Thread.IsOf s.threads c.admitted ∧ ∀ k, c.waiting k = waitingOf s.threads c.admitted k := by
  have hshape : s.main.aside = true ∧ (s.phase = .alone ∨ s.phase = .apart) ∧ s.view = s.chamber := by
    cases hm : s.main <;> rw [hm] at hrests <;> simp_all [MainPc.aside, Clinic.phase, MainPc.phase, view, MainPc.rests]
  obtain ⟨haside, hphase, hsame⟩ := hshape
  have hapart : s.doctor = .left → s.phase = .apart := fun hd => hphase.resolve_left (Sim.not_alone P hd)
  obtain ⟨hview, hlengths, -, -⟩ := S.level P haside hapart
  obtain rfl := S.rests hrests
  exact ⟨hsame.symm.trans hview, hlengths, S.pc, S.guests, S.waiting⟩

/-- A reporter at the opening: who takes how many steps, one after the other, until main has returned. -/
def reporterDay : List SessionStep :=
  [(7, .main 0), (3, .doctor), (3, .visitor 0), (16, .main 0), (7, .doctor), (5, .main 0), (5, .doctor), (2, .visitor 0),
    (10, .main 0), (12, .visitor 0), (8, .main 0), (7, .doctor), (1, .main 0)].flatMap fun (n, a) => List.replicate n a

/-- **The statements refine the handshakes.** Whatever the order of the steps of main, the doctor and the visitors, when
main is at the test of a loop there is a run of the coarse model that has come there too. The globals are the same, and
those in line are the visitors whose threads have not taken their flag. -/
theorem statements_refine (arrivals : List Event) (s : Clinic) (h : Reach step (.init arrivals) s)
    (hrests : s.main.rests = true) :
    ∃ as c, Trans.run Chamber.step (.init arrivals) as = some c ∧ c.pc = s.main.pc s.next ∧
      s.chamber = c.known s.chamber.waiting ∧ (∀ k, (s.chamber.waiting k).length = (c.waiting k).length) ∧
      List.Forall₂ Thread.IsOf s.threads c.admitted ∧ ∀ k, c.waiting k = waitingOf s.threads c.admitted k := by
  obtain ⟨as, c, hrun, P, d, w, t, x, S⟩ := refines_of_reach h
  obtain ⟨hchamber, hlengths, hpc, hguests, hwaiting⟩ := S.rested P hrests
  have hline : s.chamber.waiting = w := by rw [hchamber]; rfl
  refine ⟨as, c, hrun, hpc, ?_, ?_, hguests, hwaiting⟩
  · rw [hline]
    exact hchamber
  · rw [hline]
    exact hlengths

theorem statements_refine_reporter : ∃ s, Reach step (.init [⟨'R', 0, 6⟩]) s ∧ s.main = .returned ∧
    ∃ as c, Trans.run Chamber.step (.init [⟨'R', 0, 6⟩]) as = some c ∧ c.pc = .returned ∧
      s.chamber = c.known s.chamber.waiting := by
  obtain ⟨s, hr, hs⟩ := Trans.exists_reach_of_run step (.init [⟨'R', 0, 6⟩]) reporterDay
    (fun s => s.main == .returned) (by decide +kernel)
  have hend : s.main = .returned := by simpa using hs
  obtain ⟨as, c, hrun, hpc, hchamber, -⟩ := statements_refine _ s hr (by rw [hend]; rfl)
  exact ⟨s, hr, hend, as, c, hrun, by rw [hpc, hend]; rfl, hchamber⟩

/-- **Everybody is served** on a day whose visits end by `INT_MAX`. When main has returned, every arrival has been
admitted or turned away, there is a thread for each of the admitted, and all of these have taken their flag. -/
theorem everybody_served (arrivals : List Event) (htypes : ∀ e ∈ arrivals, kindOf e.type ≠ none)
    (hdur : ∀ e ∈ arrivals, 0 ≤ e.duration) (T : Int) (hample : Chamber.Ample arrivals T) (s : Clinic)
    (h : Reach step (.init arrivals) s) (hend : s.main = .returned) :
    s.chamber.handled = arrivals ∧ List.Forall₂ Thread.IsOf s.threads s.chamber.admitted ∧
      (∀ u ∈ s.threads, u.pc.waits = false) ∧ ∀ k, s.chamber.waiting k = [] := by
  obtain ⟨as, c, hrun, P, d, w, t, x, S⟩ := refines_of_reach h
  obtain ⟨hchamber, hlengths, hpc, hguests, hwaiting⟩ := S.rested P (by rw [hend]; rfl)
  have V := (hample.run htypes hdur hrun).1
  obtain ⟨hleft, hnobody⟩ := V.ended (hpc.trans (by rw [hend]; rfl))
  have hbalance := V.balance
  rw [hleft, Multiset.zero_add] at hbalance
  refine ⟨?_, ?_, fun u hu => ?_, fun k => ?_⟩
  · rw [hchamber]
    exact hbalance
  · rw [hchamber]
    exact hguests
  · by_contra hwaits
    obtain ⟨i, hi⟩ := List.mem_iff_getElem?.1 hu
    obtain ⟨m, v, -, hm, -⟩ := waitingOf_take hguests hi (by simpa using hwaits) (p := .left) rfl
    rw [← hwaiting, hnobody] at hm
    cases hm
  · have hlength := hlengths k
    rw [hnobody, List.length_nil, List.length_eq_zero_iff] at hlength
    rw [hchamber]
    exact hlength

theorem everybody_served_reporter : ∃ s, Reach step (.init [⟨'R', 0, 6⟩]) s ∧ s.main = .returned ∧
    s.threads = [⟨.reporter, 6, .left⟩] ∧ s.chamber.handled = {⟨'R', 0, 6⟩} := by
  obtain ⟨s, hr, hs⟩ := Trans.exists_reach_of_run step (.init [⟨'R', 0, 6⟩]) reporterDay
    (fun s => s.main == .returned && s.threads == [⟨.reporter, 6, .left⟩]) (by decide +kernel)
  have hend : s.main = .returned ∧ s.threads = [⟨.reporter, 6, .left⟩] := by simpa using hs
  exact ⟨s, hr, hend.1, hend.2, (everybody_served _ (by decide) (by decide) 0
    ⟨by decide, by decide, by decide⟩ s hr hend.1).1⟩

/-- **One visitor at a time.** From the moment a visitor takes its flag until the barrier has tripped it is the only one,
no flag is set, main is on its way to the barrier or in it, and the doctor has told main that it is there and does not
go on either. -/
theorem visitor_alone (arrivals : List Event) (s : Clinic) (h : Reach step (.init arrivals) s) (i : Nat)
    (hi : Seen s.barrier s.threads i) :
    (∀ j, Seen s.barrier s.threads j → j = i) ∧ (∀ k, s.visitorDone k = false) ∧
      s.main.meets (s.barrier.inside .main) = true ∧ s.place = .come ∧ s.docDone = false := by
  have P := protocol_of_reach h
  obtain ⟨hone, hmeets⟩ := P.calling.seen i hi
  have hflags : ∀ k, s.visitorDone k = false := by
    intro k
    by_contra hk
    exact (P.calling.called k (by simpa using hk)).2.1 i hi
  have hphase : s.phase = .together := MainPc.phase_of_meets _ hmeets
  have hpaired := P.rousing.paired
  rw [hphase] at hpaired
  refine ⟨hone, hflags, hmeets, ?_⟩
  cases hplace : s.place <;> cases hdone : s.docDone <;> rw [hplace, hdone] at hpaired <;> simp [Paired] at hpaired ⊢

/-- The reporter has taken its flag and is with the doctor. -/
theorem visitor_alone_reporter : ∃ s, Reach step (.init [⟨'R', 0, 6⟩]) s ∧ s.threads = [⟨.reporter, 6, .visit⟩] ∧
    s.main.meets (s.barrier.inside .main) = true ∧ s.place = .come := by
  obtain ⟨s, hr, hs⟩ := Trans.exists_reach_of_run step (.init [⟨'R', 0, 6⟩]) (reporterDay.take 61)
    (fun s => s.threads == [⟨.reporter, 6, .visit⟩]) (by decide +kernel)
  have hvisit : s.threads = [⟨.reporter, 6, .visit⟩] := by simpa using hs
  obtain ⟨-, -, hmeets, hplace, -⟩ := visitor_alone _ s hr 0 ⟨⟨.reporter, 6, .visit⟩, by rw [hvisit]; rfl, rfl⟩
  exact ⟨s, hr, hvisit, hmeets, hplace⟩

/-! ## The rounds of the barrier -/

/-- The barrier stays as it is, or a party comes to it or goes on in it. -/
def PartyMove (b b' : PthreadBarrier Party) : Prop :=
  b' = b ∨ ∃ p, b.step (.enter p) = some b' ∨ b.step (.step p) = some b'

section
variable {s' : Clinic} {a : SessionStep} {i n : Nat}

theorem barrier_of_doctor (h : s.stepDoctor = some s') : PartyMove s.barrier s'.barrier := by
  cases hpc : s.doctor <;> simp only [Clinic.stepDoctor, hpc] at h
  case unborn | blocked | left => cases h
  case lock | relock =>
    obtain ⟨m, -, rfl⟩ := Option.map_eq_some_iff.1 h
    exact .inl rfl
  case check =>
    split_ifs at h <;> cases h <;> exact .inl rfl
  case enter =>
    obtain ⟨b, hb, rfl⟩ := Option.map_eq_some_iff.1 h
    exact .inr ⟨_, .inl hb⟩
  case barrier =>
    obtain ⟨⟨s₁, done⟩, hb, rfl⟩ := Option.map_eq_some_iff.1 h
    obtain ⟨b, hstep, he⟩ := Option.map_eq_some_iff.1 hb
    cases he
    exact .inr ⟨_, .inr hstep⟩
  all_goals
    cases h
    exact .inl rfl

theorem barrier_of_visitor (h : s.stepVisitor i = some s') : PartyMove s.barrier s'.barrier := by
  obtain ⟨u, -, h⟩ := Option.bind_eq_some_iff.1 h
  cases hpc : u.pc <;> simp only [execVisitor, hpc] at h
  case blocked | left => cases h
  case lock | relock =>
    obtain ⟨m, -, rfl⟩ := Option.map_eq_some_iff.1 h
    exact .inl rfl
  case enter =>
    obtain ⟨b, hb, rfl⟩ := Option.map_eq_some_iff.1 h
    exact .inr ⟨_, .inl hb⟩
  case barrier =>
    obtain ⟨⟨s₁, done⟩, hb, rfl⟩ := Option.map_eq_some_iff.1 h
    obtain ⟨b, hstep, he⟩ := Option.map_eq_some_iff.1 hb
    cases he
    exact .inr ⟨_, .inr hstep⟩
  all_goals
    cases h
    exact .inl rfl

theorem barrier_of_main (h : s.stepMain n = some s') : PartyMove s.barrier s'.barrier := by
  cases hm : s.main <;> simp only [Clinic.stepMain, hm] at h
  case returned => cases h
  case wake p o =>
    cases p with
    | lock =>
      obtain ⟨m, -, rfl⟩ := Option.map_eq_some_iff.1 h
      exact .inl rfl
    | set | signal | unlock =>
      cases h
      exact .inl rfl
  case asst p o =>
    cases p with
    | lock | relock =>
      obtain ⟨m, -, rfl⟩ := Option.map_eq_some_iff.1 h
      exact .inl rfl
    | blocked => cases h
    | test | wait | clear | unlock =>
      cases h
      exact .inl rfl
  case call p k v =>
    cases p with
    | lock =>
      obtain ⟨m, -, rfl⟩ := Option.map_eq_some_iff.1 h
      exact .inl rfl
    | signal =>
      simp only [callVisitor] at h
      split at h <;> split_ifs at h <;> cases h <;> exact .inl rfl
    | set | count | unlock =>
      cases h
      exact .inl rfl
  case join l =>
    split_ifs at h
    cases h
    exact .inl rfl
  case enter v =>
    obtain ⟨b, hb, rfl⟩ := Option.map_eq_some_iff.1 h
    exact .inr ⟨_, .inl hb⟩
  case barrier v =>
    obtain ⟨⟨s₁, done⟩, hb, rfl⟩ := Option.map_eq_some_iff.1 h
    obtain ⟨b, hstep, he⟩ := Option.map_eq_some_iff.1 hb
    cases he
    exact .inr ⟨_, .inr hstep⟩
  case loop =>
    cases h
    simp only [Clinic.loop]
    split_ifs <;> exact .inl rfl
  case dispatch =>
    cases h
    simp only [Clinic.dispatch]
    split_ifs
    · exact .inl rfl
    · exact .inl rfl
    · split
      · split <;> exact .inl rfl
      · exact .inl rfl
  case receive =>
    cases h
    simp only [Clinic.receive]
    split_ifs <;> exact .inl rfl
  case others =>
    cases h
    simp only [Clinic.others]
    split_ifs <;> exact .inl rfl
  all_goals
    cases h
    exact .inl rfl

theorem barrier_of_step (h : s.step a = some s') : PartyMove s.barrier s'.barrier := by
  cases a with
  | main n => exact barrier_of_main h
  | doctor => exact barrier_of_doctor h
  | visitor i => exact barrier_of_visitor h

end

/-- Who comes sends nobody away. -/
theorem inside_of_enter {b b' : PthreadBarrier Party} {p q : Party} (h : b.step (.enter p) = some b') (hq : b.inside q) :
    b'.inside q := by
  simp only [PthreadBarrier.step] at h
  split_ifs at h with hp
  cases h
  have hne : q ≠ p := fun e => hq.1 (e ▸ hp)
  simpa [PthreadBarrier.inside, PthreadBarrier.goto, hne] using hq

/-- A step of the barrier sends nobody away, or ends the round of three. -/
theorem keeps_or_trips {b : PthreadBarrier Party} (P : s.Protocol) (h : PartyMove s.barrier b) :
    (∀ q, s.barrier.inside q → b.inside q) ∨
      s.barrier.inside .main ∧ s.barrier.inside .doctor ∧ (∃! j, s.barrier.inside (.visitor j)) ∧ ∀ q, ¬ b.inside q := by
  rcases h with rfl | ⟨p, henter | hstep⟩
  · exact .inl fun _ => id
  · exact .inl fun _ => inside_of_enter henter
  · obtain ⟨I, G⟩ := P.meeting.gathers
    obtain ⟨-, hpasses⟩ := G.step_cases hstep
    cases hpasses with
    | on hinside => exact .inl fun q => (hinside q).2
    | out hp _ hother =>
      refine .inl fun q hq => ?_
      have hne : q ≠ p := fun e => hp (e ▸ hq)
      rw [PthreadBarrier.inside, hother q hne]
      exact hq
    | trip J _ hcard hJ hnone =>
      obtain ⟨hmain, hdoctor, j, hj⟩ := P.meeting.all_inside hJ hcard P.unique
      refine .inr ⟨hmain, hdoctor, ⟨j, hj, fun i hi => ?_⟩, hnone⟩
      exact P.unique j (P.meeting.seen_of_inside hj) i (P.meeting.seen_of_inside hi)

/-- **A round has three.** A step by which somebody's round of the barrier ends is made with main, the doctor and one
visitor in it, and ends it for all of them. -/
theorem rounds_of_three (arrivals : List Event) (s s' : Clinic) (a : SessionStep) (q : Party)
    (h : Reach step (.init arrivals) s) (hs : s.step a = some s') (hin : s.barrier.inside q)
    (hout : ¬ s'.barrier.inside q) :
    s.barrier.inside .main ∧ s.barrier.inside .doctor ∧ (∃! j, s.barrier.inside (.visitor j)) ∧
      ∀ p, ¬ s'.barrier.inside p := by
  have P := protocol_of_reach h
  refine (keeps_or_trips P (barrier_of_step hs)).resolve_left fun hkeeps => ?_
  exact hout (hkeeps q hin)

/-- The reporter comes last. -/
theorem rounds_of_three_reporter : ∃ s s', Reach step (.init [⟨'R', 0, 6⟩]) s ∧ s.step (.visitor 0) = some s' ∧
    s.barrier.inside .main ∧ s.barrier.inside .doctor ∧ ¬ s'.barrier.inside .main := by
  obtain ⟨s, hr, hs⟩ := Trans.exists_reach_of_run step (.init [⟨'R', 0, 6⟩]) (reporterDay.take 68)
    (fun s => (s.step (.visitor 0)).any fun (s' : Clinic) =>
      decide (s.barrier.inside (.visitor 0)) && decide (¬ s'.barrier.inside (.visitor 0))) (by decide +kernel)
  obtain ⟨s', hs', htrips⟩ := (Option.any_eq_true _ _).1 hs
  rw [Bool.and_eq_true, decide_eq_true_eq, decide_eq_true_eq] at htrips
  obtain ⟨hmain, hdoctor, -, hnone⟩ := rounds_of_three _ s s' _ (.visitor 0) hr hs' htrips.1 htrips.2
  exact ⟨s, s', hr, hs', hmain, hdoctor, hnone .main⟩

end Clinic

end OsLab.A6
