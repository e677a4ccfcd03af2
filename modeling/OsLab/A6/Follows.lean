import OsLab.A6.Refinement

/-!
# What main does is followed by the coarse model (A6/session.c)

A statement of main is inside a coarse step (`ofMain`, `goOn`) or the last one of it (`arrives`).
-/

namespace OsLab.A6

open Function (update)
open Trans (Reach Matched)

namespace Clinic

variable {s s' : Clinic} {c d : Chamber} {w : Kind → List Visitor} {t x : Int} {i : Nat} {u : Thread} {p : VisitorPc}

namespace Sim

theorem exists_step (S : Sim c d w t x s) {e : Chamber} (h : s.rest d i = some e) : ∃ j, c.step j = some e := by
  cases hrests : s.main.rests with
  | false => exact S.ahead hrests i e h
  | true =>
    refine ⟨i, ?_⟩
    rw [S.rests hrests, ← h]
    cases hm : s.main <;> simp only [hm, rest] <;> rw [hm] at hrests <;> cases hrests

section
variable {e z : Chamber} {n : Event} {m : MainPc} {a y : Option Party} {f q : Bool} {g : Kind → Option Party}
  {b : PthreadBarrier Party} {w' : Kind → List Visitor}

/-- main goes on, and the coarse step does not. -/
theorem ofMain (S : Sim c d w t x s)
    (hview : view { s with
      chamber := e, main := m, doctorMutex := a, docDone := q, asstMutex := y, asstDone := f, visitorMutex := g
      barrier := b } = s.view)
    (hcounted : m.counted = s.main.counted) (hleaves : s.doctor = .left → m.leaves = true → x = d.leave)
    (hphase : s.doctor = .left → m.phase e.turn (b.inside .main) = .apart → s.phase = .apart ∧ s.main ≠ .returned)
    (hpc : m.pc s.next = s.main.pc s.next) (hkind : ∀ k, m ≠ .createThread k) (hrests : s.main.rests = false)
    (hrests' : m.rests = false)
    (hrest : ∀ i, rest { s with
      chamber := e, main := m, doctorMutex := a, docDone := q, asstMutex := y, asstDone := f, visitorMutex := g
      barrier := b } d i =
        s.rest d i) :
    Sim c d w t x { s with
      chamber := e, main := m, doctorMutex := a, docDone := q, asstMutex := y, asstDone := f, visitorMutex := g
      barrier := b } := by
  refine ⟨hview.trans S.chamber, fun k => ?_, S.time, S.here, hleaves, fun hd hp => ?_,
    S.guests, S.waiting, S.pc.trans hpc.symm, fun k h => absurd h (hkind k), fun h => ?_,
    fun _ i e' he => S.ahead hrests i e' (hrest i ▸ he)⟩
  · simp only [hcounted]
    exact S.lengths k
  · obtain ⟨hp', hne⟩ := hphase hd hp
    exact ⟨(S.away hd hp').1, fun _ => (S.away hd hp').2 hne⟩
  · exact absurd (hrests'.symm.trans h) (by simp)

/-- While main is with no visitor the lines are as long as it says. -/
theorem quiet (S : Sim c d w t x s) (P : s.Protocol) (ha : s.main.aside = true) :
    (∀ k, (w k).length = (d.waiting k).length) ∧ (∀ k, s.visitorDone k = false) ∧ ∀ u ∈ s.threads, u.pc ≠ .visit := by
  obtain ⟨-, hholds, hcalls, -, hmeets⟩ := MainPc.aside_spec ha
  have C := P.calling
  rw [hholds, hcalls, hmeets] at C
  have hflags := C.quiet.1
  refine ⟨fun k => ?_, hflags, nobody P (hmeets _)⟩
  have hlength := S.lengths k
  simpa [hflags k] using hlength

/-- While main is alone the two show the same. -/
theorem level (S : Sim c d w t x s) (P : s.Protocol) (ha : s.main.aside = true)
    (hphase : s.doctor = .left → s.phase = .apart) :
    s.view = d.known w ∧ (∀ k, (w k).length = (d.waiting k).length) ∧ (∀ k, s.visitorDone k = false) ∧
      ∀ u ∈ s.threads, u.pc ≠ .visit := by
  obtain ⟨hlengths, hflags, hnobody⟩ := S.quiet P ha
  have htime := S.time.nobody hnobody
  have hx : x = d.doneTime := by
    by_cases hd : s.doctor = .left
    · exact (S.away hd (hphase hd)).1
    · exact (S.here hd).1
  refine ⟨?_, hlengths, hflags, hnobody⟩
  rw [S.chamber, htime, hx]
  rfl

/-- While main is alone and waits for no visitor it sees what the coarse model shows. -/
theorem shows (S : Sim c d w t x s) (P : s.Protocol) (A : s.Alone) (hview : s.view = s.chamber) : s.chamber = d.known w :=
  hview.symm.trans (S.level P A.aside fun _ => A.phase).1

/-- main goes on alone, and the coarse step with it. -/
theorem alone (S : Sim c d w t x s) (P : s.Protocol) (A : s.Alone) {c' : Chamber}
    (hview : view { s with chamber := e, next := n, main := m, doctorMutex := a } = z.known w) (hline : SameLine z d)
    (hleaves : m.leaves = false) (hpc : z.pc = m.pc n) (hkind : ∀ k, m = .createThread k → kindOf n.type = some k)
    (hrests : m.rests = true → c' = z)
    (hahead : m.rests = false → ∀ i e', rest { s with chamber := e, next := n, main := m, doctorMutex := a } z i = some e' →
      ∃ j, c'.step j = some e') :
    Sim c' z w z.currentTime z.doneTime { s with chamber := e, next := n, main := m, doctorMutex := a } := by
  obtain ⟨-, hlengths, hflags, hnobody⟩ := S.level P A.aside fun _ => A.phase
  obtain ⟨hadmitted, hwaiting, hjoins⟩ := hline
  refine ⟨hview, fun k => ?_, ?_, fun hd => ⟨rfl, ?_⟩, fun _ hl => ?_, fun hd _ => ⟨rfl, fun _ => ?_⟩, ?_, fun k => ?_, hpc,
    hkind, hrests, hahead⟩
  · simp [hflags k, hlengths k, hwaiting]
  · exact ⟨fun u hu hvisit => absurd hvisit (hnobody u hu), fun _ => rfl⟩
  · rw [hjoins]
    exact (S.here hd).2
  · exact absurd (hleaves.symm.trans hl) (by simp)
  · rw [hjoins]
    exact (S.away hd A.phase).2 A.here
  · rw [hadmitted]
    exact S.guests
  · rw [hwaiting, hadmitted]
    exact S.waiting k

/-- The coarse step is not done yet. -/
theorem goOn (S : Sim c d w t x s) (P : s.Protocol) (A : s.Alone)
    (hview : view { s with chamber := e, next := n, main := m, doctorMutex := a } = z.known w) (hline : SameLine z d)
    (hleaves : m.leaves = false) (hpc : z.pc = m.pc n) (hkind : ∀ k, m = .createThread k → kindOf n.type = some k)
    (hrests : m.rests = false)
    (hrest : ∀ i, rest { s with chamber := e, next := n, main := m, doctorMutex := a } z i = s.rest d i) :
    Follows c { s with chamber := e, next := n, main := m, doctorMutex := a } :=
  .stay ⟨z, w, _, _, S.alone P A hview hline hleaves hpc hkind (fun h => absurd (hrests.symm.trans h) (by simp))
    fun _ i _ he => S.exists_step (hrest i ▸ he)⟩

/-- The coarse step is done. -/
theorem arrives (S : Sim c d w t x s) (P : s.Protocol) (A : s.Alone)
    (hview : view { s with chamber := e, next := n, main := m, doctorMutex := a } = z.known w) (hline : SameLine z d)
    (hleaves : m.leaves = false) (hpc : z.pc = m.pc n) (hrests : m.rests = true) (hrest : s.rest d 0 = some z) :
    Follows c { s with chamber := e, next := n, main := m, doctorMutex := a } := by
  obtain ⟨j, hj⟩ := S.exists_step hrest
  exact .move hj ⟨z, w, _, _, S.alone P A hview hline hleaves hpc (fun k hk => by rw [hk] at hrests; cases hrests)
    (fun _ => rfl) fun h => absurd (hrests.symm.trans h) (by simp)⟩

end

theorem stepLoop (S : Sim c d w t x s) (P : s.Protocol) (hm : s.main = .loop) : Follows c s.loop := by
  have A : s.Alone := ⟨by rw [hm]; rfl, by rw [Clinic.phase, hm]; rfl, by simp [hm]⟩
  have hchamber := S.shows P A (by rw [view, hm])
  have hE : s.chamber.E = d.E := by rw [hchamber]; rfl
  have hpc : d.pc = .top := by rw [S.pc, hm]; rfl
  have hstep : ∀ i, s.rest d i = d.iterate i := by
    intro i
    simp only [rest, hm, Chamber.step, hpc]
  have hcheck : s.chamber.checkSession = d.checkSession.known w := by rw [hchamber, Chamber.known_checkSession]
  obtain ⟨hadmitted, hwaiting, hjoins, hpc', -⟩ := d.checkSession_eq
  simp only [loop]
  split_ifs with hempty hleaves
  · refine S.arrives (z := { d with pc := .pending }) P A (by rw [view, hchamber]; rfl) ⟨rfl, rfl, rfl⟩ rfl rfl rfl ?_
    rw [hstep, Chamber.iterate, if_pos (by rwa [← hE])]
  · refine S.goOn P A hcheck ⟨hadmitted, hwaiting, hjoins⟩ rfl (hpc'.trans hpc) (by simp) rfl fun i => ?_
    rw [hcheck, hE] at hleaves
    rw [hstep, Chamber.iterate, if_neg (by rwa [← hE]), Chamber.closeSession_of_leaves hleaves, ← hE]
    rfl
  · refine S.goOn P A hcheck ⟨hadmitted, hwaiting, hjoins⟩ rfl (hpc'.trans hpc) (by simp) rfl fun i => ?_
    rw [hcheck, hE] at hleaves
    rw [hstep, Chamber.iterate, if_neg (by rwa [← hE]), Chamber.closeSession_of_stays hleaves, ← hE]
    rfl

theorem stepDispatch (S : Sim c d w t x s) (P : s.Protocol) (hm : s.main = .dispatch) : Follows c s.dispatch := by
  have A : s.Alone := ⟨by rw [hm]; rfl, by rw [Clinic.phase, hm]; rfl, by simp [hm]⟩
  have hchamber := S.shows P A (by rw [view, hm])
  have hpc : d.pc = .top := by rw [S.pc, hm]; rfl
  have hstep : ∀ i, s.rest d i = d.handle s.next i := by
    intro i
    simp only [rest, hm]
  simp only [dispatch]
  split_ifs with hdoctor hahead
  · refine S.arrives (z := { d with E := d.E.delevent }) P A (by rw [view, hchamber]; rfl) ⟨rfl, rfl, rfl⟩ rfl hpc rfl ?_
    rw [hstep, Chamber.handle, if_pos hdoctor]
  · refine S.arrives (z := { d with docArrived := .awaited, pc := .others s.next }) P A (by rw [view, hchamber]; rfl)
      ⟨rfl, rfl, rfl⟩ rfl rfl rfl ?_
    have hahead' : d.currentTime < s.next.time ∨ d.docArrived = .awaited := by rwa [hchamber] at hahead
    rw [hstep, Chamber.handle, if_neg hdoctor, if_pos hahead']
  · have hahead' : ¬ (d.currentTime < s.next.time ∨ d.docArrived = .awaited) := by rwa [hchamber] at hahead
    have harrive : ∀ i, s.rest d i = d.arrive s.next i := by
      intro i
      rw [hstep, Chamber.handle, if_neg hdoctor, if_neg hahead']
    split
    case h_1 k hkind =>
      have hrefusal : s.chamber.refusal s.next k = d.refusal s.next k := by rw [hchamber]; cases k <;> rfl
      rw [hrefusal]
      split
      case h_1 reason hreason =>
        refine S.arrives (z := d.turnAway s.next k reason) P A (by rw [view, hchamber]; rfl) ⟨rfl, rfl, rfl⟩ rfl hpc rfl ?_
        rw [harrive, Chamber.arrive, hkind]
        simp only [hreason]
      case h_2 hreason =>
        refine S.goOn P A (by rw [view, hchamber]) ⟨rfl, rfl, rfl⟩ rfl hpc (fun l hl => ?_) rfl fun i => ?_
        · rw [hkind, (MainPc.createThread.inj hl)]
        · rw [harrive, Chamber.arrive, hkind]
          simp only [hreason, rest]
    case h_2 hkind =>
      refine S.goOn P A (by rw [view, hchamber]) ⟨rfl, rfl, rfl⟩ rfl hpc (by simp) rfl fun i => ?_
      rw [harrive, Chamber.arrive, hkind]
      rfl

theorem stepReceive (S : Sim c d w t x s) (P : s.Protocol) (hm : s.main = .receive) : Follows c s.receive := by
  have A : s.Alone := ⟨by rw [hm]; rfl, by rw [Clinic.phase, hm]; rfl, by simp [hm]⟩
  have hlengths := (S.quiet P A.aside).1
  have hchamber := S.shows P A (by rw [view, hm])
  have hpc : d.pc = .top := by rw [S.pc, hm]; rfl
  have hturn : s.chamber.turn = d.turn := by rw [hchamber, Chamber.known_turn hlengths]
  have hstep : ∀ i, s.rest d i = d.receive s.next i := by
    intro i
    simp only [rest, hm]
  simp only [receive]
  split_ifs with hfree hpast hwait
  · have hfree' : d.docArrived = .free := by rwa [hchamber] at hfree
    have hpast' : s.next.time < d.currentTime := by rwa [hchamber] at hpast
    refine S.arrives (z := { d with docArrived := .busy, E := d.E.delevent }) P A (by rw [view, hchamber]; rfl)
      ⟨rfl, rfl, rfl⟩ rfl hpc rfl ?_
    rw [hstep, Chamber.receive, if_pos hfree', if_pos hpast']
  · have hfree' : d.docArrived = .free := by rwa [hchamber] at hfree
    have hpast' : ¬ s.next.time < d.currentTime := by rwa [hchamber] at hpast
    refine S.goOn P A (by rw [view, hchamber]) ⟨rfl, rfl, rfl⟩ rfl hpc (by simp) rfl fun i => ?_
    rw [hstep, Chamber.receive, if_pos hfree', if_neg hpast']
    rfl
  · have hfree' : d.docArrived = .free := by rwa [hchamber] at hfree
    have hpast' : ¬ s.next.time < d.currentTime := by rwa [hchamber] at hpast
    refine S.goOn P A (by rw [view, hchamber]) ⟨rfl, rfl, rfl⟩ rfl hpc (by simp) rfl fun i => ?_
    rw [hstep, Chamber.receive, if_pos hfree', if_neg hpast']
    rfl
  · have hfree' : ¬ d.docArrived = .free := by rwa [hchamber] at hfree
    refine S.goOn P A (by rw [view, hchamber]) ⟨rfl, rfl, rfl⟩ rfl hpc (by simp) rfl fun i => ?_
    rw [hstep, Chamber.receive, if_neg hfree']
    rfl

theorem stepOthers (S : Sim c d w t x s) (P : s.Protocol) (hm : s.main = .others) : Follows c s.others := by
  have A : s.Alone := ⟨by rw [hm]; rfl, by rw [Clinic.phase, hm]; rfl, by simp [hm]⟩
  have hlengths := (S.quiet P A.aside).1
  have hchamber := S.shows P A (by rw [view, hm])
  have hpc : d.pc = .others s.next := by rw [S.pc, hm]; rfl
  have hturn : s.chamber.turn = d.turn := by rw [hchamber, Chamber.known_turn hlengths]
  have hstep : ∀ i, s.rest d i = d.serveOthers s.next i := by
    intro i
    simp only [rest, hm, Chamber.step, hpc]
  have hcheck : s.chamber.checkSession = d.checkSession.known w := by rw [hchamber, Chamber.known_checkSession]
  obtain ⟨hadmitted, hwaiting, hjoins, hpc', -⟩ := d.checkSession_eq
  simp only [others]
  rw [hturn]
  split_ifs with hwait hleaves
  · have hwait' : d.currentTime < s.next.time ∧ d.turn ≠ none := by rwa [hchamber] at hwait
    refine S.goOn P A (by rw [view, hchamber]) ⟨rfl, rfl, rfl⟩ rfl hpc (by simp) rfl fun i => ?_
    rw [hstep, Chamber.serveOthers, if_pos hwait']
    exact Option.map_id'
  · have hwait' : ¬ (d.currentTime < s.next.time ∧ d.turn ≠ none) := by rwa [hchamber] at hwait
    refine S.goOn P A hcheck ⟨hadmitted, hwaiting, hjoins⟩ rfl (hpc'.trans hpc) (by simp) rfl fun i => ?_
    rw [hcheck] at hleaves
    rw [hstep, Chamber.serveOthers, if_neg hwait', Chamber.closeSession_of_leaves hleaves]
    rfl
  · have hwait' : ¬ (d.currentTime < s.next.time ∧ d.turn ≠ none) := by rwa [hchamber] at hwait
    refine S.goOn P A hcheck ⟨hadmitted, hwaiting, hjoins⟩ rfl (hpc'.trans hpc) (by simp) rfl fun i => ?_
    rw [hcheck] at hleaves
    rw [hstep, Chamber.serveOthers, if_neg hwait', Chamber.closeSession_of_stays hleaves]
    rfl

theorem stepPending (S : Sim c d w t x s) (P : s.Protocol) (hm : s.main = .pending) :
    Follows c { s with
      main := if s.chamber.turn ≠ none then .wake .lock (.serve .pending) else .wake .lock (.leave .final) } := by
  have A : s.Alone := ⟨by rw [hm]; rfl, by rw [Clinic.phase, hm]; rfl, by simp [hm]⟩
  have hlengths := (S.quiet P A.aside).1
  have hchamber := S.shows P A (by rw [view, hm])
  have hpc : d.pc = .pending := by rw [S.pc, hm]; rfl
  have hturn : s.chamber.turn = d.turn := by rw [hchamber, Chamber.known_turn hlengths]
  have hstep : ∀ i, s.rest d i = d.servePending i := by
    intro i
    simp only [rest, hm, Chamber.step, hpc]
  rw [hturn]
  split_ifs with hwait
  · refine S.goOn P A (by rw [view, hchamber]) ⟨rfl, rfl, rfl⟩ rfl hpc (by simp) rfl fun i => ?_
    rw [hstep, Chamber.servePending, if_pos hwait]
    exact Option.map_id'
  · refine S.goOn P A (by rw [view, hchamber]) ⟨rfl, rfl, rfl⟩ rfl hpc (by simp) rfl fun i => ?_
    rw [hstep, Chamber.servePending, if_neg hwait]
    rfl

/-- Where main goes on when the visitor has been served. -/
theorem goesBack (S : Sim c d w t x s) (P : s.Protocol) (A : s.Alone) {v : Serve} {e z : Chamber}
    (hview : e = z.known w) (hline : SameLine z d) (hpc : z.pc = v.pc s.next)
    (hrest : ∀ i, s.rest d i = some (z.afterVisit v s.next)) : Follows c { s with chamber := e, main := back v } := by
  cases v with
  | receive => exact S.goOn P A hview hline rfl hpc (fun _ h => by cases h) rfl fun i => (hrest i).symm
  | others => exact S.arrives P A hview hline rfl hpc rfl (hrest 0)
  | pending => exact S.arrives P A hview hline rfl hpc rfl (hrest 0)

theorem stepTurn {v : Serve} (S : Sim c d w t x s) (P : s.Protocol) (hm : s.main = .turn v) :
    Follows c { s with main := match s.chamber.turn with
      | some k => .call .lock k v
      | none => back v } := by
  have ha : s.main.aside = true := by rw [hm]; rfl
  have hpc : d.pc = v.pc s.next := by rw [S.pc, hm]; rfl
  have hturn : s.chamber.turn = d.turn := by
    have hchamber : s.chamber = { d.known w with currentTime := t, doneTime := x } := by rw [← S.chamber, view, hm]
    rw [hchamber, ← Chamber.known_turn (S.quiet P ha).1]
    rfl
  have hstep : ∀ i, s.rest d i = (d.serve i).map (Chamber.afterVisit v s.next) := by
    intro i
    simp only [rest, hm]
  rw [hturn]
  split
  case h_1 k hk =>
    refine .stay ⟨d, w, t, x, S.ofMain (by simp only [view, hm]) (by rw [hm]; rfl) (fun _ h => by cases h)
      (fun _ h => by cases h) (by rw [hm]; rfl) (by simp) (by rw [hm]; rfl) rfl fun i => ?_⟩
    rw [hstep, Chamber.serve_of_turn hk, Option.map_map]
    rfl
  case h_2 hk =>
    have A : s.Alone := ⟨ha, by rw [Clinic.phase, hm]; exact if_pos (hturn.trans hk), by simp [hm]⟩
    have hview := (S.level P ha fun _ => A.phase).1
    refine S.goesBack (z := d) P A (by rw [← hview, view, hm]) ⟨rfl, rfl, rfl⟩ hpc fun i => ?_
    rw [hstep, Chamber.serve_of_nobody hk, Option.map_some]

theorem stepAddevent {v : Serve} (S : Sim c d w t x s) (P : s.Protocol) (hm : s.main = .addevent v) :
    Follows c { s with
      chamber := { s.chamber with E := s.chamber.E.enqueue ⟨'D', s.chamber.currentTime, 0⟩ }
      main := back v } := by
  have A : s.Alone := ⟨by rw [hm]; rfl, by rw [Clinic.phase, hm]; rfl, by simp [hm]⟩
  have hchamber := S.shows P A (by rw [view, hm])
  refine S.goesBack (z := d.addevent) P A (by rw [hchamber]; rfl) ⟨rfl, rfl, rfl⟩ ?_ fun i => by simp only [rest, hm]
  rw [show d.addevent.pc = d.pc from rfl, S.pc, hm]
  rfl

theorem stepFinish (S : Sim c d w t x s) (P : s.Protocol) (hm : s.main = .finish) :
    Follows c { s with chamber := s.chamber.finish s.next, main := .loop } := by
  have A : s.Alone := ⟨by rw [hm]; rfl, by rw [Clinic.phase, hm]; rfl, by simp [hm]⟩
  have hchamber := S.shows P A (by rw [view, hm])
  have hpc : d.pc = .top := by rw [S.pc, hm]; rfl
  refine S.arrives (z := d.finish s.next) P A (by rw [view, hchamber]; rfl) ⟨rfl, rfl, rfl⟩ rfl hpc rfl ?_
  simp only [rest, hm]

theorem stepResume (S : Sim c d w t x s) (P : s.Protocol) (hm : s.main = .resume) :
    Follows c { s with
      chamber := { s.chamber with
        currentTime := if s.chamber.currentTime < s.next.time then s.next.time else s.chamber.currentTime
        docArrived := .free }
      main := .loop } := by
  have A : s.Alone := ⟨by rw [hm]; rfl, by rw [Clinic.phase, hm]; rfl, by simp [hm]⟩
  have hchamber := S.shows P A (by rw [view, hm])
  refine S.arrives (z := d.resume s.next) P A (by rw [view, hchamber]; rfl) ⟨rfl, rfl, rfl⟩ rfl rfl rfl ?_
  simp only [rest, hm]

theorem not_together (P : s.Protocol) (hd : s.doctor = .left) : s.phase ≠ .together := by
  intro hphase
  have hpaired := P.rousing.paired
  rw [hphase, show s.place = .gone by rw [place, hd]; rfl] at hpaired
  exact hpaired.elim

theorem not_alone (P : s.Protocol) (hd : s.doctor = .left) : s.phase ≠ .alone := by
  intro hphase
  have hpaired := P.rousing.paired
  rw [hphase, show s.place = .gone by rw [place, hd]; rfl] at hpaired
  exact hpaired.elim

theorem stepCreateDoctor (S : Sim c d w t x s) (P : s.Protocol) (hm : s.main = .createDoctor) :
    Follows c { s with doctor := .lock, main := .loop } := by
  have hborn : s.doctor ≠ .left := fun hd => not_alone P hd (by rw [Clinic.phase, hm]; rfl)
  refine .stay ⟨d, w, t, x, ?_, fun k => ?_, S.time, fun _ => S.here hborn, fun h => (by cases h), fun h => (by cases h),
    S.guests, S.waiting, S.pc.trans (by rw [hm]; rfl), fun _ h => (by cases h), fun _ => S.rests (by rw [hm]; rfl),
    fun h => (by cases h)⟩
  · rw [← S.chamber, view, view, hm]
  · have hlength := S.lengths k
    rw [hm] at hlength
    exact hlength

theorem stepAdmitted {k : Kind} (S : Sim c d w t x s) (hm : s.main = .admitted k) :
    Follows c { s with chamber := s.chamber.admitVisitor s.next k, main := .receive } :=
  .stay ⟨d, w, t, x, S.ofMain (by simp only [view, hm]) (by rw [hm]; rfl) (fun _ h => by cases h)
    (fun _ _ => ⟨by rw [Clinic.phase, hm]; rfl, by simp [hm]⟩) (by rw [hm]; rfl) (by simp) (by rw [hm]; rfl) rfl
    fun i => by simp only [rest, hm]⟩

/-! ### main wakes the doctor -/

/-- A doctor that has left while main was alone is told nothing new. -/
theorem gone_leave (S : Sim c d w t x s) (hphase : s.phase = .apart) (hm : s.main ≠ .returned) (hd : s.doctor = .left) :
    x = d.leave := by
  obtain ⟨hx, hj⟩ := S.away hd hphase
  have hjoined := hj hm
  rw [Chamber.leave, if_neg fun h => by omega]
  exact hx

theorem stepWakeSet {o : Wake} (S : Sim c d w t x s) (hm : s.main = .wake .set o) :
    Follows c { s with
      chamber := if o = .leave .final then { s.chamber with docSessionDone := true } else s.chamber
      docDone := true
      main := .wake .signal o } := by
  have hphase : s.phase = .apart := by rw [Clinic.phase, hm]; rfl
  have hleft := S.gone_leave hphase (by simp [hm])
  by_cases ho : o = .leave .final
  · have hchamber : s.chamber = { d.known w with currentTime := t, doneTime := x } := by rw [← S.chamber, view, hm]
    rw [if_pos ho, hchamber]
    subst ho
    refine .stay ⟨{ d with docSessionDone := true }, w, t, x, rfl, fun k => ?_, S.time, S.here, fun hd _ => hleft hd,
      fun _ hp => absurd hp (by simp [Clinic.phase, MainPc.phase]), S.guests, S.waiting, S.pc.trans (by rw [hm]; rfl),
      fun _ h => (by cases h), fun h => (by cases h), fun _ i e he => S.ahead (by rw [hm]; rfl) i e ?_⟩
    · have hlength := S.lengths k
      rw [hm] at hlength
      exact hlength
    · simpa only [rest, hm, Chamber.leaving] using he
  · rw [if_neg ho]
    refine .stay ⟨d, w, t, x, S.ofMain (by simp only [view, hm]) (by rw [hm]; rfl) (fun hd _ => hleft hd)
      (fun _ hp => absurd hp (by simp [MainPc.phase])) ?_ (by simp) (by rw [hm]; rfl) rfl fun i => ?_⟩
    · rw [hm]
      cases o <;> rfl
    · cases o with
      | leave l =>
        cases l with
        | final => exact absurd rfl ho
        | top | others => simp only [rest, hm]
      | serve v => simp only [rest, hm]

theorem stepWake {p : WakePc} {o : Wake} (S : Sim c d w t x s) (hm : s.main = .wake p o)
    (h : s.wakeDoctor p o = some s') : Follows c s' := by
  cases p with
  | lock =>
    obtain ⟨m, -, rfl⟩ := Option.map_eq_some_iff.1 h
    refine .stay ⟨d, w, t, x, S.ofMain (by simp only [view, hm]) (by rw [hm]; rfl) (fun _ hl => by cases hl)
      (fun _ _ => ⟨by rw [Clinic.phase, hm]; rfl, by simp [hm]⟩) ?_ (by simp) (by rw [hm]; rfl) rfl fun i => ?_⟩
    · rw [hm]
      cases o <;> rfl
    · cases o with
      | leave l => cases l <;> simp only [rest, hm]
      | serve v => simp only [rest, hm]
  | set =>
    cases h
    exact S.stepWakeSet hm
  | signal =>
    cases h
    have S' : Sim c d w t x { s with main := .wake .unlock o } := by
      refine S.ofMain (by simp only [view, hm]) (by rw [hm]; rfl) (fun hd hl => S.leaves hd ?_)
        (fun _ hp => absurd hp (by simp [MainPc.phase])) ?_ (by simp) (by rw [hm]; rfl) rfl fun i => ?_
      · rw [hm]
        cases o with
        | leave l => rfl
        | serve v => cases hl
      · rw [hm]
        cases o <;> rfl
      · cases o with
        | leave l => cases l <;> simp only [rest, hm]
        | serve v => simp only [rest, hm]
    by_cases hb : s.doctor = .blocked
    · rw [if_pos hb]
      exact .stay ⟨d, w, t, x, S'.ofDoctor (by simp [hb]) (by simp)⟩
    · rw [if_neg hb]
      exact .stay ⟨d, w, t, x, S'⟩
  | unlock =>
    cases h
    cases o with
    | leave l =>
      refine .stay ⟨d, w, t, x, S.ofMain (by simp only [view, hm]) (by rw [hm]; rfl)
        (fun hd _ => S.leaves hd (by rw [hm]; rfl)) (fun _ hp => absurd hp (by simp [MainPc.phase])) (by rw [hm]; rfl)
        (by simp) (by rw [hm]; rfl) rfl fun i => ?_⟩
      cases l <;> simp only [rest, hm]
    | serve v =>
      exact .stay ⟨d, w, t, x, S.ofMain (by simp only [view, hm]) (by rw [hm]; rfl) (fun _ hl => by cases hl)
        (fun _ hp => absurd hp (by simp [MainPc.phase])) (by rw [hm]; rfl) (by simp) (by rw [hm]; rfl) rfl
        fun i => by simp only [rest, hm]⟩

/-- main joins the doctor. -/
theorem stepJoin {l : Leave} (S : Sim c d w t x s) (P : s.Protocol) (hm : s.main = .join l) (hd : s.doctor = .left) :
    Follows c { s with main := behind l } := by
  obtain ⟨hlengths, hflags, -⟩ := S.quiet P (by rw [hm]; rfl)
  have hx := S.leaves hd (by rw [hm]; rfl)
  have hchamber : s.chamber = { d.known w with currentTime := t, doneTime := x } := by rw [← S.chamber, view, hm]
  cases l with
  | top | others =>
    refine .stay ⟨d.doctorLeaves, w, t, x, hchamber, fun k => ?_, S.time, fun h => absurd hd h, fun _ h => (by cases h),
      fun _ _ => ⟨hx, fun _ => Nat.succ_pos _⟩, S.guests, S.waiting, S.pc.trans (by rw [hm]; rfl), fun _ h => (by cases h),
      fun h => (by cases h), fun _ i e he => S.ahead (by rw [hm]; rfl) i e ?_⟩
    · simp only [hflags k, Bool.false_eq_true, false_and, if_false, Nat.sub_zero]
      exact hlengths k
    · simp only [rest, hm]
      exact he
  | final =>
    obtain ⟨j, hj⟩ := S.exists_step (i := 0) (e := d.returned) (by simp only [rest, hm, Chamber.leaving])
    refine .move hj ⟨d.returned, w, t, x, hchamber, fun k => ?_, S.time, fun h => absurd hd h, fun _ h => (by cases h),
      fun _ _ => ⟨hx, fun h => absurd rfl h⟩, S.guests, S.waiting, rfl, fun _ h => (by cases h), fun _ => rfl,
      fun h => (by cases h)⟩
    simp only [hflags k, Bool.false_eq_true, false_and, if_false, Nat.sub_zero]
    exact hlengths k

/-! ### main waits for `asst_done` -/

theorem asstTo {p q : AsstPc} {o : Awaited} {y : Option Party} {f : Bool} (S : Sim c d w t x s) (hm : s.main = .asst p o) :
    Sim c d w t x { s with main := .asst q o, asstMutex := y, asstDone := f } := by
  cases o with
  | visitor k =>
    exact S.ofMain (by simp only [view, hm]) (by rw [hm]; rfl) (fun _ hl => by cases hl)
      (fun _ _ => ⟨by rw [Clinic.phase, hm]; cases p <;> rfl, by simp [hm]⟩) (by rw [hm]; rfl) (by simp) (by rw [hm]; rfl)
      rfl fun i => by simp only [rest, hm]
  | doctor v =>
    exact S.ofMain (by simp only [view, hm]) (by rw [hm]; rfl) (fun _ hl => by cases hl)
      (fun _ hp => absurd hp (by cases q <;> simp [MainPc.phase])) (by rw [hm]; rfl) (by simp) (by rw [hm]; rfl) rfl
      fun i => by simp only [rest, hm]

theorem stepAsst {p : AsstPc} {o : Awaited} (S : Sim c d w t x s) (P : s.Protocol) (hm : s.main = .asst p o)
    (h : s.waitAsst p o = some s') : Follows c s' := by
  cases p with
  | lock | relock =>
    obtain ⟨y, -, rfl⟩ := Option.map_eq_some_iff.1 h
    exact .stay ⟨d, w, t, x, S.asstTo hm⟩
  | test | wait | clear =>
    cases h
    exact .stay ⟨d, w, t, x, S.asstTo hm⟩
  | blocked => cases h
  | unlock =>
    cases h
    cases o with
    | visitor k =>
      exact .stay ⟨d, w, t, x, S.ofMain (by simp only [view, hm]) (by rw [hm]; rfl) (fun _ hl => by cases hl)
        (fun _ _ => ⟨by rw [Clinic.phase, hm]; rfl, by simp [hm]⟩) (by rw [hm]; rfl) (by simp) (by rw [hm]; rfl) rfl
        fun i => by simp only [rest, hm]⟩
    | doctor v =>
      have htogether : s.phase = .together := by rw [Clinic.phase, hm]; rfl
      exact .stay ⟨d, w, t, x, S.ofMain (by simp only [view, hm]) (by rw [hm]; rfl) (fun _ hl => by cases hl)
        (fun hd _ => absurd htogether (not_together P hd)) (by rw [hm]; rfl) (by simp) (by rw [hm]; rfl) rfl
        fun i => by simp only [rest, hm]⟩

/-- The visitor is in line from the creation of its thread on. -/
theorem stepCreateThread {k : Kind} (S : Sim c d w t x s) (P : s.Protocol) (hm : s.main = .createThread k) :
    Follows c { s with
      threads := s.threads ++ [⟨k, s.next.duration, .lock⟩]
      main := .asst .lock (.visitor k) } := by
  have hphase : s.phase = .apart := by rw [Clinic.phase, hm]; rfl
  obtain ⟨hlengths, hflags, -⟩ := S.quiet P (by rw [hm]; rfl)
  have hchamber : s.chamber = { d.known w with currentTime := t, doneTime := x } := by rw [← S.chamber, view, hm]
  refine .stay ⟨d.admitVisitor s.next k, update w k (w k ++ [⟨d.num k + 1, s.next⟩]), t, x, ?_, fun l => ?_, ?_, S.here,
    fun _ h => (by cases h), fun hd _ => ?_, ?_, fun l => ?_, S.pc.trans (by rw [hm]; rfl), fun _ h => (by cases h),
    fun h => (by cases h), fun _ i e he => S.ahead (by rw [hm]; rfl) i e ?_⟩
  · show s.chamber.admitVisitor s.next k = _
    rw [hchamber]
    rfl
  · simp only [hflags l, Bool.false_eq_true, false_and, if_false, Nat.sub_zero]
    show (update w k _ l).length = (update d.waiting k _ l).length
    by_cases hl : l = k
    · simp [hl, hlengths]
    · simp [hl, hlengths]
  · exact S.time.concat (by simp)
  · exact ⟨(S.away hd hphase).1, fun _ => (S.away hd hphase).2 (by simp [hm])⟩
  · exact List.rel_append S.guests (.cons ⟨S.kind k hm, rfl⟩ .nil)
  · show update d.waiting k _ l = waitingOf (s.threads ++ _) (d.admitted ++ _) l
    rw [waitingOf_concat S.guests rfl]
    by_cases hl : l = k
    · rw [hl, Function.update_self, if_pos rfl, S.waiting]
    · rw [Function.update_of_ne hl, if_neg (Ne.symm hl), S.waiting]
  · simpa only [rest, hm] using he

/-! ### main calls a visitor -/

/-- main counts the visitor that it has called. -/
theorem stepCount {k : Kind} {v : Serve} (S : Sim c d w t x s) (P : s.Protocol) (hm : s.main = .call .count k v) :
    Follows c { s with chamber := s.chamber.callNext k, main := .call .signal k v } := by
  have C := P.calling
  rw [hm] at C
  have hset := C.set k rfl
  have honly := (C.called k hset).1
  have hchamber : s.chamber = { d.known w with currentTime := t, doneTime := x } := by rw [← S.chamber, view, hm]
  have hlengths : ∀ l, (w l).length = (d.waiting l).length := by
    intro l
    simpa [hm, MainPc.counted] using S.lengths l
  refine .stay ⟨d.count k, update w k (w k).tail, t, x, ?_, fun l => ?_, S.time, S.here, fun _ hl => (by cases hl),
    fun _ hp => absurd hp (by simp [Clinic.phase, MainPc.phase]), S.guests, S.waiting, S.pc.trans (by rw [hm]; rfl),
    fun _ h => (by cases h), fun h => (by cases h), fun _ i e he => S.ahead (by rw [hm]; rfl) i e ?_⟩
  · show s.chamber.callNext k = _
    rw [hchamber]
    rfl
  · show (update w k (w k).tail l).length = (d.waiting l).length - _
    by_cases hl : l = k
    · simp [hl, hset, hlengths, MainPc.counted]
    · have hoff : s.visitorDone l ≠ true := fun h => hl (honly l h)
      simp [hl, hoff, hlengths]
  · simp only [rest, hm] at he ⊢
    exact he

theorem stepCall {p : CallPc} {k : Kind} {v : Serve} {n : Nat} (S : Sim c d w t x s) (P : s.Protocol)
    (hm : s.main = .call p k v) (h : s.callVisitor p k v n = some s') : Follows c s' := by
  have C := P.calling
  rw [hm] at C
  cases p with
  | lock =>
    obtain ⟨m, -, rfl⟩ := Option.map_eq_some_iff.1 h
    exact .stay ⟨d, w, t, x, S.ofMain (by simp only [view, hm]) (by rw [hm]; rfl) (fun _ hl => by cases hl)
      (fun _ hp => absurd hp (by simp [MainPc.phase])) (by rw [hm]; rfl) (by simp) (by rw [hm]; rfl) rfl
      fun i => by simp only [rest, hm]⟩
  | set =>
    cases h
    have hflags := C.quiet.1
    refine .stay ⟨d, w, t, x, ?_, fun l => ?_, S.time, S.here, fun _ hl => (by cases hl),
      fun _ hp => absurd hp (by simp [Clinic.phase, MainPc.phase]), S.guests, S.waiting, S.pc.trans (by rw [hm]; rfl),
      fun _ hk => (by cases hk), fun hr => (by cases hr), fun _ i e he => S.ahead (by rw [hm]; rfl) i e ?_⟩
    · rw [← S.chamber, view, view, hm]
    · simpa [hflags l, MainPc.counted] using S.lengths l
    · simpa only [rest, hm] using he
  | count =>
    cases h
    exact S.stepCount P hm
  | signal =>
    have S' : Sim c d w t x { s with main := .call .unlock k v } :=
      S.ofMain (by simp only [view, hm]) (by rw [hm]; rfl) (fun _ hl => by cases hl)
        (fun _ hp => absurd hp (by simp [MainPc.phase])) (by rw [hm]; rfl) (by simp) (by rw [hm]; rfl) rfl
        fun i => by simp only [rest, hm]
    simp only [callVisitor] at h
    split at h
    case h_1 u hu =>
      split_ifs at h with hwaits
      cases h
      have hpc : u.pc = .blocked := (by simpa [Thread.waitsFor] using hwaits : _ ∧ _).2
      exact .stay ⟨d, w, t, x, S'.setThread hu (by rw [hpc]; rfl) (by simp [hpc]) (by simp)⟩
    case h_2 =>
      split_ifs at h
      cases h
      exact .stay ⟨d, w, t, x, S'⟩
  | unlock =>
    cases h
    have hset := C.set k rfl
    have hflag := flagOf_some hset (C.called k hset).1
    exact .stay ⟨d, w, t, x, S.ofMain (by simp only [view, hm]) (by rw [hm]; rfl) (fun _ hl => by cases hl)
      (fun _ hp => absurd hp (by simp [MainPc.phase])) (by rw [hm]; rfl) (by simp) (by rw [hm]; rfl) rfl
      fun i => by simp only [rest, hm, hflag]⟩

theorem stepEnter {v : Serve} {b : PthreadBarrier Party} (S : Sim c d w t x s) (P : s.Protocol) (hm : s.main = .enter v) :
    Follows c { s with barrier := b, main := .barrier v } := by
  have htogether : s.phase = .together := by rw [Clinic.phase, hm]; rfl
  exact .stay ⟨d, w, t, x, S.ofMain (by simp only [view, hm]) (by rw [hm]; rfl) (fun _ hl => by cases hl)
    (fun hd _ => absurd htogether (not_together P hd)) (by rw [hm]; rfl) (by simp) (by rw [hm]; rfl) rfl
    fun i => by simp only [rest, hm]⟩

/-- When main comes back from the barrier the visitor has taken its flag. -/
theorem stepBarrier {v : Serve} {b : PthreadBarrier Party} (S : Sim c d w t x s) (P : s.Protocol) (hm : s.main = .barrier v)
    (hstep : s.barrier.step (.step .main) = some b) :
    Follows c { s with barrier := b, main := if b.pc .main = none then .addevent v else .barrier v } := by
  by_cases hnone : b.pc .main = none
  · rw [if_pos hnone]
    obtain ⟨-, hout, -⟩ := P.returned hstep hnone
    have hphase : s.phase = .apart := by rw [Clinic.phase, hm]; exact if_neg hout
    have C := P.calling
    rw [hm, show (MainPc.barrier v).meets (s.barrier.inside .main) = false from decide_eq_false hout] at C
    have hflag := flagOf_none C.quiet.1
    exact .stay ⟨d, w, t, x, S.ofMain (by simp only [view, hm]) (by rw [hm]; rfl) (fun _ hl => by cases hl)
      (fun _ _ => ⟨hphase, by simp [hm]⟩) (by rw [hm]; rfl) (by simp) (by rw [hm]; rfl) rfl
      fun i => by simp only [rest, hm, hflag]⟩
  · rw [if_neg hnone, ← hm]
    exact .stay ⟨d, w, t, x, S.ofBarrier P⟩

/-! ### A step -/

theorem stepMain {n : Nat} (S : Sim c d w t x s) (P : s.Protocol) (h : s.stepMain n = some s') : Follows c s' := by
  cases hm : s.main <;> simp only [Clinic.stepMain, hm] at h
  case returned => cases h
  case wake p o => exact S.stepWake hm h
  case asst p o => exact S.stepAsst P hm h
  case call p k v => exact S.stepCall P hm h
  case join l =>
    split_ifs at h with hd
    cases h
    exact S.stepJoin P hm hd
  case enter v =>
    obtain ⟨b, -, rfl⟩ := Option.map_eq_some_iff.1 h
    exact S.stepEnter P hm
  case barrier v =>
    obtain ⟨⟨s₁, done⟩, hb, rfl⟩ := Option.map_eq_some_iff.1 h
    obtain ⟨b, hstep, he⟩ := Option.map_eq_some_iff.1 hb
    cases he
    simpa only [decide_eq_true_eq] using S.stepBarrier P hm hstep
  case createDoctor =>
    cases h
    exact S.stepCreateDoctor P hm
  case createThread k =>
    cases h
    exact S.stepCreateThread P hm
  case admitted k =>
    cases h
    exact S.stepAdmitted hm
  case loop =>
    cases h
    exact S.stepLoop P hm
  case dispatch =>
    cases h
    exact S.stepDispatch P hm
  case receive =>
    cases h
    exact S.stepReceive P hm
  case turn v =>
    cases h
    exact S.stepTurn P hm
  case addevent v =>
    cases h
    exact S.stepAddevent P hm
  case finish =>
    cases h
    exact S.stepFinish P hm
  case others =>
    cases h
    exact S.stepOthers P hm
  case resume =>
    cases h
    exact S.stepResume P hm
  case pending =>
    cases h
    exact S.stepPending P hm

theorem init (arrivals : List Event) :
    Sim (.init arrivals) (.init arrivals) (fun _ => []) 0 0 (.init arrivals) where
  chamber := rfl
  lengths k := rfl
  time := ⟨fun u hu => absurd hu List.not_mem_nil, fun _ => rfl⟩
  here _ := ⟨rfl, rfl⟩
  leaves h := by cases h
  away h := by cases h
  guests := .nil
  waiting k := rfl
  pc := rfl
  kind k h := by cases h
  rests _ := rfl
  ahead h := by cases h

end Sim

theorem refines_step {a : SessionStep} (hR : Refines s c) (h : s.step a = some s') :
    Matched Chamber.step Refines s' c := by
  obtain ⟨P, d, w, t, x, S⟩ := hR
  have P' := P.step h
  have hfollows : Follows c s' := by
    cases a with
    | main n => exact S.stepMain P h
    | doctor =>
      obtain ⟨x', S'⟩ := S.stepDoctor P h
      exact .stay ⟨d, w, t, x', S'⟩
    | visitor i =>
      obtain ⟨d', t', S'⟩ := S.stepVisitor P h
      exact .stay ⟨d', w, t', x, S'⟩
  rcases hfollows with hS | ⟨b, c', hb, hS⟩
  · exact .stay ⟨P', hS⟩
  · exact .move hb ⟨P', hS⟩

/-- Whatever the order of the steps, a run of the coarse model goes with them. -/
theorem refines_of_reach {arrivals : List Event} (h : Reach step (.init arrivals) s) :
    ∃ as c, Trans.run Chamber.step (.init arrivals) as = some c ∧ Refines s c :=
  h.simulated ⟨.init arrivals, _, _, _, _, Sim.init arrivals⟩ fun _ _ _ _ hR hs => refines_step hR hs

end Clinic

end OsLab.A6
