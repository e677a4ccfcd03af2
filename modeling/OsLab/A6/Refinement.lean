import Mathlib.Algebra.BigOperators.Group.List.Basic
import Mathlib.Algebra.Ring.Int.Defs
import OsLab.A6.Protocol
import OsLab.Lib.Simulation

/-!
# The statements refine the handshakes (A6/session.c)

`Chamber` takes a handshake of main with the doctor and a visitor for one step; `Clinic` goes statement by statement, and
the threads step in any order. `Sim` relates them. `d` is what the coarse step has done so far, as far as the statements
have come, and `rest` what it still does; at the test of one of the three loops of main the two stand side by side
(`MainPc.rests`). A visitor has left the line when it has taken its flag, while `current_time` is behind by its visit
until it adds that (`Behind`), `num_waiting_*` is ahead from main's `--` on (`counted`), and `done_time` is ahead from the
doctor's exit until main has joined it.
-/

namespace OsLab.A6

open Function (update)
open Trans (Reach Matched)

/-- Has not taken its flag. -/
def VisitorPc.waits : VisitorPc → Bool
  | .visit | .unlock | .enter | .barrier | .left => false
  | _ => true

/-- The thread has been created for the visitor. -/
def Thread.IsOf (t : Thread) (v : Visitor) : Prop := kindOf v.event.type = some t.kind ∧ t.duration = v.event.duration

/-- The visitors of the class whose threads wait. -/
def waitingOf (ts : List Thread) (vs : List Visitor) (k : Kind) : List Visitor :=
  ((ts.zip vs).filter fun p => p.1.kind = k ∧ p.1.pc.waits = true).map Prod.snd

/-- `t` is the time `now`, or will be when the visitor that is with the doctor has added its duration. -/
structure Behind (ts : List Thread) (t now : Int) : Prop where
  visit : ∀ u ∈ ts, u.pc = .visit → int32 (t + u.duration) = now
  nobody : (∀ u ∈ ts, u.pc ≠ .visit) → t = now

/-- The class whose flag is set. -/
def flagOf (done : Kind → Bool) : Option Kind := [Kind.reporter, .patient, .salesrep].find? fun k => done k

/-! ## The parts of a coarse step -/

def Serve.pc (next : Event) : Serve → Pc
  | .receive => .top
  | .others => .others next
  | .pending => .pending

def Leave.pc (next : Event) : Leave → Pc
  | .top => .top
  | .others => .others next
  | .final => .pending

namespace Chamber

/-- What the statements have of it: nobody is in line but in number. -/
def known (s : Chamber) (w : Kind → List Visitor) : Chamber := { s with waiting := w, served := [], joins := 0, pc := .top }

/-- `num_served_*++`. -/
def count (s : Chamber) (k : Kind) : Chamber :=
  { s with
    numServedPatients := if k = .patient then s.numServedPatients + 1 else s.numServedPatients
    numServedSalesreps := if k = .salesrep then s.numServedSalesreps + 1 else s.numServedSalesreps }

/-- The visitor takes its flag and sees the doctor. -/
def see (s : Chamber) (k : Kind) (i : Nat) (v : Visitor) : Chamber :=
  { s with
    waiting := update s.waiting k ((s.waiting k).eraseIdx i)
    currentTime := int32 (s.currentTime + v.event.duration)
    served := s.served ++ [⟨v, s.currentTime⟩] }

/-- `addevent(E, (event){'D', current_time, 0})` -/
def addevent (s : Chamber) : Chamber := { s with E := s.E.enqueue ⟨'D', s.currentTime, 0⟩ }

/-- The doctor has left and is joined. -/
def doctorLeaves (s : Chamber) : Chamber := { s with joins := s.joins + 1, doneTime := s.leave }

theorem joinDoctor_eq (s : Chamber) (next : Event) :
    s.joinDoctor next = if s.Leaves next then s.doctorLeaves else s := rfl

/-- :565-568. -/
def resume (s : Chamber) (next : Event) : Chamber :=
  { s with
    currentTime := if s.currentTime < next.time then next.time else s.currentTime
    docArrived := .free
    pc := .top }

/-- Behind the last join. -/
def returned (s : Chamber) : Chamber := { s with doneTime := s.leave, pc := .returned }

/-- What is left to do when a visitor has been served. -/
def afterVisit (v : Serve) (next : Event) (s : Chamber) : Chamber :=
  match v with
  | .receive => s.finish next
  | .others | .pending => s

/-- What is left to do when the doctor has been told to leave. -/
def leaving (s : Chamber) (l : Leave) (next : Event) (i : Nat) : Option Chamber :=
  match l with
  | .top => s.doctorLeaves.handle next i
  | .others => some (s.doctorLeaves.resume next)
  | .final => some s.returned

end Chamber

namespace MainPc

/-- At the test of a loop, where the coarse model stands as well. -/
def rests : MainPc → Bool
  | .createDoctor | .loop | .others | .pending | .returned => true
  | _ => false

/-- In which loop main is. -/
def pc (next : Event) : MainPc → Pc
  | .wake _ (.leave l) | .join l => l.pc next
  | .wake _ (.serve v) | .asst _ (.doctor v) | .turn v | .call _ _ v | .enter v | .barrier v | .addevent v => v.pc next
  | .others | .resume => .others next
  | .pending => .pending
  | .returned => .returned
  | _ => .top

/-- The doctor has been told to leave and has not been joined. -/
def leaves : MainPc → Bool
  | .wake .signal (.leave _) | .wake .unlock (.leave _) | .join _ => true
  | _ => false

/-- The line has been counted down: `num_waiting_*--` is behind main. -/
def counted : MainPc → Bool
  | .call .count _ _ => false
  | _ => true

end MainPc

namespace Clinic

/-- The globals as they are when main has counted the visitor that it waits for. -/
def view (s : Clinic) : Chamber :=
  match s.main with
  | .asst _ (.visitor k) | .admitted k => s.chamber.admitVisitor s.next k
  | _ => s.chamber

/-- What the coarse step still does behind `d`; `i` chooses who is woken. -/
def rest (s : Clinic) (d : Chamber) (i : Nat) : Option Chamber :=
  match s.main with
  | .createDoctor | .loop | .others | .pending | .returned => d.step i
  | .wake .lock (.leave .final) | .wake .set (.leave .final) => some { d with docSessionDone := true }.returned
  | .wake _ (.leave l) | .join l => d.leaving l s.next i
  | .dispatch => d.handle s.next i
  | .createThread k => (d.admitVisitor s.next k).receive s.next i
  | .asst _ (.visitor _) | .admitted _ | .receive => d.receive s.next i
  | .wake _ (.serve v) | .asst _ (.doctor v) | .turn v => (d.serve i).map (Chamber.afterVisit v s.next)
  | .call p k v =>
    match p with
    | .lock | .set | .count => ((d.waiting k)[i]?).map fun x => (d.visit k i x).afterVisit v s.next
    | .signal | .unlock => ((d.waiting k)[i]?).map fun x => (d.see k i x).addevent.afterVisit v s.next
  | .enter v | .barrier v =>
    match flagOf s.visitorDone with
    | some k => ((d.waiting k)[i]?).map fun x => (d.see k i x).addevent.afterVisit v s.next
    | none => some (d.addevent.afterVisit v s.next)
  | .addevent v => some (d.addevent.afterVisit v s.next)
  | .finish => some (d.finish s.next)
  | .resume => some (d.resume s.next)

end Clinic

namespace Chamber

variable {s : Chamber} {w : Kind → List Visitor} {k : Kind} {i : Nat}

theorem known_checkSession (s : Chamber) (w : Kind → List Visitor) :
    (s.known w).checkSession = s.checkSession.known w := by
  unfold checkSession known
  split_ifs <;> rfl

theorem known_turn (h : ∀ k, (w k).length = (s.waiting k).length) : (s.known w).turn = s.turn := by
  have hnil : ∀ k, w k ≠ [] ↔ s.waiting k ≠ [] := by
    intro k
    rw [← List.length_pos_iff, h k, List.length_pos_iff]
  simp only [turn, known, hnil]

theorem checkSession_eq (s : Chamber) : s.checkSession.admitted = s.admitted ∧ s.checkSession.waiting = s.waiting ∧
    s.checkSession.joins = s.joins ∧ s.checkSession.pc = s.pc ∧ s.checkSession.E = s.E := by
  unfold checkSession
  split_ifs <;> exact ⟨rfl, rfl, rfl, rfl, rfl⟩

theorem closeSession_of_leaves {next : Event} (h : s.checkSession.Leaves next) :
    s.closeSession next = s.checkSession.doctorLeaves := by
  rw [closeSession, joinDoctor_eq, if_pos h]

theorem closeSession_of_stays {next : Event} (h : ¬ s.checkSession.Leaves next) :
    s.closeSession next = s.checkSession := by
  rw [closeSession, joinDoctor_eq, if_neg h]

theorem serve_of_turn (h : s.turn = some k) (i : Nat) : s.serve i = ((s.waiting k)[i]?).map fun v => s.visit k i v := by
  rw [serve, h]

theorem serve_of_nobody (h : s.turn = none) (i : Nat) : s.serve i = some s := by
  rw [serve, h]

end Chamber

/-! ## The line -/

section
variable {ts : List Thread} {vs : List Visitor} {i : Nat} {t : Thread} {p : VisitorPc} {k : Kind}

theorem Thread.IsOf.goto {v : Visitor} (h : t.IsOf v) (p : VisitorPc) : Thread.IsOf { t with pc := p } v := h

theorem forall₂_goto (h : List.Forall₂ Thread.IsOf ts vs) (ht : ts[i]? = some t) (p : VisitorPc) :
    List.Forall₂ Thread.IsOf (ts.set i { t with pc := p }) vs := by
  induction h generalizing i with
  | nil => cases ht
  | cons hu hs ih =>
    cases i with
    | zero =>
      cases ht
      exact .cons (hu.goto p) hs
    | succ i => exact .cons hu (ih ht)

theorem waitingOf_cons (u : Thread) (ts : List Thread) (v : Visitor) (vs : List Visitor) (k : Kind) :
    waitingOf (u :: ts) (v :: vs) k =
      if u.kind = k ∧ u.pc.waits = true then v :: waitingOf ts vs k else waitingOf ts vs k := by
  rw [waitingOf, List.zip_cons_cons, List.filter_cons]
  split_ifs <;> simp_all [waitingOf]

theorem waitingOf_goto (h : List.Forall₂ Thread.IsOf ts vs) (ht : ts[i]? = some t) (hp : p.waits = t.pc.waits) (k : Kind) :
    waitingOf (ts.set i { t with pc := p }) vs k = waitingOf ts vs k := by
  induction h generalizing i with
  | nil => cases ht
  | cons hu hs ih =>
    cases i with
    | zero =>
      cases ht
      rw [List.set_cons_zero, waitingOf_cons, waitingOf_cons, hp]
    | succ i => rw [List.set_cons_succ, waitingOf_cons, waitingOf_cons, ih ht]

/-- The visitor whose thread takes the flag leaves the line. -/
theorem waitingOf_take (h : List.Forall₂ Thread.IsOf ts vs) (ht : ts[i]? = some t) (hwaits : t.pc.waits = true)
    (hp : p.waits = false) : ∃ m v, t.IsOf v ∧ (waitingOf ts vs t.kind)[m]? = some v ∧
      ∀ k, waitingOf (ts.set i { t with pc := p }) vs k =
        update (waitingOf ts vs) t.kind ((waitingOf ts vs t.kind).eraseIdx m) k := by
  induction h generalizing i with
  | nil => cases ht
  | @cons u v us vs hu hs ih =>
    cases i with
    | zero =>
      cases ht
      refine ⟨0, v, hu, ?_, fun k => ?_⟩
      · rw [waitingOf_cons, if_pos ⟨rfl, hwaits⟩]
        rfl
      · rw [List.set_cons_zero, waitingOf_cons, if_neg (by simp [hp])]
        by_cases hk : k = t.kind
        · rw [hk, Function.update_self, waitingOf_cons, if_pos ⟨rfl, hwaits⟩, List.eraseIdx_cons_zero]
        · rw [Function.update_of_ne hk, waitingOf_cons, if_neg fun h => hk h.1.symm]
    | succ i =>
      obtain ⟨m, x, hx, hm, hrest⟩ := ih ht
      by_cases hline : u.kind = t.kind ∧ u.pc.waits = true
      · refine ⟨m + 1, x, hx, ?_, fun k => ?_⟩
        · rw [waitingOf_cons, if_pos hline]
          exact hm
        · rw [List.set_cons_succ, waitingOf_cons, hrest]
          by_cases hk : k = t.kind
          · rw [hk, Function.update_self, Function.update_self, waitingOf_cons, if_pos hline, if_pos hline,
              List.eraseIdx_cons_succ]
          · rw [Function.update_of_ne hk, Function.update_of_ne hk, waitingOf_cons]
      · refine ⟨m, x, hx, ?_, fun k => ?_⟩
        · rw [waitingOf_cons, if_neg hline]
          exact hm
        · rw [List.set_cons_succ, waitingOf_cons, hrest]
          by_cases hk : k = t.kind
          · rw [hk, Function.update_self, Function.update_self, waitingOf_cons, if_neg hline, if_neg hline]
          · rw [Function.update_of_ne hk, Function.update_of_ne hk, waitingOf_cons]

theorem waitingOf_concat (h : List.Forall₂ Thread.IsOf ts vs) (hwaits : t.pc.waits = true) (v : Visitor) (k : Kind) :
    waitingOf (ts ++ [t]) (vs ++ [v]) k = if t.kind = k then waitingOf ts vs k ++ [v] else waitingOf ts vs k := by
  rw [waitingOf, List.zip_append h.length_eq, List.filter_append, List.map_append]
  split_ifs with hk
  · simp [waitingOf, hk, hwaits]
  · simp [waitingOf, hk]

namespace Behind

variable {y now : Int}

/-- Only who is with the doctor matters. -/
theorem congr {us : List Thread} (B : Behind ts y now) (h : ∀ u : Thread, u.pc = .visit → (u ∈ us ↔ u ∈ ts)) :
    Behind us y now where
  visit u hu hpc := B.visit u ((h u hpc).1 hu) hpc
  nobody hnot := B.nobody fun u hu hpc => hnot u ((h u hpc).2 hu) hpc

theorem goto (B : Behind ts y now) (ht : ts[i]? = some t) (hpc : t.pc ≠ .visit) (hp : p ≠ .visit) :
    Behind (ts.set i { t with pc := p }) y now := by
  refine B.congr fun u hu => ?_
  rw [List.mem_iff_getElem?, List.mem_iff_getElem?]
  refine exists_congr fun j => ?_
  rw [getElem?_goto ht]
  split_ifs with hj
  · rw [hj, ht, Option.some.injEq, Option.some.injEq]
    constructor
    · rintro rfl
      exact absurd hu hp
    · rintro rfl
      exact absurd hu hpc
  · rfl

theorem concat (B : Behind ts y now) (hpc : t.pc ≠ .visit) : Behind (ts ++ [t]) y now := by
  refine B.congr fun u hu => ?_
  rw [List.mem_append, List.mem_singleton, or_iff_left]
  rintro rfl
  exact hpc hu

/-- The first one goes to the doctor. -/
theorem take (B : Behind ts y now) (hnobody : ∀ u ∈ ts, u.pc ≠ .visit) (ht : ts[i]? = some t) :
    Behind (ts.set i { t with pc := .visit }) y (int32 (now + t.duration)) where
  visit u hu hpc := by
    rcases List.mem_or_eq_of_mem_set hu with hu | rfl
    · exact absurd hpc (hnobody u hu)
    · rw [B.nobody hnobody]
  nobody hnot := absurd rfl (hnot _ (List.mem_set (List.getElem?_eq_some_iff.1 ht).1 _))

/-- The only one comes back. -/
theorem back (B : Behind ts y now) (ht : ts[i]? = some t) (hpc : t.pc = .visit) (hp : p ≠ .visit)
    (honly : ∀ (j : Nat) (u : Thread), ts[j]? = some u → u.pc = .visit → j = i) :
    Behind (ts.set i { t with pc := p }) (int32 (y + t.duration)) now where
  visit u hu hvisit := by
    obtain ⟨j, hj⟩ := List.mem_iff_getElem?.1 hu
    rw [getElem?_goto ht] at hj
    split_ifs at hj with hji
    · obtain rfl := Option.some.inj hj
      exact absurd hvisit hp
    · exact absurd (honly j u hj hvisit) hji
  nobody _ := B.visit t (List.mem_of_getElem? ht) hpc

end Behind

end

theorem flagOf_none {done : Kind → Bool} (h : ∀ k, done k = false) : flagOf done = none := by
  simp [flagOf, h]

theorem flagOf_some {done : Kind → Bool} {k : Kind} (hk : done k = true) (h : ∀ l, done l = true → l = k) :
    flagOf done = some k := by
  have hother : ∀ l, l ≠ k → done l = false := fun l hl => Bool.eq_false_iff.2 fun hd => hl (h l hd)
  cases k <;> simp [flagOf, hk, hother]

/-! ## The relation -/

namespace Clinic

/-- `d` is what the coarse step behind `c` has done so far. -/
structure Sim (c d : Chamber) (w : Kind → List Visitor) (t x : Int) (s : Clinic) : Prop where
  chamber : s.view = { d.known w with currentTime := t, doneTime := x }
  lengths : ∀ k, (w k).length = (d.waiting k).length - if s.visitorDone k = true ∧ s.main.counted = true then 1 else 0
  time : Behind s.threads t d.currentTime
  here : s.doctor ≠ .left → x = d.doneTime ∧ d.joins = 0
  leaves : s.doctor = .left → s.main.leaves = true → x = d.leave
  away : s.doctor = .left → s.phase = .apart → x = d.doneTime ∧ (s.main ≠ .returned → 0 < d.joins)
  guests : List.Forall₂ Thread.IsOf s.threads d.admitted
  waiting : ∀ k, d.waiting k = waitingOf s.threads d.admitted k
  pc : d.pc = s.main.pc s.next
  kind : ∀ k, s.main = .createThread k → kindOf s.next.type = some k
  rests : s.main.rests = true → c = d
  ahead : s.main.rests = false → ∀ i c', s.rest d i = some c' → ∃ j, c.step j = some c'

/-- The coarse model stays at `c`, or goes one step on with main. -/
def Follows (c : Chamber) (s : Clinic) : Prop := Matched Chamber.step (fun s c => ∃ d w t x, Sim c d w t x s) s c

/-- The coarse model stands at `c`, or main has gone on from there. -/
def Refines (s : Clinic) (c : Chamber) : Prop := s.Protocol ∧ ∃ d w t x, Sim c d w t x s

/-- main is alone and goes on. -/
structure Alone (s : Clinic) : Prop where
  aside : s.main.aside = true
  phase : s.phase = .apart
  here : s.main ≠ .returned

/-- The line and the joins are not touched. -/
def SameLine (d' d : Chamber) : Prop := d'.admitted = d.admitted ∧ d'.waiting = d.waiting ∧ d'.joins = d.joins

variable {s s' : Clinic} {c d : Chamber} {w : Kind → List Visitor} {t x : Int} {i : Nat} {u : Thread} {p : VisitorPc}

namespace Sim

/-- What main sees of itself is not changed by a signal. -/
theorem signalled (S : Sim c d w t x s) : Sim c d w t x s.signalAsst := by
  have hsame : s.signalAsst.view = s.view ∧ s.main.wakeAsst.counted = s.main.counted ∧
      s.main.wakeAsst.leaves = s.main.leaves ∧ s.main.wakeAsst.pc s.next = s.main.pc s.next ∧
      s.main.wakeAsst.rests = s.main.rests ∧ (∀ d i, s.signalAsst.rest d i = s.rest d i) ∧
      (s.main.wakeAsst = .returned ↔ s.main = .returned) ∧
      ∀ k, s.main.wakeAsst = .createThread k ↔ s.main = .createThread k := by
    simp only [view, rest, signalAsst_main]
    cases s.main with
    | asst p a =>
      cases p <;> cases a <;>
        exact ⟨rfl, rfl, rfl, rfl, rfl, fun _ _ => rfl, by simp [MainPc.wakeAsst], by simp [MainPc.wakeAsst]⟩
    | _ => exact ⟨rfl, rfl, rfl, rfl, rfl, fun _ _ => rfl, Iff.rfl, fun _ => Iff.rfl⟩
  obtain ⟨hview, hcounted, hleaves, hpc, hrests, hrest, hreturned, hcreates⟩ := hsame
  have hphase : s.signalAsst.phase = s.phase := (wakeAsst_spec s.main).2.2.2.2.2.1 _ _
  refine ⟨hview.trans S.chamber, fun k => ?_, S.time, S.here, fun h hl => S.leaves h (hleaves ▸ hl), fun h hp => ?_,
    S.guests, S.waiting, S.pc.trans hpc.symm, fun k h => S.kind k ((hcreates k).1 h), fun h => S.rests (hrests ▸ h),
    fun h i c' hc => ?_⟩
  · rw [signalAsst_main, hcounted]
    exact S.lengths k
  · obtain ⟨hx, hj⟩ := S.away h (hphase ▸ hp)
    exact ⟨hx, fun hne => hj fun he => hne (hreturned.2 he)⟩
  · rw [hrest] at hc
    exact S.ahead (hrests ▸ h) i c' hc

/-- A visitor moves on that neither leaves the line nor has been with the doctor. -/
theorem setThread (S : Sim c d w t x s) (hu : s.threads[i]? = some u) (hp : p.waits = u.pc.waits) (hv : u.pc ≠ .visit)
    (hv' : p ≠ .visit) : Sim c d w t x (s.setThread i u p) := by
  refine ⟨S.chamber, S.lengths, S.time.goto hu hv hv', S.here, S.leaves, S.away, forall₂_goto S.guests hu p, fun k => ?_,
    S.pc, S.kind, S.rests, S.ahead⟩
  rw [S.waiting]
  exact (waitingOf_goto S.guests hu hp k).symm

/-- What the coarse model does not look at. -/
theorem ofGlobals {mutex : Kind → Option Party} {asst : Bool} (S : Sim c d w t x s) :
    Sim c d w t x { s with visitorMutex := mutex, asstDone := asst } :=
  ⟨S.chamber, S.lengths, S.time, S.here, S.leaves, S.away, S.guests, S.waiting, S.pc, S.kind, S.rests, S.ahead⟩

/-- A doctor that has left waits for no barrier. -/
theorem apart_of_left {b : PthreadBarrier Party} (P : s.Protocol) (hd : s.doctor = .left)
    (h : phase { s with barrier := b } = .apart) : s.phase = .apart := by
  have hpaired := P.rousing.paired
  rw [show s.place = .gone by rw [place, hd]; rfl] at hpaired
  cases hm : s.main <;> simp only [phase, hm] at h hpaired ⊢ <;> try exact h
  case wake p a => cases p <;> exact h
  case asst p a => cases p <;> cases a <;> exact h
  case barrier v =>
    by_cases hin : s.barrier.inside .main
    · rw [show (MainPc.barrier v).phase s.chamber.turn (s.barrier.inside .main) = .together from if_pos hin] at hpaired
      exact hpaired.elim
    · exact if_neg hin

theorem ofBarrier {b : PthreadBarrier Party} (S : Sim c d w t x s) (P : s.Protocol) : Sim c d w t x { s with barrier := b } :=
  ⟨S.chamber, S.lengths, S.time, S.here, S.leaves, fun h hp => S.away h (apart_of_left P h hp), S.guests, S.waiting, S.pc,
    S.kind, S.rests, S.ahead⟩

/-- While main is not with a visitor nobody is. -/
theorem nobody (P : s.Protocol) (h : s.main.meets (s.barrier.inside .main) = false) : ∀ u ∈ s.threads, u.pc ≠ .visit := by
  intro u hu hpc
  obtain ⟨j, hj⟩ := List.mem_iff_getElem?.1 hu
  have hmeets := (P.calling.seen j ⟨u, hj, by rw [hpc]; rfl⟩).2
  rw [h] at hmeets
  cases hmeets

/-! ### The doctor -/

theorem ofDoctor {a : DoctorPc} {done asst : Bool} {y : Option Party} (S : Sim c d w t x s) (hd : s.doctor ≠ .left)
    (ha : a ≠ .left) : Sim c d w t x { s with doctor := a, docDone := done, asstDone := asst, doctorMutex := y } :=
  ⟨S.chamber, S.lengths, S.time, fun _ => S.here hd, fun h => absurd h ha, fun h => absurd h ha, S.guests, S.waiting, S.pc,
    S.kind, S.rests, S.ahead⟩

theorem view_doneTime (s : Clinic) (y : Int) :
    view { s with chamber := { s.chamber with doneTime := y } } = { s.view with doneTime := y } ∧
      s.view.doneTime = s.chamber.doneTime ∧ s.view.currentTime = s.chamber.currentTime := by
  simp only [view]
  cases s.main with
  | asst p a => cases a <;> exact ⟨rfl, rfl, rfl⟩
  | _ => exact ⟨rfl, rfl, rfl⟩

/-- The doctor leaves, and sets `done_time` if that is 0. -/
theorem left (S : Sim c d w t x s) (P : s.Protocol) (hd : s.doctor = .check) :
    Sim c d w t (if x = 0 then t else x) { s with
      chamber := { s.chamber with
        doneTime := if s.chamber.doneTime = 0 then s.chamber.currentTime else s.chamber.doneTime }
      doctor := .left } := by
  have hpaired := P.rousing.paired
  rw [show s.place = .awake by rw [place, hd]; rfl] at hpaired
  have hphase : s.phase = .roused := by
    cases hphase : s.phase <;> cases hdone : s.docDone <;> simp [hphase, hdone, Paired] at hpaired ⊢
  have hmeets : s.main.meets (s.barrier.inside .main) = false := by
    by_contra hm
    have htogether := MainPc.phase_of_meets s.chamber.turn (by simpa using hm)
    exact absurd (htogether.symm.trans hphase) (by simp)
  have htime := S.time.nobody (nobody P hmeets)
  obtain ⟨hx, hj⟩ := S.here (by simp [hd])
  obtain ⟨hview, hdone, hnow⟩ :=
    view_doneTime s (if s.chamber.doneTime = 0 then s.chamber.currentTime else s.chamber.doneTime)
  rw [S.chamber] at hdone hnow
  dsimp only at hdone hnow
  refine ⟨?_, S.lengths, S.time, fun h => absurd rfl h, fun _ _ => ?_, fun _ hp => ?_, S.guests, S.waiting, S.pc, S.kind,
    S.rests, S.ahead⟩
  · refine hview.trans ?_
    rw [S.chamber, ← hdone, ← hnow]
  · rw [Chamber.leave, hj, ← hx, ← htime]
    simp
  · exact absurd (hp.symm.trans hphase) (by simp)

theorem stepDoctor (S : Sim c d w t x s) (P : s.Protocol) (h : s.stepDoctor = some s') : ∃ x', Sim c d w t x' s' := by
  cases hpc : s.doctor <;> simp only [Clinic.stepDoctor, hpc] at h
  case unborn | blocked | left => cases h
  case lock | relock =>
    obtain ⟨m, -, rfl⟩ := Option.map_eq_some_iff.1 h
    exact ⟨x, S.ofDoctor (by simp [hpc]) (by simp)⟩
  case test =>
    cases h
    exact ⟨x, S.ofDoctor (by simp [hpc]) (by split_ifs <;> simp)⟩
  case wait | take | unlock | store =>
    cases h
    exact ⟨x, S.ofDoctor (by simp [hpc]) (by simp)⟩
  case check =>
    by_cases hover : s.chamber.docSessionDone = true
    · rw [if_pos hover] at h
      cases h
      exact ⟨_, S.left P hpc⟩
    · rw [if_neg hover] at h
      cases h
      exact ⟨x, S.ofDoctor (by simp [hpc]) (by simp)⟩
  case signal =>
    cases h
    exact ⟨x, S.signalled.ofDoctor (by simp [signalAsst, hpc]) (by simp)⟩
  case enter =>
    obtain ⟨b, -, rfl⟩ := Option.map_eq_some_iff.1 h
    have S' := S.ofBarrier (b := b) P
    exact ⟨x, S'.ofDoctor (by simp [hpc]) (by simp)⟩
  case barrier =>
    obtain ⟨⟨s₁, done⟩, hb, rfl⟩ := Option.map_eq_some_iff.1 h
    obtain ⟨b, -, he⟩ := Option.map_eq_some_iff.1 hb
    cases he
    have S' := S.ofBarrier (b := b) P
    exact ⟨x, S'.ofDoctor (by simp [hpc]) (by split_ifs <;> simp)⟩

/-! ### A visitor -/

/-- A visitor can take its flag when main waits for it at the barrier, or comes there. -/
theorem meets_of_take (P : s.Protocol) (hu : s.threads[i]? = some u) (hpc : u.pc = .take) :
    s.main.meets (s.barrier.inside .main) = true := by
  have C := P.calling
  obtain ⟨-, -, hc | hm⟩ := C.called u.kind (C.take i u hu hpc)
  · have hi : Critical s.main.holds s.threads u.kind (.visitor i) := ⟨u, hu, rfl, by rw [hpc]; rfl⟩
    have hm : Critical s.main.holds s.threads u.kind .main := MainPc.holds_of_calls hc
    cases C.guards.unique hm hi
  · exact hm

theorem enter_or_barrier {m : MainPc} {inside : Prop} [Decidable inside] (h : m.meets inside = true) :
    ∃ v, m = .enter v ∨ m = .barrier v ∧ inside := by
  cases m with
  | enter v => exact ⟨v, .inl rfl⟩
  | barrier v => exact ⟨v, .inr ⟨rfl, of_decide_eq_true h⟩⟩
  | _ => cases h

/-- The visitor that takes its flag is the one that the coarse step chooses. -/
theorem take (S : Sim c d w t x s) (P : s.Protocol) (hu : s.threads[i]? = some u) (hpc : u.pc = .take) :
    ∃ d', Sim c d' w t x ({ s with visitorDone := update s.visitorDone u.kind false }.setThread i u .visit) := by
  have C := P.calling
  have hdone := C.take i u hu hpc
  obtain ⟨honly, -, -⟩ := C.called u.kind hdone
  obtain ⟨m, v, hv, hm, hline⟩ := waitingOf_take S.guests hu (p := .visit) (by rw [hpc]; rfl) rfl
  obtain ⟨k, hmain⟩ := enter_or_barrier (meets_of_take P hu hpc)
  have hnone : ∀ l, update s.visitorDone u.kind false l = false := by
    intro l
    by_cases hl : l = u.kind
    · simp [hl]
    · rw [Function.update_of_ne hl]
      exact Bool.eq_false_iff.2 fun h => hl (honly l h)
  have hwaiting : d.waiting = waitingOf s.threads d.admitted := funext S.waiting
  have hcounted : s.main.counted = true := by rcases hmain with hmain | ⟨hmain, -⟩ <;> rw [hmain] <;> rfl
  have hnobody : ∀ a ∈ s.threads, a.pc ≠ .visit := by
    intro a ha hvisit
    obtain ⟨j, hj⟩ := List.mem_iff_getElem?.1 ha
    exact (C.called u.kind hdone).2.1 j ⟨a, hj, by rw [hvisit]; rfl⟩
  have hi := (List.getElem?_eq_some_iff.1 hm).1
  refine ⟨d.see u.kind m v, S.chamber, fun l => ?_, ?_, S.here, fun _ hl => ?_, S.away, forall₂_goto S.guests hu .visit,
    fun l => ?_, S.pc, S.kind, fun h => ?_, fun _ j c' hc => ?_⟩
  · have hlength := S.lengths l
    simp only [Clinic.setThread, hnone l, Bool.false_eq_true, false_and, if_false, Nat.sub_zero]
    show (w l).length = (update d.waiting u.kind ((d.waiting u.kind).eraseIdx m) l).length
    by_cases hl : l = u.kind
    · rw [hl, if_pos ⟨hdone, hcounted⟩] at hlength
      rw [hl, Function.update_self, List.length_eraseIdx_of_lt (by rw [hwaiting]; exact hi)]
      simpa using hlength
    · have hoff : s.visitorDone l ≠ true := fun h => hl (honly l h)
      simpa [Function.update_of_ne hl, hoff] using hlength
  · show Behind _ t (int32 (d.currentTime + v.event.duration))
    rw [← hv.2]
    exact S.time.take hnobody hu
  · rcases hmain with hmain | ⟨hmain, -⟩ <;> exact absurd hl (by simp [Clinic.setThread, hmain, MainPc.leaves])
  · show update d.waiting u.kind ((d.waiting u.kind).eraseIdx m) l = _
    rw [hwaiting]
    exact (hline l).symm
  · rcases hmain with hmain | ⟨hmain, -⟩ <;> exact absurd h (by simp [Clinic.setThread, hmain, MainPc.rests])
  · have hrests : s.main.rests = false := by rcases hmain with hmain | ⟨hmain, -⟩ <;> rw [hmain] <;> rfl
    refine S.ahead hrests m c' ?_
    have hflag := flagOf_some hdone honly
    have hflag' := flagOf_none hnone
    rw [← S.waiting] at hm
    rcases hmain with hmain | ⟨hmain, -⟩
    · simp only [rest, hmain, Clinic.setThread, hflag'] at hc
      simpa only [rest, hmain, hflag, hm, Option.map_some] using hc
    · simp only [rest, hmain, Clinic.setThread, hflag'] at hc
      simpa only [rest, hmain, hflag, hm, Option.map_some] using hc

theorem view_currentTime (s : Clinic) (y : Int) :
    view { s with chamber := { s.chamber with currentTime := y } } = { s.view with currentTime := y } := by
  simp only [view]
  cases s.main with
  | asst p a => cases a <;> rfl
  | _ => rfl

theorem visit (S : Sim c d w t x s) (P : s.Protocol) (hu : s.threads[i]? = some u) (hpc : u.pc = .visit) :
    Sim c d w (int32 (t + u.duration)) x ({ s with
      chamber := { s.chamber with currentTime := int32 (s.chamber.currentTime + u.duration) } }.setThread i u .unlock) := by
  have hnow := (view_doneTime s 0).2.2
  rw [S.chamber] at hnow
  refine ⟨?_, S.lengths, ?_, S.here, S.leaves, S.away, forall₂_goto S.guests hu .unlock, fun k => ?_, S.pc, S.kind, S.rests,
    S.ahead⟩
  · refine (view_currentTime s _).trans ?_
    rw [S.chamber, ← hnow]
  · exact S.time.back hu hpc (by simp) fun j a hj hvisit =>
      (P.calling.seen i ⟨u, hu, by rw [hpc]; rfl⟩).1 j ⟨a, hj, by rw [hvisit]; rfl⟩
  · rw [S.waiting]
    exact (waitingOf_goto S.guests hu (by rw [hpc]; rfl) k).symm

theorem stepVisitor (S : Sim c d w t x s) (P : s.Protocol) (h : s.stepVisitor i = some s') :
    ∃ d' t', Sim c d' w t' x s' := by
  obtain ⟨u, hu, h⟩ := Option.bind_eq_some_iff.1 h
  cases hpc : u.pc <;> simp only [execVisitor, hpc] at h
  case blocked | left => cases h
  case lock | relock =>
    obtain ⟨m, -, rfl⟩ := Option.map_eq_some_iff.1 h
    exact ⟨d, t, S.ofGlobals.setThread hu (by rw [hpc]; rfl) (by simp [hpc]) (by simp)⟩
  case store | wait | unlock =>
    cases h
    exact ⟨d, t, S.ofGlobals.setThread hu (by rw [hpc]; rfl) (by simp [hpc]) (by simp)⟩
  case signal =>
    cases h
    exact ⟨d, t, S.signalled.setThread hu (by rw [hpc]; rfl) (by simp [hpc]) (by simp)⟩
  case test =>
    cases h
    refine ⟨d, t, S.setThread hu ?_ (by simp [hpc]) ?_⟩
    · rw [hpc]
      split_ifs <;> rfl
    · split_ifs <;> simp
  case take =>
    cases h
    obtain ⟨d', S'⟩ := S.take P hu hpc
    exact ⟨d', t, S'⟩
  case visit =>
    cases h
    exact ⟨d, _, S.visit P hu hpc⟩
  case enter =>
    obtain ⟨b, -, rfl⟩ := Option.map_eq_some_iff.1 h
    exact ⟨d, t, (S.ofBarrier P).setThread hu (by rw [hpc]; rfl) (by simp [hpc]) (by simp)⟩
  case barrier =>
    obtain ⟨⟨s₁, done⟩, hb, rfl⟩ := Option.map_eq_some_iff.1 h
    obtain ⟨b, -, he⟩ := Option.map_eq_some_iff.1 hb
    cases he
    refine ⟨d, t, (S.ofBarrier P).setThread hu ?_ (by simp [hpc]) ?_⟩
    · rw [hpc]
      split_ifs <;> rfl
    · split_ifs <;> simp

end Sim

end Clinic

end OsLab.A6
