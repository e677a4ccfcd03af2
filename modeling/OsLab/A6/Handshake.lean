import OsLab.A6.PthreadBarrier
import OsLab.A6.Session

/-!
# The session statement by statement (A6/session.c)

| here | there |
| --- | --- |
| `Party`, `Thread`          | the threads: `main`, `doctor`, and the visitors in the order of their creation |
| `Clinic`                   | the globals, main's variables (`Chamber`, `next`) and where every thread is |
| `Clinic.stepDoctor`        | `doctor` (:141) |
| `Clinic.stepVisitor`       | `patient`, `salesrep`, `reporter` (:170-259), which differ in their mutex, condition and flag |
| `Clinic.stepMain`          | `main` (:273-644) |
| `WakePc`, `Clinic.wakeDoctor` | the blocks that set `doc_done` |
| `AsstPc`, `Clinic.waitAsst`   | the blocks that wait for `asst_done` |
| `CallPc`, `Clinic.callVisitor` | the blocks that set `rep_done`, `pat_done`, `srep_done` |

What main decides between the blocks is that of `Chamber`; of `Chamber.waiting` only the lengths, `num_waiting_*`,
matter here. `pthread_cond_wait` gives the mutex back and blocks in one step, a signal wakes one waiter or is lost, and
nobody wakes without a signal. A visitor thread has its entry of `visitor_infos` from its creation on.
-/

namespace OsLab.A6

open Function (update)

inductive Party
  | main | doctor | visitor (i : Nat)
deriving DecidableEq, Repr

/-- Where main serves a visitor: on an arrival (:429), in the loop at :499, in the loop at :575. -/
inductive Serve
  | receive | others | pending
deriving DecidableEq, Repr

/-- Where main lets the doctor leave (:299, :555, :637). -/
inductive Leave
  | top | others | final
deriving DecidableEq, Repr

/-- What main wakes the doctor for. -/
inductive Wake
  | leave (l : Leave) | serve (v : Serve)
deriving DecidableEq, Repr

/-- Whom main waits for. -/
inductive Awaited
  | visitor (k : Kind) | doctor (v : Serve)
deriving DecidableEq, Repr

inductive WakePc
  | lock | set | signal | unlock
deriving DecidableEq, Repr

inductive AsstPc
  | lock | test
  /-- Has found `asst_done` 0, and is about to block. -/
  | wait
  | blocked
  | relock
  | clear | unlock
deriving DecidableEq, Repr

inductive CallPc
  | lock | set | count | signal | unlock
deriving DecidableEq, Repr

inductive MainPc
  | createDoctor
  | loop
  | wake (p : WakePc) (w : Wake) | join (l : Leave)
  | dispatch
  | createThread (k : Kind)
  | asst (p : AsstPc) (a : Awaited)
  | admitted (k : Kind)
  | receive
  | turn (v : Serve) | call (p : CallPc) (k : Kind) (v : Serve)
  | enter (v : Serve) | barrier (v : Serve) | addevent (v : Serve)
  | finish
  | others | resume
  | pending
  | returned
deriving DecidableEq, Repr

inductive DoctorPc
  | unborn
  | lock | test | wait | blocked | relock | take | unlock
  | check
  | store | signal
  | enter | barrier
  | left
deriving DecidableEq, Repr

inductive VisitorPc
  | lock
  | store | signal
  | test | wait | blocked | relock | take
  | visit | unlock
  | enter | barrier
  | left
deriving DecidableEq, Repr

structure Thread where
  kind : Kind
  duration : Int
  pc : VisitorPc
deriving DecidableEq, Repr

/-- Blocked on the condition of its class. -/
def Thread.waitsFor (t : Thread) (k : Kind) : Bool := t.kind = k ∧ t.pc = .blocked

structure Clinic where
  chamber : Chamber
  next : Event
  main : MainPc
  doctor : DoctorPc
  threads : List Thread
  doctorMutex : Option Party
  asstMutex : Option Party
  visitorMutex : Kind → Option Party
  docDone : Bool
  asstDone : Bool
  visitorDone : Kind → Bool
  barrier : PthreadBarrier Party

/-- `main w` lets main's signal wake the visitor `w`. -/
inductive SessionStep
  | main (w : Nat) | doctor | visitor (i : Nat)
deriving DecidableEq, Repr

/-- `pthread_mutex_lock`: blocks while somebody has the mutex. -/
def acquire (m : Option Party) (p : Party) : Option (Option Party) := if m = none then some (some p) else none

namespace Chamber

/-- `num_waiting_*--`, and `num_served_*++` (:457-480). -/
def callNext (s : Chamber) (k : Kind) : Chamber :=
  { s with
    waiting := update s.waiting k (s.waiting k).tail
    numServedPatients := if k = .patient then s.numServedPatients + 1 else s.numServedPatients
    numServedSalesreps := if k = .salesrep then s.numServedSalesreps + 1 else s.numServedSalesreps }

/-- The test at :299 and :555. -/
def Leaves (s : Chamber) (next : Event) : Prop := s.docSessionDone = true ∧ s.doneTime < next.time

instance (s : Chamber) (next : Event) : Decidable (s.Leaves next) := inferInstanceAs (Decidable (_ ∧ _))

end Chamber

namespace Clinic

def init (arrivals : List Event) : Clinic where
  chamber := .init arrivals
  next := ⟨'E', 0, 0⟩
  main := .createDoctor
  doctor := .unborn
  threads := []
  doctorMutex := none
  asstMutex := none
  visitorMutex _ := none
  docDone := false
  asstDone := false
  visitorDone _ := false
  barrier := .init 3

/-- A statement inside `pthread_barrier_wait`, and whether it has returned. -/
def inBarrier (s : Clinic) (p : Party) : Option (Clinic × Bool) :=
  (s.barrier.step (.step p)).map fun b => ({ s with barrier := b }, decide (b.pc p = none))

/-- `pthread_cond_signal(&asst_cond)`. -/
def signalAsst (s : Clinic) : Clinic :=
  { s with main := match s.main with
    | .asst .blocked a => .asst .relock a
    | p => p }

/-! ## The doctor -/

def stepDoctor (s : Clinic) : Option Clinic :=
  match s.doctor with
  | .unborn => none
  | .lock => (acquire s.doctorMutex .doctor).map fun m => { s with doctorMutex := m, doctor := .test }
  | .test => some { s with doctor := if s.docDone = false then .wait else .take }
  | .wait => some { s with doctorMutex := none, doctor := .blocked }
  | .blocked => none
  | .relock => (acquire s.doctorMutex .doctor).map fun m => { s with doctorMutex := m, doctor := .test }
  | .take => some { s with docDone := false, doctor := .unlock }
  | .unlock => some { s with doctorMutex := none, doctor := .check }
  | .check =>
    if s.chamber.docSessionDone = true then
      some { s with
        chamber := { s.chamber with
          doneTime := if s.chamber.doneTime = 0 then s.chamber.currentTime else s.chamber.doneTime }
        doctor := .left }
    else some { s with doctor := .store }
  | .store => some { s with asstDone := true, doctor := .signal }
  | .signal => some { s.signalAsst with doctor := .enter }
  | .enter => (s.barrier.step (.enter .doctor)).map fun b => { s with barrier := b, doctor := .barrier }
  | .barrier => (s.inBarrier .doctor).map fun (s, done) => { s with doctor := if done then .lock else .barrier }
  | .left => none

/-! ## The visitors -/

def setThread (s : Clinic) (i : Nat) (t : Thread) (p : VisitorPc) : Clinic :=
  { s with threads := s.threads.set i { t with pc := p } }

def execVisitor (s : Clinic) (i : Nat) (t : Thread) : Option Clinic :=
  match t.pc with
  | .lock => (acquire (s.visitorMutex t.kind) (.visitor i)).map fun m =>
      { s with visitorMutex := update s.visitorMutex t.kind m }.setThread i t .store
  | .store => some ({ s with asstDone := true }.setThread i t .signal)
  | .signal => some (s.signalAsst.setThread i t .test)
  | .test => some (s.setThread i t (if s.visitorDone t.kind = false then .wait else .take))
  | .wait => some ({ s with visitorMutex := update s.visitorMutex t.kind none }.setThread i t .blocked)
  | .blocked => none
  | .relock => (acquire (s.visitorMutex t.kind) (.visitor i)).map fun m =>
      { s with visitorMutex := update s.visitorMutex t.kind m }.setThread i t .test
  | .take => some ({ s with visitorDone := update s.visitorDone t.kind false }.setThread i t .visit)
  | .visit => some ({ s with
      chamber := { s.chamber with currentTime := int32 (s.chamber.currentTime + t.duration) } }.setThread i t .unlock)
  | .unlock => some ({ s with visitorMutex := update s.visitorMutex t.kind none }.setThread i t .enter)
  | .enter => (s.barrier.step (.enter (.visitor i))).map fun b => { s with barrier := b }.setThread i t .barrier
  | .barrier => (s.inBarrier (.visitor i)).map fun (s, done) => s.setThread i t (if done then .left else .barrier)
  | .left => none

def stepVisitor (s : Clinic) (i : Nat) : Option Clinic := (s.threads[i]?).bind (s.execVisitor i)

/-! ## main -/

def wakeDoctor (s : Clinic) (p : WakePc) (w : Wake) : Option Clinic :=
  match p with
  | .lock => (acquire s.doctorMutex .main).map fun m => { s with doctorMutex := m, main := .wake .set w }
  | .set => some { s with
      chamber := if w = .leave .final then { s.chamber with docSessionDone := true } else s.chamber
      docDone := true
      main := .wake .signal w }
  | .signal => some { s with doctor := if s.doctor = .blocked then .relock else s.doctor, main := .wake .unlock w }
  | .unlock => some { s with
      doctorMutex := none
      main := match w with
        | .leave l => .join l
        | .serve v => .asst .lock (.doctor v) }

/-- `while (asst_done == 0) pthread_cond_wait(&asst_cond, &asst_mutex); asst_done = 0;` under `asst_mutex`. -/
def waitAsst (s : Clinic) (p : AsstPc) (a : Awaited) : Option Clinic :=
  match p with
  | .lock => (acquire s.asstMutex .main).map fun m => { s with asstMutex := m, main := .asst .test a }
  | .test => some { s with main := .asst (if s.asstDone = false then .wait else .clear) a }
  | .wait => some { s with asstMutex := none, main := .asst .blocked a }
  | .blocked => none
  | .relock => (acquire s.asstMutex .main).map fun m => { s with asstMutex := m, main := .asst .test a }
  | .clear => some { s with asstDone := false, main := .asst .unlock a }
  | .unlock => some { s with
      asstMutex := none
      main := match a with
        | .visitor k => .admitted k
        | .doctor v => .turn v }

def callVisitor (s : Clinic) (p : CallPc) (k : Kind) (v : Serve) (w : Nat) : Option Clinic :=
  match p with
  | .lock => (acquire (s.visitorMutex k) .main).map fun m =>
      { s with visitorMutex := update s.visitorMutex k m, main := .call .set k v }
  | .set => some { s with visitorDone := update s.visitorDone k true, main := .call .count k v }
  | .count => some { s with chamber := s.chamber.callNext k, main := .call .signal k v }
  | .signal =>
    match s.threads[w]? with
    | some t =>
      if t.waitsFor k then some { s.setThread w t .relock with main := .call .unlock k v } else none
    | none => if s.threads.any (·.waitsFor k) then none else some { s with main := .call .unlock k v }
  | .unlock => some { s with visitorMutex := update s.visitorMutex k none, main := .enter v }

/-- :284-297. -/
def loop (s : Clinic) : Clinic :=
  if s.chamber.E.emptyQ then { s with main := .pending }
  else
    let next := s.chamber.E.nextevent
    let chamber := s.chamber.checkSession
    { s with
      next := next
      chamber := chamber
      main := if chamber.Leaves next then .wake .lock (.leave .top) else .dispatch }

/-- :308-355, up to the creation of the visitor's thread. -/
def dispatch (s : Clinic) : Clinic :=
  if s.next.type = 'D' then { s with chamber := { s.chamber with E := s.chamber.E.delevent }, main := .loop }
  else if s.chamber.currentTime < s.next.time ∨ s.chamber.docArrived = .awaited then
    { s with chamber := { s.chamber with docArrived := .awaited }, main := .others }
  else
    match kindOf s.next.type with
    | some k =>
      match s.chamber.refusal s.next k with
      | some reason => { s with chamber := s.chamber.turnAway s.next k reason, main := .loop }
      | none => { s with main := .createThread k }
    | none => { s with main := .receive }

/-- :429-440. -/
def receive (s : Clinic) : Clinic :=
  if s.chamber.docArrived = .free then
    if s.next.time < s.chamber.currentTime then
      { s with chamber := { s.chamber with docArrived := .busy, E := s.chamber.E.delevent }, main := .loop }
    else { s with main := if s.chamber.turn ≠ none then .wake .lock (.serve .receive) else .turn .receive }
  else { s with main := .finish }

/-- :499 and what follows the loop. -/
def others (s : Clinic) : Clinic :=
  if s.chamber.currentTime < s.next.time ∧ s.chamber.turn ≠ none then { s with main := .wake .lock (.serve .others) }
  else
    let chamber := s.chamber.checkSession
    { s with chamber := chamber, main := if chamber.Leaves s.next then .wake .lock (.leave .others) else .resume }

/-- Where main goes on when a visitor has been served. -/
def back : Serve → MainPc
  | .receive => .finish
  | .others => .others
  | .pending => .pending

/-- Where main goes on when the doctor has left. -/
def behind : Leave → MainPc
  | .top => .dispatch
  | .others => .resume
  | .final => .returned

def stepMain (s : Clinic) (w : Nat) : Option Clinic :=
  match s.main with
  | .createDoctor => some { s with doctor := .lock, main := .loop }
  | .loop => some s.loop
  | .wake p w => s.wakeDoctor p w
  | .join l => if s.doctor = .left then some { s with main := behind l } else none
  | .dispatch => some s.dispatch
  | .createThread k => some { s with
      threads := s.threads ++ [⟨k, s.next.duration, .lock⟩]
      main := .asst .lock (.visitor k) }
  | .asst p a => s.waitAsst p a
  | .admitted k => some { s with chamber := s.chamber.admitVisitor s.next k, main := .receive }
  | .receive => some s.receive
  | .turn v => some { s with main := match s.chamber.turn with
      | some k => .call .lock k v
      | none => back v }
  | .call p k v => s.callVisitor p k v w
  | .enter v => (s.barrier.step (.enter .main)).map fun b => { s with barrier := b, main := .barrier v }
  | .barrier v => (s.inBarrier .main).map fun (s, done) => { s with main := if done then .addevent v else .barrier v }
  | .addevent v => some { s with
      chamber := { s.chamber with E := s.chamber.E.enqueue ⟨'D', s.chamber.currentTime, 0⟩ }
      main := back v }
  | .finish => some { s with chamber := s.chamber.finish s.next, main := .loop }
  | .others => some s.others
  | .resume => some { s with
      chamber := { s.chamber with
        currentTime := if s.chamber.currentTime < s.next.time then s.next.time else s.chamber.currentTime
        docArrived := .free }
      main := .loop }
  | .pending => some { s with
      main := if s.chamber.turn ≠ none then .wake .lock (.serve .pending) else .wake .lock (.leave .final) }
  | .returned => none

def step (s : Clinic) : SessionStep → Option Clinic
  | .main w => s.stepMain w
  | .doctor => s.stepDoctor
  | .visitor i => s.stepVisitor i

end Clinic

end OsLab.A6
