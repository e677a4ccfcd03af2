import OsLab.A6.Event
import OsLab.Lib.Int32

/-!
# The doctor's session (A6/session.c)

| here | there |
| --- | --- |
| `Kind`, `kindOf`            | the types `R`, `P`, `S` of a visitor |
| `Chamber.num`               | `num_reporters`, `num_patients`, `num_salesreps` |
| `Chamber.waiting`           | the visitor threads that wait; `num_waiting_*` are the lengths |
| `DocArrived`                | `doc_arrived` 0, 1, 2 (:278-282) |
| `Chamber.checkSession`, `.joinDoctor` | :291-306 and :547-562 |
| `Chamber.refusal`, `.turnAway`, `.admitVisitor` | :319-427 |
| `Chamber.serve`             | :455-485, :513-543 and :589-619 |
| `Chamber.iterate`           | an iteration of the loop (:284-571) up to the one inside it |
| `Chamber.serveOthers`, `.servePending` | an iteration of the loops at :499 and :575, or what follows them |

A handshake of main with the doctor and a visitor is one step: the visitor that is woken, which the label of the
step chooses among those of its class, adds its duration to `current_time`, an `int` that wraps; `Fits` says of a state
that no visit can make it wrap. A visitor thread has copied its entry of `visitor_infos` before main goes on. The arrays
are as long as needed; `Chamber.accesses` says what is written where. `admitted`, `turnedAway` and `served` record what is
printed, `joins` the calls of `pthread_join` at :305 and :561.
-/

namespace OsLab.A6

open Function (update)

def maxPatients : Nat := 25

def maxSalesreps : Nat := 3

inductive Kind
  | reporter | patient | salesrep
deriving DecidableEq, Repr

def kindOf (type : Char) : Option Kind :=
  if type = 'R' then some .reporter
  else if type = 'P' then some .patient
  else if type = 'S' then some .salesrep
  else none

inductive Reason
  | sessionOver | quotaFull
deriving DecidableEq, Repr

/-- The doctor is busy or has not arrived; has arrived and others wait; has arrived and nobody waits. -/
inductive DocArrived
  | busy | awaited | free
deriving DecidableEq, Repr

structure Visitor where
  id : Nat
  event : Event
deriving DecidableEq, Repr

/-- A visitor in the chamber, from `start` on. -/
structure Visit where
  visitor : Visitor
  start : Int
deriving DecidableEq, Repr

structure Refusal where
  visitor : Visitor
  reason : Reason
deriving DecidableEq, Repr

/-- At the test of the main loop, of the loop at :499 (with `next`), of the loop at :575, behind the last join. -/
inductive Pc
  | top
  | others (next : Event)
  | pending
  | returned
deriving DecidableEq, Repr

structure Chamber where
  E : EventQ
  currentTime : Int
  num : Kind → Nat
  waiting : Kind → List Visitor
  numServedPatients : Nat
  numServedSalesreps : Nat
  docSessionDone : Bool
  doneTime : Int
  docArrived : DocArrived
  numVisitors : Nat
  joins : Nat
  pc : Pc
  admitted : List Visitor
  turnedAway : List Refusal
  served : List Visit

namespace Chamber

/-- The queue that `initEQ` builds of the lines of the file. -/
def initEQ (arrivals : List Event) : EventQ :=
  EventQ.heapify ⟨arrivals.length, fun i => arrivals.getD i ⟨'E', 0, 0⟩⟩

def init (arrivals : List Event) : Chamber where
  E := initEQ arrivals
  currentTime := 0
  num _ := 0
  waiting _ := []
  numServedPatients := 0
  numServedSalesreps := 0
  docSessionDone := false
  doneTime := 0
  docArrived := .busy
  numVisitors := 0
  joins := 0
  pc := .top
  admitted := []
  turnedAway := []
  served := []

/-! ## The end of the session -/

def checkSession (s : Chamber) : Chamber :=
  if s.docSessionDone = false ∧ s.numServedPatients = maxPatients ∧ s.numServedSalesreps = maxSalesreps then
    { s with
      docSessionDone := true
      doneTime := s.currentTime
      numServedPatients := s.numServedPatients + 1
      numServedSalesreps := s.numServedSalesreps + 1 }
  else s

/-- When the doctor leaves the first time, it sets `done_time` if that is 0 (:152-159). -/
def leave (s : Chamber) : Int := if s.joins = 0 ∧ s.doneTime = 0 then s.currentTime else s.doneTime

def joinDoctor (s : Chamber) (next : Event) : Chamber :=
  if s.docSessionDone = true ∧ s.doneTime < next.time then { s with joins := s.joins + 1, doneTime := s.leave } else s

def closeSession (s : Chamber) (next : Event) : Chamber := s.checkSession.joinDoctor next

/-! ## A handshake -/

/-- The class whose turn it is. -/
def turn (s : Chamber) : Option Kind :=
  if s.waiting .reporter ≠ [] then some .reporter
  else if s.waiting .patient ≠ [] then some .patient
  else if s.waiting .salesrep ≠ [] then some .salesrep
  else none

/-- `v` is woken and sees the doctor. -/
def visit (s : Chamber) (k : Kind) (i : Nat) (v : Visitor) : Chamber :=
  let endTime := int32 (s.currentTime + v.event.duration)
  { s with
    waiting := update s.waiting k ((s.waiting k).eraseIdx i)
    numServedPatients := if k = .patient then s.numServedPatients + 1 else s.numServedPatients
    numServedSalesreps := if k = .salesrep then s.numServedSalesreps + 1 else s.numServedSalesreps
    currentTime := endTime
    E := s.E.enqueue ⟨'D', endTime, 0⟩
    served := s.served ++ [⟨v, s.currentTime⟩] }

/-- The waiting visitor `i` of the class whose turn it is, if any waits. -/
def serve (s : Chamber) (i : Nat) : Option Chamber :=
  match s.turn with
  | none => some s
  | some k => ((s.waiting k)[i]?).map fun v => s.visit k i v

/-! ## The main loop -/

def isOver (s : Chamber) : Prop := maxPatients < s.numServedPatients ∧ maxSalesreps < s.numServedSalesreps

instance (s : Chamber) : Decidable s.isOver := inferInstanceAs (Decidable (_ ∧ _))

/-- Why the next visitor is turned away, if it is. -/
def refusal (s : Chamber) (next : Event) : Kind → Option Reason
  | .reporter => if s.isOver then some .sessionOver else none
  | .patient =>
    if maxPatients ≤ s.num .patient then
      some (if s.isOver ∧ s.doneTime < next.time then .sessionOver else .quotaFull)
    else none
  | .salesrep =>
    if maxSalesreps ≤ s.num .salesrep then
      some (if s.isOver ∧ s.doneTime < next.time then .sessionOver else .quotaFull)
    else none

def turnAway (s : Chamber) (next : Event) (k : Kind) (reason : Reason) : Chamber :=
  { s with
    num := update s.num k (s.num k + 1)
    turnedAway := s.turnedAway ++ [⟨⟨s.num k + 1, next⟩, reason⟩]
    E := s.E.delevent }

def admitVisitor (s : Chamber) (next : Event) (k : Kind) : Chamber :=
  { s with
    num := update s.num k (s.num k + 1)
    waiting := update s.waiting k (s.waiting k ++ [⟨s.num k + 1, next⟩])
    admitted := s.admitted ++ [⟨s.num k + 1, next⟩] }

/-- :489-493. -/
def finish (s : Chamber) (next : Event) : Chamber :=
  { s with
    numVisitors := s.numVisitors + 1
    currentTime := if s.currentTime < next.time then next.time else s.currentTime
    E := s.E.delevent }

/-- :429-493, behind the admission. -/
def receive (s : Chamber) (next : Event) (i : Nat) : Option Chamber :=
  if s.docArrived = .free then
    if next.time < s.currentTime then some { s with docArrived := .busy, E := s.E.delevent }
    else (s.serve i).map fun s => s.finish next
  else some (s.finish next)

/-- :317-495. -/
def arrive (s : Chamber) (next : Event) (i : Nat) : Option Chamber :=
  match kindOf next.type with
  | some k =>
    match s.refusal next k with
    | some reason => some (s.turnAway next k reason)
    | none => (s.admitVisitor next k).receive next i
  | none => s.receive next i

/-- :308-495, behind the checks for the end of the session. A visitor who comes later than `current_time` waits in
the queue until the others have been served. -/
def handle (s : Chamber) (next : Event) (i : Nat) : Option Chamber :=
  if next.type = 'D' then some { s with E := s.E.delevent }
  else if s.currentTime < next.time ∨ s.docArrived = .awaited then
    some { s with docArrived := .awaited, pc := .others next }
  else s.arrive next i

def iterate (s : Chamber) (i : Nat) : Option Chamber :=
  if s.E.emptyQ then some { s with pc := .pending }
  else (s.closeSession s.E.nextevent).handle s.E.nextevent i

/-- :499-569. -/
def serveOthers (s : Chamber) (next : Event) (i : Nat) : Option Chamber :=
  if s.currentTime < next.time ∧ s.turn ≠ none then s.serve i
  else
    let s := s.closeSession next
    some { s with
      currentTime := if s.currentTime < next.time then next.time else s.currentTime
      docArrived := .free
      pc := .top }

/-- :574-634. -/
def servePending (s : Chamber) (i : Nat) : Option Chamber :=
  if s.turn ≠ none then s.serve i
  else some { s with docSessionDone := true, doneTime := s.leave, pc := .returned }

/-- `i` chooses who is woken when somebody is. -/
def step (s : Chamber) (i : Nat) : Option Chamber :=
  match s.pc with
  | .top => s.iterate i
  | .others next => s.serveOthers next i
  | .pending => s.servePending i
  | .returned => none

/-! ## The clock -/

/-- The next event is a visitor of the class whose time has come and who is not turned away. -/
def LetsIn (s : Chamber) (k : Kind) : Prop :=
  s.pc = .top ∧ 0 < s.E.n ∧ s.E.nextevent.time ≤ s.currentTime ∧ kindOf s.E.nextevent.type = some k ∧
    (s.closeSession s.E.nextevent).refusal s.E.nextevent k = none

instance (s : Chamber) (k : Kind) : Decidable (s.LetsIn k) := inferInstanceAs (Decidable (_ ∧ _ ∧ _ ∧ _ ∧ _))

/-- The visits of those who wait, and of whoever is let in now, end at `INT_MAX` at the latest. -/
def Fits (s : Chamber) : Prop :=
  ∀ k, (∀ v ∈ s.waiting k, s.currentTime + v.event.duration ≤ intMax) ∧
    (s.LetsIn k → s.currentTime + s.E.nextevent.duration ≤ intMax)

instance (s : Chamber) : Decidable s.Fits :=
  decidable_of_iff (∀ k ∈ [Kind.reporter, .patient, .salesrep],
    (∀ v ∈ s.waiting k, s.currentTime + v.event.duration ≤ intMax) ∧
      (s.LetsIn k → s.currentTime + s.E.nextevent.duration ≤ intMax))
    ⟨fun h k => h k (by cases k <;> decide), fun h k _ => h k⟩

/-- The visit ends when its duration has passed. -/
theorem visit_currentTime {s : Chamber} {v : Visitor} (h0 : 0 ≤ s.currentTime) (hdur : 0 ≤ v.event.duration)
    (hfit : s.currentTime + v.event.duration ≤ intMax) (k : Kind) (i : Nat) :
    (s.visit k i v).currentTime = s.currentTime + v.event.duration := int32_eq (Int.add_nonneg h0 hdur) hfit

/-! ## What a step can do -/

section
variable (s : Chamber) (next : Event)

/-- The end of the session touches the counters of `checkSession` and the doctor only. -/
theorem closeSession_eq : ∃ (done : Bool) (time : Int) (p r j : Nat), s.closeSession next =
    { s with docSessionDone := done, doneTime := time, numServedPatients := p, numServedSalesreps := r, joins := j } := by
  unfold closeSession joinDoctor checkSession
  split_ifs <;> exact ⟨_, _, _, _, _, rfl⟩

@[simp] theorem closeSession_E : (s.closeSession next).E = s.E := by
  obtain ⟨_, _, _, _, _, h⟩ := s.closeSession_eq next
  rw [h]

@[simp] theorem closeSession_currentTime : (s.closeSession next).currentTime = s.currentTime := by
  obtain ⟨_, _, _, _, _, h⟩ := s.closeSession_eq next
  rw [h]

@[simp] theorem closeSession_num : (s.closeSession next).num = s.num := by
  obtain ⟨_, _, _, _, _, h⟩ := s.closeSession_eq next
  rw [h]

@[simp] theorem closeSession_waiting : (s.closeSession next).waiting = s.waiting := by
  obtain ⟨_, _, _, _, _, h⟩ := s.closeSession_eq next
  rw [h]

@[simp] theorem closeSession_docArrived : (s.closeSession next).docArrived = s.docArrived := by
  obtain ⟨_, _, _, _, _, h⟩ := s.closeSession_eq next
  rw [h]

@[simp] theorem closeSession_pc : (s.closeSession next).pc = s.pc := by
  obtain ⟨_, _, _, _, _, h⟩ := s.closeSession_eq next
  rw [h]

@[simp] theorem closeSession_admitted : (s.closeSession next).admitted = s.admitted := by
  obtain ⟨_, _, _, _, _, h⟩ := s.closeSession_eq next
  rw [h]

@[simp] theorem closeSession_turnedAway : (s.closeSession next).turnedAway = s.turnedAway := by
  obtain ⟨_, _, _, _, _, h⟩ := s.closeSession_eq next
  rw [h]

@[simp] theorem closeSession_served : (s.closeSession next).served = s.served := by
  obtain ⟨_, _, _, _, _, h⟩ := s.closeSession_eq next
  rw [h]

end

section
variable {s s' : Chamber} {i : Nat} {next : Event}

/-- `next` is a visitor whose time has come. -/
structure Arrives (s : Chamber) (next : Event) : Prop where
  pc : s.pc = .top
  pos : 0 < s.E.n
  head : s.E.nextevent = next
  type : next.type ≠ 'D'
  time : next.time ≤ s.currentTime

/-- So do the visits of those who wait behind the admission of `next`. -/
theorem Fits.admitted {k l : Kind} {v : Visitor} (h : s.Fits) (ha : s.Arrives next) (hkind : kindOf next.type = some k)
    (hreason : (s.closeSession next).refusal next k = none)
    (hv : v ∈ ((s.closeSession next).admitVisitor next k).waiting l) : s.currentTime + v.event.duration ≤ intMax := by
  obtain ⟨hpc, hpos, rfl, -, htime⟩ := ha
  by_cases hl : l = k
  · subst hl
    simp only [admitVisitor, Function.update_self, closeSession_waiting] at hv
    rcases List.mem_append.1 hv with hv | hv
    · exact (h l).1 v hv
    · rw [List.mem_singleton.1 hv]
      exact (h l).2 ⟨hpc, hpos, htime, hkind, hreason⟩
  · simp only [admitVisitor, Function.update_of_ne hl, closeSession_waiting] at hv
    exact (h l).1 v hv

inductive Moved (s : Chamber) (i : Nat) : Chamber → Prop
  | drained : s.pc = .top → s.E.n = 0 → Moved s i { s with pc := .pending }
  | doctorEvent (next : Event) : s.pc = .top → 0 < s.E.n → s.E.nextevent = next → next.type = 'D' →
      Moved s i { s.closeSession next with E := s.E.delevent }
  | ahead (next : Event) : s.pc = .top → 0 < s.E.n → s.E.nextevent = next → next.type ≠ 'D' →
      s.currentTime < next.time ∨ s.docArrived = .awaited →
      Moved s i { s.closeSession next with docArrived := .awaited, pc := .others next }
  | refused (next : Event) (k : Kind) (reason : Reason) : s.Arrives next → kindOf next.type = some k →
      (s.closeSession next).refusal next k = some reason → Moved s i ((s.closeSession next).turnAway next k reason)
  | admitted (next : Event) (k : Kind) (d : DocArrived) (n : Nat) : s.Arrives next → kindOf next.type = some k →
      (s.closeSession next).refusal next k = none → d ≠ .awaited →
      Moved s i { (s.closeSession next).admitVisitor next k with docArrived := d, numVisitors := n, E := s.E.delevent }
  | visited (next : Event) (k l : Kind) (v : Visitor) : s.Arrives next → kindOf next.type = some k →
      (s.closeSession next).refusal next k = none → s.currentTime = next.time → s.docArrived = .free →
      ((s.closeSession next).admitVisitor next k).turn = some l →
      (((s.closeSession next).admitVisitor next k).waiting l)[i]? = some v →
      Moved s i ((((s.closeSession next).admitVisitor next k).visit l i v).finish next)
  | other (next : Event) (s' : Chamber) : s.Arrives next → kindOf next.type = none → Moved s i s'
  | others (next : Event) (k : Kind) (v : Visitor) : s.pc = .others next → s.currentTime < next.time →
      s.turn = some k → (s.waiting k)[i]? = some v → Moved s i (s.visit k i v)
  | resume (next : Event) : s.pc = .others next → (s.currentTime < next.time → s.turn = none) →
      Moved s i { s.closeSession next with
        currentTime := if s.currentTime < next.time then next.time else s.currentTime
        docArrived := .free
        pc := .top }
  | pending (k : Kind) (v : Visitor) : s.pc = .pending → s.turn = some k → (s.waiting k)[i]? = some v →
      Moved s i (s.visit k i v)
  | returned : s.pc = .pending → s.turn = none →
      Moved s i { s with docSessionDone := true, doneTime := s.leave, pc := .returned }

theorem turn_eq_none : s.turn = none ↔ ∀ k, s.waiting k = [] := by
  unfold turn
  constructor
  · intro h k
    split_ifs at h with hr hp hs
    cases k with
    | reporter => exact not_not.1 hr
    | patient => exact not_not.1 hp
    | salesrep => exact not_not.1 hs
  · intro h
    simp [h]

/-- Somebody of the class waits, and nobody of a higher class does. -/
theorem turn_eq_some {k : Kind} (h : s.turn = some k) :
    s.waiting k ≠ [] ∧ (k ≠ .reporter → s.waiting .reporter = []) ∧ (k = .salesrep → s.waiting .patient = []) := by
  unfold turn at h
  split_ifs at h with hr hp hs <;> cases h
  · exact ⟨hr, fun h => absurd rfl h, fun h => by cases h⟩
  · exact ⟨hp, fun _ => not_not.1 hr, fun h => by cases h⟩
  · exact ⟨hs, fun _ => not_not.1 hr, fun _ => not_not.1 hp⟩

theorem exists_serve (s : Chamber) : ∃ s', s.serve 0 = some s' := by
  cases hturn : s.turn with
  | none => exact ⟨s, by rw [serve, hturn]⟩
  | some k =>
    obtain ⟨v, hv⟩ : ∃ v, (s.waiting k)[0]? = some v := by
      rw [← List.head?_eq_getElem?]
      exact ⟨_, List.head?_eq_some_head (turn_eq_some hturn).1⟩
    exact ⟨s.visit k 0 v, by simp [serve, hturn, hv]⟩

theorem serve_some {k : Kind} (hturn : s.turn = some k) (h : s.serve i = some s') :
    ∃ v, (s.waiting k)[i]? = some v ∧ s.visit k i v = s' := by
  rw [serve, hturn] at h
  exact Option.map_eq_some_iff.1 h

/-- The visitor that comes in is refused, or waits, or somebody is served at once. -/
theorem moved_of_arrive (ha : s.Arrives next) (hd : s.docArrived ≠ .awaited)
    (h : (s.closeSession next).arrive next i = some s') : Moved s i s' := by
  have hlate : ¬ s.currentTime < next.time := not_lt.2 ha.time
  unfold arrive at h
  split at h
  case h_2 hkind => exact .other next s' ha hkind
  case h_1 k hkind =>
    split at h
    case h_1 reason hreason =>
      cases h
      exact .refused next k reason ha hkind hreason
    case h_2 hreason =>
      rw [receive] at h
      split_ifs at h with hfree hpast
      · have heq : s' = { (s.closeSession next).admitVisitor next k with
            docArrived := .busy
            numVisitors := (s.closeSession next).numVisitors
            E := s.E.delevent } := by
          rw [← Option.some.inj h]
          simp [admitVisitor]
        rw [heq]
        exact .admitted next k .busy _ ha hkind hreason (by decide)
      · obtain ⟨t, hserve, rfl⟩ := Option.map_eq_some_iff.1 h
        have hfree' : s.docArrived = .free := by simpa [admitVisitor] using hfree
        have hnow : s.currentTime = next.time := le_antisymm (by simpa [admitVisitor] using hpast) ha.time
        cases hturn : ((s.closeSession next).admitVisitor next k).turn with
        | none =>
          have hnone := turn_eq_none.1 hturn k
          simp [admitVisitor] at hnone
        | some l =>
          obtain ⟨v, hv, rfl⟩ := serve_some hturn hserve
          exact .visited next k l v ha hkind hreason hnow hfree' hturn hv
      · have heq : s' = { (s.closeSession next).admitVisitor next k with
            docArrived := s.docArrived
            numVisitors := (s.closeSession next).numVisitors + 1
            E := s.E.delevent } := by
          rw [← Option.some.inj h]
          simp [admitVisitor, finish, hlate]
        rw [heq]
        exact .admitted next k s.docArrived _ ha hkind hreason hd

theorem moved_of_step (h : s.step i = some s') : Moved s i s' := by
  unfold step at h
  split at h
  case h_1 hpc =>
    rw [iterate] at h
    split_ifs at h with hempty
    · cases h
      exact .drained hpc (by simpa [EventQ.emptyQ] using hempty)
    · have hpos : 0 < s.E.n := by
        rw [EventQ.emptyQ, beq_iff_eq] at hempty
        omega
      rw [handle] at h
      split_ifs at h with hdoctor hahead
      · cases h
        rw [closeSession_E]
        exact .doctorEvent _ hpc hpos rfl hdoctor
      · cases h
        exact .ahead _ hpc hpos rfl hdoctor (by simpa using hahead)
      · rw [closeSession_currentTime, closeSession_docArrived, not_or] at hahead
        exact moved_of_arrive ⟨hpc, hpos, rfl, hdoctor, not_lt.1 hahead.1⟩ hahead.2 h
  case h_2 next hpc =>
    rw [serveOthers] at h
    split_ifs at h with hwait
    · obtain ⟨k, hturn⟩ := Option.ne_none_iff_exists'.1 hwait.2
      obtain ⟨v, hv, rfl⟩ := serve_some hturn h
      exact .others next k v hpc hwait.1 hturn hv
    · cases h
      simp only [closeSession_currentTime]
      exact .resume next hpc fun hlt => by_contra fun hturn => hwait ⟨hlt, hturn⟩
  case h_3 hpc =>
    rw [servePending] at h
    split_ifs at h with hwait
    · obtain ⟨k, hturn⟩ := Option.ne_none_iff_exists'.1 hwait
      obtain ⟨v, hv, rfl⟩ := serve_some hturn h
      exact .pending k v hpc hturn hv
    · cases h
      exact .returned hpc (not_not.1 hwait)
  case h_4 => cases h

end

end Chamber

end OsLab.A6
