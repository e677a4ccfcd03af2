import OsLab.A8.Mmu

/-!
# Processes, scheduler and MMU (A8/process.c, A8/sched.c, A8/mmu.c)

| here | there |
| --- | --- |
| `Paging.msq1`, `.msq2`, `.msq3` | the message queues `msqid1`, `msqid2`, `msqid3`, oldest message first |
| `Paging.sem`                    | the `k` semaphores between the scheduler and the processes |
| `ProcPc`, `Paging.stepProc`     | `main` of process.c: the statements that send, receive or wait (:55-99) |
| `Paging.refs`                   | the tokens of `ref_str` a process has not been granted yet |
| `SchedPc`, `Paging.stepSched`   | the loop of sched.c (:52-84) |
| `Paging.outbox`, `.stepMmu`     | what the MMU still has to send for the request it is working on (mmu.c:78-273) |

A step sends or receives one message or does one semaphore operation. A receive takes the oldest
message of its type (`recv`), as `msgrcv` does; the queues are unbounded. The MMU's memory is its own, so
a round's work on it is done at once when the request is received, and its messages are sent one by
one. `received` logs who has received a type 2 message on `msqid3` and whose `pid` it carried.
-/

namespace OsLab.A8

open Function (update)

/-- `msq2_t`. -/
structure Msg2 (k : Nat) where
  type : Nat
  pid : Fin k
deriving DecidableEq, Repr

/-- `msq3_t`. -/
structure Msg3 (k : Nat) where
  type : Nat
  num : Int
  pid : Fin k
deriving DecidableEq, Repr

/-- The position of a process: about to register, waiting to be scheduled, about to send, waiting for the
reply, waiting to be loaded, gone. -/
inductive ProcPc
  | register | start | send | reply | load | exited
deriving DecidableEq, Repr

/-- The position of the scheduler: `msgrcv(msqid1)`, `V(sem_proc)`, `msgrcv(msqid2)`, `msgsnd(msqid1)`, gone. -/
inductive SchedPc (k : Nat)
  | ready
  | signal (pid : Fin k)
  | wait
  | resend (pid : Fin k)
  | done
deriving DecidableEq, Repr

inductive Actor (k : Nat)
  | proc (i : Fin k) | sched | mmu
deriving DecidableEq, Repr

structure Paging (k : Nat) where
  mmu : Mmu k
  msq1 : List (Fin k)
  msq2 : List (Msg2 k)
  msq3 : List (Msg3 k)
  sem : Fin k → Nat
  pc : Fin k → ProcPc
  refs : Fin k → List Nat
  sched : SchedPc k
  terminated : Nat
  outbox : List (MmuMsg k)
  received : List (Fin k × Fin k)

/-- `msgrcv` of a message of type `t`: the message and the rest of the queue. -/
def recv {k : Nat} (t : Nat) (q : List (Msg3 k)) : Option (Msg3 k × List (Msg3 k)) :=
  (q.find? (·.type = t)).map fun m => (m, q.eraseP (·.type = t))

namespace Paging

variable {k : Nat}

/-- The state when `master` has created everybody. -/
def init (f : Nat) (mi : Fin k → Nat) (refs : Fin k → List Nat) : Paging k where
  mmu := Mmu.init f mi
  msq1 := []
  msq2 := []
  msq3 := []
  sem _ := 0
  pc _ := .register
  refs := refs
  sched := .ready
  terminated := 0
  outbox := []
  received := []

def goto (s : Paging k) (i : Fin k) (p : ProcPc) : Paging k := { s with pc := update s.pc i p }

/-- What a process does with a reply (process.c:76-90). -/
def onReply (s : Paging k) (i : Fin k) (num : Int) : Paging k :=
  if num = -1 then s.goto i .load
  else if num = -2 then s.goto i .exited
  else { s with refs := update s.refs i (s.refs i).tail }.goto i .send

/-- One step of process `i`. -/
def stepProc (s : Paging k) (i : Fin k) : Option (Paging k) :=
  match s.pc i with
  | .register => some ({ s with msq1 := s.msq1 ++ [i] }.goto i .start)
  | .start | .load =>
    if 0 < s.sem i then some ({ s with sem := update s.sem i (s.sem i - 1) }.goto i .send) else none
  | .send =>
    match s.refs i with
    | page :: _ => some ({ s with msq3 := s.msq3 ++ [Msg3.mk 1 page i] }.goto i .reply)
    | [] => some ({ s with msq3 := s.msq3 ++ [Msg3.mk 1 (-9) i] }.goto i .exited)
  | .reply => (recv 2 s.msq3).map fun x =>
      { s with msq3 := x.2, received := (i, x.1.pid) :: s.received }.onReply i x.1.num
  | .exited => none

/-- The end of the scheduler's loop (sched.c:83). -/
def loopSched (s : Paging k) : Paging k := { s with sched := if k ≤ s.terminated then .done else .ready }

/-- One step of the scheduler. -/
def stepSched (s : Paging k) : Option (Paging k) :=
  match s.sched with
  | .ready =>
    match s.msq1 with
    | pid :: rest => some { s with msq1 := rest, sched := .signal pid }
    | [] => none
  | .signal pid => some { s with sem := update s.sem pid (s.sem pid + 1), sched := .wait }
  | .wait =>
    match s.msq2 with
    | m :: rest =>
      if m.type = 1 then some { s with msq2 := rest, sched := .resend m.pid }
      else if m.type = 2 then some { s with msq2 := rest, terminated := s.terminated + 1 }.loopSched
      else some { s with msq2 := rest }.loopSched
    | [] => none
  | .resend pid => some { s with msq1 := s.msq1 ++ [pid] }.loopSched
  | .done => none

/-- `msgsnd` by the MMU. -/
def post (s : Paging k) : MmuMsg k → Paging k
  | .sched type pid => { s with msq2 := s.msq2 ++ [⟨type, pid⟩] }
  | .reply num pid => { s with msq3 := s.msq3 ++ [⟨2, num, pid⟩] }

/-- One step of the MMU: it sends its next message or receives its next request. -/
def stepMmu (f : Nat) (s : Paging k) : Option (Paging k) :=
  match s.outbox with
  | m :: out => some ({ s with outbox := out }.post m)
  | [] =>
    if s.mmu.terminatedProcesses < k then
      (recv 1 s.msq3).bind fun x => (s.mmu.handle f ⟨x.1.pid, x.1.num⟩).map fun y =>
        { s with msq3 := x.2, mmu := y.1, outbox := y.2 }
    else none

def step (f : Nat) (s : Paging k) : Actor k → Option (Paging k)
  | .proc i => s.stepProc i
  | .sched => s.stepSched
  | .mmu => s.stepMmu f

theorem goto_pc (s : Paging k) (i j : Fin k) (p) : (s.goto i p).pc j = if j = i then p else s.pc j := by
  simp [goto, Function.update_apply]

/-- What a process can do. -/
inductive ProcMove (s : Paging k) (i : Fin k) : Paging k → Prop
  | register : s.pc i = .register → ProcMove s i ({ s with msq1 := s.msq1 ++ [i] }.goto i .start)
  | dispatched : s.pc i = .start ∨ s.pc i = .load → 0 < s.sem i →
      ProcMove s i ({ s with sem := update s.sem i (s.sem i - 1) }.goto i .send)
  | request (page rest) : s.pc i = .send → s.refs i = page :: rest →
      ProcMove s i ({ s with msq3 := s.msq3 ++ [Msg3.mk 1 page i] }.goto i .reply)
  | finish : s.pc i = .send → s.refs i = [] →
      ProcMove s i ({ s with msq3 := s.msq3 ++ [Msg3.mk 1 (-9) i] }.goto i .exited)
  | receive (m q) : s.pc i = .reply → recv 2 s.msq3 = some (m, q) →
      ProcMove s i ({ s with msq3 := q, received := (i, m.pid) :: s.received }.onReply i m.num)

theorem procMove_of_step {s s' : Paging k} {i : Fin k} (h : s.stepProc i = some s') : ProcMove s i s' := by
  cases hpc : s.pc i <;> simp only [stepProc, hpc] at h
  case register => cases h; exact .register hpc
  case start =>
    split at h <;> cases h
    exact .dispatched (.inl hpc) (by assumption)
  case load =>
    split at h <;> cases h
    exact .dispatched (.inr hpc) (by assumption)
  case send =>
    split at h <;> cases h
    · exact .request _ _ hpc (by assumption)
    · exact .finish hpc (by assumption)
  case reply =>
    obtain ⟨⟨m, q⟩, hr, rfl⟩ := Option.map_eq_some_iff.1 h
    exact .receive m q hpc hr
  case exited => cases h

/-- What the scheduler can do. -/
inductive SchedMove (s : Paging k) : Paging k → Prop
  | take (pid rest) : s.sched = .ready → s.msq1 = pid :: rest →
      SchedMove s { s with msq1 := rest, sched := .signal pid }
  | signal (pid) : s.sched = .signal pid →
      SchedMove s { s with sem := update s.sem pid (s.sem pid + 1), sched := .wait }
  | fault (pid rest) : s.sched = .wait → s.msq2 = ⟨1, pid⟩ :: rest →
      SchedMove s { s with msq2 := rest, sched := .resend pid }
  | terminated (pid rest) : s.sched = .wait → s.msq2 = ⟨2, pid⟩ :: rest →
      SchedMove s { s with msq2 := rest, terminated := s.terminated + 1 }.loopSched
  | other (m rest) : s.sched = .wait → s.msq2 = m :: rest → m.type ≠ 1 → m.type ≠ 2 →
      SchedMove s { s with msq2 := rest }.loopSched
  | resend (pid) : s.sched = .resend pid → SchedMove s { s with msq1 := s.msq1 ++ [pid] }.loopSched

theorem schedMove_of_step {s s' : Paging k} (h : s.stepSched = some s') : SchedMove s s' := by
  cases hpc : s.sched <;> simp only [stepSched, hpc] at h
  case ready =>
    split at h <;> cases h
    exact .take _ _ hpc (by assumption)
  case signal pid => cases h; exact .signal pid hpc
  case wait =>
    split at h
    · rename_i m rest hm
      obtain ⟨type, pid⟩ := m
      split at h
      · rename_i h1; cases h1; cases h; exact .fault pid rest hpc hm
      split at h
      · rename_i h2; cases h2; cases h; exact .terminated pid rest hpc hm
      · cases h; exact .other _ rest hpc hm (by assumption) (by assumption)
    · cases h
  case resend pid => cases h; exact .resend pid hpc
  case done => cases h

/-- What the MMU can do. -/
inductive MmuMove (f : Nat) (s : Paging k) : Paging k → Prop
  | send (m out) : s.outbox = m :: out → MmuMove f s ({ s with outbox := out }.post m)
  | receive (m q mmu out) : s.outbox = [] → recv 1 s.msq3 = some (m, q) →
      s.mmu.handle f ⟨m.pid, m.num⟩ = some (mmu, out) →
      MmuMove f s { s with msq3 := q, mmu := mmu, outbox := out }

theorem mmuMove_of_step {f : Nat} {s s' : Paging k} (h : s.stepMmu f = some s') : MmuMove f s s' := by
  unfold stepMmu at h
  split at h
  · cases h; exact .send _ _ (by assumption)
  · split at h
    · obtain ⟨⟨m, q⟩, hr, h⟩ := Option.bind_eq_some_iff.1 h
      obtain ⟨⟨mmu, out⟩, hh, rfl⟩ := Option.map_eq_some_iff.1 h
      exact .receive m q mmu out (by assumption) hr hh
    · cases h

end Paging

end OsLab.A8
