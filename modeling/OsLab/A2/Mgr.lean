import Mathlib.Logic.Function.Basic
import OsLab.Lib.Trans

/-!
# The job manager (A2/mgr.c)

| here | there |
| --- | --- |
| `Entry`, `Mgr.PT`           | `struct process`, `PT`; the cells outside 0..10 are the memory around the table |
| `Mgr.currChild`, `.numSuspended` | the globals of these names |
| `Pc`, `Mgr.main`            | the statements of `main` that touch them, wait or fork (:88-221) |
| `Frame`, `Mgr.handler`      | the statements of `parentSigHandler` (:46-69); the handlers under way, innermost first |
| `Mgr.job`                   | the processes that `fork` made and what has become of them |
| `Mgr.kills`                 | the calls of `kill`: the pid and whether it was that of a job that had not terminated |

A step is one statement of `main` or of a handler, a signal that reaches mgr, or a job that ends by itself.
While a handler runs its own signal is blocked and the other one is not (`signal`), and a wait goes on when the
handler has returned. `fork` and `execlp` succeed, and the kernel gives every job a new pid. The group and the
name of a process are printed and used nowhere else; what a signal does to others than jobs is left out.
-/

namespace OsLab.A2

open Function (update)

inductive Status
  | SELF | EMPTY | FINISHED | TERMINATED | SUSPENDED
deriving DecidableEq, Repr

structure Entry where
  pid : Int
  status : Status
deriving DecidableEq, Repr

/-- `killed` by a signal, `exited` by itself. -/
inductive Job
  | absent | running | stopped | exited | killed
deriving DecidableEq, Repr

namespace Job

/-- Forked and not terminated. -/
def live : Job → Bool
  | running | stopped => true
  | _ => false

/-- `SIGKILL`. -/
def kill : Job → Job
  | running | stopped => killed
  | j => j

/-- `SIGTSTP`. -/
def stop : Job → Job
  | running => stopped
  | j => j

/-- `SIGCONT`. -/
def cont : Job → Job
  | stopped => running
  | j => j

theorem kill_absent (j : Job) : j.kill = .absent ↔ j = .absent := by cases j <;> simp [Job.kill]

theorem stop_absent (j : Job) : j.stop = .absent ↔ j = .absent := by cases j <;> simp [Job.stop]

theorem cont_absent (j : Job) : j.cont = .absent ↔ j = .absent := by cases j <;> simp [Job.cont]

theorem stop_live {j : Job} (h : j.live = true) : j.stop = .stopped := by
  cases j <;> first | rfl | exact absurd h (by decide)

theorem live_ne_absent {j : Job} (h : j.live = true) : j ≠ .absent := by
  rintro rfl
  exact absurd h (by decide)

end Job

inductive Sig
  | INT | TSTP
deriving DecidableEq, Repr

/-- Where a handler is: at its test of `currChild`, at `numSuspended++`, `strcpy`, `kill`, `currChild = -1`. -/
inductive HandlerPc
  | test | count | mark | kill | reset
deriving DecidableEq, Repr

structure Frame where
  sig : Sig
  pc : HandlerPc
deriving DecidableEq, Repr

inductive Command
  | p | r | c | k | h | q | other
deriving DecidableEq, Repr

/-- The commands that ask for a job. -/
inductive Pick
  | c | k
deriving DecidableEq, Repr

/-- Where `main` is. `r`: at `isFull`, `fork`, the search for a slot, the table entry, `waitpid`,
`currChild = -1`. `c` and `k`: at the test of `numSuspended`, `scanf`, the test of the status, `currChild = job`,
`kill`, `waitpid` (only `c`), `strcpy`, `numSuspended--`. -/
inductive Pc
  | prompt | quit
  | isFull | fork | slot (pid : Int) | record (pid : Int) | waitRun (pid : Int) | reset
  | test (cmd : Pick) | pick (cmd : Pick) | check (cmd : Pick) (job : Int) | set (cmd : Pick) (job : Int)
  | kill (cmd : Pick) (job : Int) | wait (job : Int) | mark (cmd : Pick) (job : Int) | decr
deriving DecidableEq, Repr

structure Mgr where
  PT : Int → Entry
  currChild : Int
  numSuspended : Int
  pc : Pc
  handlers : List Frame
  job : Int → Job
  kills : List (Int × Bool)

/-- `command` and `pick` are typed, `fork` returns `pid`, `next` is any other statement of `main`, `handler` one of
the innermost handler. -/
inductive Move
  | command (cmd : Command)
  | pick (job : Int)
  | fork (pid : Int)
  | next
  | handler
  | signal (sig : Sig)
  | finish (pid : Int)
deriving DecidableEq, Repr

namespace Mgr

/-- `self` is the pid of mgr, `mem` the memory around the table. -/
def init (self : Int) (mem : Int → Entry) : Mgr where
  PT i := if i = 0 then ⟨self, .SELF⟩ else if 1 ≤ i ∧ i ≤ 10 then ⟨0, .EMPTY⟩ else mem i
  currChild := -1
  numSuspended := 0
  pc := .prompt
  handlers := []
  job _ := .absent
  kills := []

def goto (s : Mgr) (pc : Pc) : Mgr := { s with pc := pc }

def setStatus (s : Mgr) (i : Int) (status : Status) : Mgr :=
  { s with PT := update s.PT i { s.PT i with status := status } }

/-- `kill(pid, ...)`. -/
def send (s : Mgr) (pid : Int) (act : Job → Job) : Mgr :=
  { s with job := update s.job pid (act (s.job pid)), kills := s.kills ++ [(pid, (s.job pid).live)] }

@[simp] theorem setStatus_pid (s : Mgr) (i j : Int) (status : Status) : ((s.setStatus i status).PT j).pid = (s.PT j).pid := by
  rw [setStatus]
  by_cases h : j = i
  · simp [h]
  · simp [h]

theorem setStatus_status (s : Mgr) (i j : Int) (status : Status) :
    ((s.setStatus i status).PT j).status = if j = i then status else (s.PT j).status := by
  rw [setStatus]
  by_cases h : j = i
  · simp [h]
  · simp [h]

theorem send_job (s : Mgr) (pid : Int) (act : Job → Job) (q : Int) :
    (s.send pid act).job q = if q = pid then act (s.job pid) else s.job q := by
  simp [send, Function.update_apply]

/-- `isFull` (:36-38). -/
def isFull (s : Mgr) : Bool := (s.PT 10).pid ≠ 0

/-- The first empty slot (:121-126). -/
def firstEmpty (s : Mgr) : Option Int :=
  ((List.range 11).find? fun i : Nat => (s.PT i).pid = 0).map fun i => (i : Int)

theorem exists_firstEmpty {s : Mgr} (h : (s.PT 10).pid = 0) :
    ∃ n : Nat, s.firstEmpty = some (n : Int) ∧ n < 11 ∧ (s.PT n).pid = 0 := by
  have hsome : ((List.range 11).find? fun i : Nat => (s.PT i).pid = 0).isSome := by
    rw [List.find?_isSome]
    exact ⟨10, by decide, by simpa using h⟩
  obtain ⟨n, hn⟩ := Option.isSome_iff_exists.1 hsome
  have hlt : n < 11 := List.mem_range.1 (List.mem_of_find?_eq_some hn)
  exact ⟨n, by simp [firstEmpty, hn], hlt, by simpa using List.find?_some hn⟩

def afterCommand : Command → Pc
  | .r => .isFull
  | .c => .test .c
  | .k => .test .k
  | .q => .quit
  | _ => .prompt

/-- The next statement of `main` where nothing is chosen; `none` while it waits. -/
def main (s : Mgr) : Option Mgr :=
  match s.pc with
  | .isFull => some (s.goto (if s.isFull then .quit else .fork))
  | .slot pid => some { s with currChild := s.firstEmpty.getD s.currChild, pc := .record pid }
  | .record pid => some { s with PT := update s.PT s.currChild ⟨pid, .FINISHED⟩, pc := .waitRun pid }
  | .waitRun pid => if s.job pid = .running then none else some (s.goto .reset)
  | .reset => some { s with currChild := -1, pc := .prompt }
  | .test cmd => some (s.goto (if s.numSuspended = 0 then .prompt else .pick cmd))
  | .check cmd job => some (s.goto (if (s.PT job).status = .SUSPENDED then .set cmd job else .prompt))
  | .set cmd job => some { s with currChild := job, pc := .kill cmd job }
  | .kill .c job => some ((s.send (s.PT job).pid Job.cont).goto (.wait job))
  | .kill .k job => some ((s.send (s.PT job).pid Job.kill).goto (.mark .k job))
  | .wait job => if (s.job (s.PT job).pid).live then none else some (s.goto (.mark .c job))
  | .mark .c job => some ((s.setStatus job .FINISHED).goto .decr)
  | .mark .k job => some ((s.setStatus job .TERMINATED).goto .decr)
  | .decr => some { s with numSuspended := s.numSuspended - 1, pc := .prompt }
  | _ => none

/-- The next statement of the handler `f` with the handlers `rest` below it. -/
def handler (s : Mgr) (f : Frame) (rest : List Frame) : Mgr :=
  match f.pc, f.sig with
  | .test, sig =>
    if s.currChild = -1 then { s with handlers := rest }
    else { s with handlers := ⟨sig, if sig = .INT then .mark else .count⟩ :: rest }
  | .count, sig => { s with numSuspended := s.numSuspended + 1, handlers := ⟨sig, .mark⟩ :: rest }
  | .mark, .INT => { s.setStatus s.currChild .TERMINATED with handlers := ⟨.INT, .kill⟩ :: rest }
  | .mark, .TSTP => { s.setStatus s.currChild .SUSPENDED with handlers := ⟨.TSTP, .kill⟩ :: rest }
  | .kill, .INT => { s.send (s.PT s.currChild).pid Job.kill with handlers := ⟨.INT, .reset⟩ :: rest }
  | .kill, .TSTP => { s.send (s.PT s.currChild).pid Job.stop with handlers := ⟨.TSTP, .reset⟩ :: rest }
  | .reset, _ => { s with currChild := -1, handlers := rest }

def step (s : Mgr) : Move → Option Mgr
  | .command cmd => if s.handlers = [] ∧ s.pc = .prompt then some (s.goto (afterCommand cmd)) else none
  | .pick job =>
    match s.handlers, s.pc with
    | [], .pick cmd => some (s.goto (.check cmd job))
    | _, _ => none
  | .fork pid =>
    if s.handlers = [] ∧ s.pc = .fork ∧ 0 < pid ∧ s.job pid = .absent then
      some { s with job := update s.job pid .running, pc := .slot pid }
    else none
  | .next => if s.handlers = [] then s.main else none
  | .handler =>
    match s.handlers with
    | f :: rest => some (s.handler f rest)
    | [] => none
  | .signal sig =>
    if s.pc ≠ .quit ∧ ∀ f ∈ s.handlers, f.sig ≠ sig then some { s with handlers := ⟨sig, .test⟩ :: s.handlers }
    else none
  | .finish pid => if s.job pid = .running then some { s with job := update s.job pid .exited } else none

/-- What a statement of `main` where nothing is chosen does. -/
inductive Next (s : Mgr) : Mgr → Prop
  | isFull : s.pc = .isFull → Next s (s.goto (if s.isFull then .quit else .fork))
  | slot (pid : Int) : s.pc = .slot pid →
      Next s { s with currChild := s.firstEmpty.getD s.currChild, pc := .record pid }
  | record (pid : Int) : s.pc = .record pid →
      Next s { s with PT := update s.PT s.currChild ⟨pid, .FINISHED⟩, pc := .waitRun pid }
  | waitRun (pid : Int) : s.pc = .waitRun pid → s.job pid ≠ .running → Next s (s.goto .reset)
  | reset : s.pc = .reset → Next s { s with currChild := -1, pc := .prompt }
  | test (cmd : Pick) : s.pc = .test cmd → Next s (s.goto (if s.numSuspended = 0 then .prompt else .pick cmd))
  | check (cmd : Pick) (job : Int) : s.pc = .check cmd job →
      Next s (s.goto (if (s.PT job).status = .SUSPENDED then .set cmd job else .prompt))
  | set (cmd : Pick) (job : Int) : s.pc = .set cmd job → Next s { s with currChild := job, pc := .kill cmd job }
  | cont (job : Int) : s.pc = .kill .c job → Next s ((s.send (s.PT job).pid Job.cont).goto (.wait job))
  | kill (job : Int) : s.pc = .kill .k job → Next s ((s.send (s.PT job).pid Job.kill).goto (.mark .k job))
  | wait (job : Int) : s.pc = .wait job → (s.job (s.PT job).pid).live = false → Next s (s.goto (.mark .c job))
  | mark (cmd : Pick) (job : Int) (status : Status) : s.pc = .mark cmd job → status ≠ .SUSPENDED →
      Next s ((s.setStatus job status).goto .decr)
  | decr : s.pc = .decr → Next s { s with numSuspended := s.numSuspended - 1, pc := .prompt }

theorem next_of_main {s s' : Mgr} (h : s.main = some s') : Next s s' := by
  unfold main at h
  split at h
  case h_1 hpc => cases h; exact .isFull hpc
  case h_2 pid hpc => cases h; exact .slot pid hpc
  case h_3 pid hpc => cases h; exact .record pid hpc
  case h_4 pid hpc =>
    split at h
    · cases h
    · cases h
      exact .waitRun pid hpc (by assumption)
  case h_5 hpc => cases h; exact .reset hpc
  case h_6 cmd hpc => cases h; exact .test cmd hpc
  case h_7 cmd job hpc => cases h; exact .check cmd job hpc
  case h_8 cmd job hpc => cases h; exact .set cmd job hpc
  case h_9 job hpc => cases h; exact .cont job hpc
  case h_10 job hpc => cases h; exact .kill job hpc
  case h_11 job hpc =>
    split at h
    · cases h
    · rename_i hlive
      cases h
      exact .wait job hpc (Bool.eq_false_iff.2 hlive)
  case h_12 job hpc => cases h; exact .mark .c job .FINISHED hpc (by decide)
  case h_13 job hpc => cases h; exact .mark .k job .TERMINATED hpc (by decide)
  case h_14 hpc => cases h; exact .decr hpc
  case h_15 => cases h

/-- What a step can do. -/
inductive Moved (s : Mgr) : Move → Mgr → Prop
  | command (cmd : Command) : s.handlers = [] → s.pc = .prompt →
      Moved s (.command cmd) (s.goto (afterCommand cmd))
  | pick (cmd : Pick) (job : Int) : s.handlers = [] → s.pc = .pick cmd → Moved s (.pick job) (s.goto (.check cmd job))
  | fork (pid : Int) : s.handlers = [] → s.pc = .fork → 0 < pid → s.job pid = .absent →
      Moved s (.fork pid) { s with job := update s.job pid .running, pc := .slot pid }
  | next (s' : Mgr) : s.handlers = [] → Next s s' → Moved s .next s'
  | handler (f : Frame) (rest : List Frame) : s.handlers = f :: rest → Moved s .handler (s.handler f rest)
  | signal (sig : Sig) : (∀ f ∈ s.handlers, f.sig ≠ sig) →
      Moved s (.signal sig) { s with handlers := ⟨sig, .test⟩ :: s.handlers }
  | finish (pid : Int) : s.job pid = .running → Moved s (.finish pid) { s with job := update s.job pid .exited }

theorem moved_of_step {s s' : Mgr} {m : Move} (h : s.step m = some s') : Moved s m s' := by
  cases m with
  | command cmd =>
    obtain ⟨⟨hquiet, hpc⟩, rfl⟩ := Option.ite_none_right_eq_some.1 h |>.imp id Option.some.inj
    exact .command cmd hquiet hpc
  | pick job =>
    simp only [step] at h
    split at h
    · cases h
      exact .pick _ job (by assumption) (by assumption)
    · cases h
  | fork pid =>
    obtain ⟨⟨hquiet, hpc, hpos, habsent⟩, rfl⟩ := Option.ite_none_right_eq_some.1 h |>.imp id Option.some.inj
    exact .fork pid hquiet hpc hpos habsent
  | next =>
    obtain ⟨hquiet, hmain⟩ := Option.ite_none_right_eq_some.1 h
    exact .next s' hquiet (next_of_main hmain)
  | handler =>
    simp only [step] at h
    split at h
    · cases h
      exact .handler _ _ (by assumption)
    · cases h
  | signal sig =>
    obtain ⟨⟨-, hother⟩, rfl⟩ := Option.ite_none_right_eq_some.1 h |>.imp id Option.some.inj
    exact .signal sig hother
  | finish pid =>
    obtain ⟨hrun, rfl⟩ := Option.ite_none_right_eq_some.1 h |>.imp id Option.some.inj
    exact .finish pid hrun

end Mgr

end OsLab.A2
