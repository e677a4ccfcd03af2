import OsLab.A3.Framing
import OsLab.Lib.WaitChain

/-!
# The processes of a session (A3/CSE_21CS30009.c)

| here | there |
| --- | --- |
| `Proc`, `Session.proc`     | the processes of either program, numbered in the order of their creation |
| `Session.enter`            | a command is typed and sent in the input role (:78-103, :222-245) |
| `Session.receive`, `.fork` | `read` in the execute role, and what it leads to (:112-131, :179-195) |
| `Session.exec`             | `execvp` in the forked process (:147, :211); one that fails goes on in the loop |
| `Session.collect`          | `wait(NULL)` (:150, :214) |

Commands are sent one at a time: a command is typed when the last one has been read, and it is read whole. A process
holds both ends of both pipes, so a `read` from an empty pipe never sees its end.

`Stack` is what a side looks like from outside: what its youngest process does, and how many others wait. `Abs.step`
says that the processes are no more than that.
-/

namespace OsLab.A3

open Function (update)

/-- `prompt`, `read`: at the top of the loop, with `curr_role` 1 and 0. -/
inductive ProcPc
  | prompt | read
  /-- Forked, about to call `execvp`. -/
  | exec
  /-- Has become the program of the command. -/
  | running
  /-- In `wait(NULL)`; the process forked in the execute role. -/
  | wait
  | exited
  /-- Collected by its parent. -/
  | reaped
deriving DecidableEq, Repr

structure Proc where
  parent : Option Nat
  pc : ProcPc
deriving DecidableEq, Repr

structure Session where
  proc : Side → Nat → Option Proc
  born : Side → Nat
  pipe : Side → List UInt8

inductive SessionMove
  | enter (d : Side) (i : Nat) (command : List UInt8)
  | receive (d : Side) (i : Nat)
  | exec (d : Side) (i : Nat) (fails : Bool)
  | finish (d : Side) (i : Nat)
  | collect (d : Side) (i j : Nat)
deriving DecidableEq, Repr

/-- Where a process goes when it has sent `command`. -/
def afterSend (command : List UInt8) : ProcPc :=
  if command = exit then .exited else if command = swaprole then .read else .prompt

namespace Session

def init : Session where
  proc
    | .c => update (fun _ => none) 0 (some ⟨none, .prompt⟩)
    | .e => update (fun _ => none) 0 (some ⟨none, .read⟩)
  born _ := 1
  pipe _ := []

def setProc (s : Session) (d : Side) (i : Nat) (p : Proc) : Session :=
  { s with proc := update s.proc d (update (s.proc d) i (some p)) }

def setPipe (s : Session) (d : Side) (command : List UInt8) : Session := { s with pipe := update s.pipe d command }

/-- The process forks and waits for the child. -/
def fork (s : Session) (d : Side) (i : Nat) (p : Proc) : Session :=
  { (s.setProc d i { p with pc := .wait }).setProc d (s.born d) ⟨some i, .exec⟩ with
    born := update s.born d (s.born d + 1) }

def obey (s : Session) (d : Side) (i : Nat) (p : Proc) (command : List UInt8) : Session :=
  if command = exit then s.setProc d i { p with pc := .exited }
  else if command = swaprole then s.setProc d i { p with pc := .prompt }
  else s.fork d i p

def enter (s : Session) (d : Side) (i : Nat) (p : Proc) (command : List UInt8) : Option Session :=
  if p.pc = .prompt ∧ s.pipe d = [] ∧ Command command ∧ 0 ∉ command then
    some ((s.setPipe d command).setProc d i { p with pc := afterSend command })
  else none

def receive (s : Session) (d : Side) (i : Nat) (p : Proc) : Option Session :=
  if p.pc = .read ∧ s.pipe d.other ≠ [] then some ((s.setPipe d.other []).obey d i p (s.pipe d.other)) else none

def exec (s : Session) (d : Side) (i : Nat) (p : Proc) (fails : Bool) : Option Session :=
  if p.pc = .exec then some (s.setProc d i { p with pc := if fails then .read else .running }) else none

/-- The program of the command ends. -/
def finish (s : Session) (d : Side) (i : Nat) (p : Proc) : Option Session :=
  if p.pc = .running then some (s.setProc d i { p with pc := .exited }) else none

/-- `wait(NULL)` of `i` returns its child `j`. -/
def collect (s : Session) (d : Side) (i j : Nat) (p q : Proc) : Option Session :=
  if p.pc = .wait ∧ q.parent = some i ∧ q.pc = .exited then
    some ((s.setProc d j { q with pc := .reaped }).setProc d i { p with pc := .read })
  else none

def step (s : Session) : SessionMove → Option Session
  | .enter d i command => (s.proc d i).bind fun p => s.enter d i p command
  | .receive d i => (s.proc d i).bind fun p => s.receive d i p
  | .exec d i fails => (s.proc d i).bind fun p => s.exec d i p fails
  | .finish d i => (s.proc d i).bind fun p => s.finish d i p
  | .collect d i j => (s.proc d i).bind fun p => (s.proc d j).bind fun q => s.collect d i j p q

end Session

/-! ## A side from outside -/

/-- What the youngest process of a side does, and how many wait for another. -/
structure Stack where
  top : ProcPc
  depth : Nat

structure Stacks where
  side : Side → Stack
  pipe : Side → List UInt8

namespace Stacks

def init : Stacks where
  side
    | .c => ⟨.prompt, 0⟩
    | .e => ⟨.read, 0⟩
  pipe _ := []

def set (x : Stacks) (d : Side) (y : Stack) : Stacks := { x with side := update x.side d y }

def setPipe (x : Stacks) (d : Side) (command : List UInt8) : Stacks := { x with pipe := update x.pipe d command }

end Stacks

/-- What a move can do to the sides. -/
inductive Turn (x : Stacks) : SessionMove → Stacks → Prop
  | enter (d : Side) (i : Nat) (command : List UInt8) : (x.side d).top = .prompt → x.pipe d = [] →
      Command command ∧ 0 ∉ command →
      Turn x (.enter d i command) ((x.setPipe d command).set d ⟨afterSend command, (x.side d).depth⟩)
  | leave (d : Side) (i : Nat) : (x.side d).top = .read → x.pipe d.other = exit →
      Turn x (.receive d i) ((x.setPipe d.other []).set d ⟨.exited, (x.side d).depth⟩)
  | swap (d : Side) (i : Nat) : (x.side d).top = .read → x.pipe d.other = swaprole →
      Turn x (.receive d i) ((x.setPipe d.other []).set d ⟨.prompt, (x.side d).depth⟩)
  | fork (d : Side) (i : Nat) : (x.side d).top = .read → x.pipe d.other ≠ [] → x.pipe d.other ≠ exit →
      x.pipe d.other ≠ swaprole →
      Turn x (.receive d i) ((x.setPipe d.other []).set d ⟨.exec, (x.side d).depth + 1⟩)
  | exec (d : Side) (i : Nat) (fails : Bool) : (x.side d).top = .exec →
      Turn x (.exec d i fails) (x.set d ⟨if fails then .read else .running, (x.side d).depth⟩)
  | finish (d : Side) (i : Nat) : (x.side d).top = .running →
      Turn x (.finish d i) (x.set d ⟨.exited, (x.side d).depth⟩)
  | collect (d : Side) (i j k : Nat) : (x.side d).top = .exited → (x.side d).depth = k + 1 →
      Turn x (.collect d i j) (x.set d ⟨.read, k⟩)

/-- The processes of a side, the youngest first. -/
structure Family (s : Session) (d : Side) (y : Stack) (t : Nat) (c : List Nat) : Prop where
  chain : WaitChain.Chain Proc.parent (fun p => p.pc = .wait) (s.proc d) (t :: c)
  nodup : (t :: c).Nodup
  gone : ∀ i p, s.proc d i = some p → i ∉ t :: c → p.pc = .reaped
  fresh : ∀ i, s.born d ≤ i → s.proc d i = none
  top : ∃ p, s.proc d t = some p ∧ p.pc = y.top
  busy : y.top ≠ .wait ∧ y.top ≠ .reaped
  depth : c.length = y.depth

namespace Family

variable {s s' : Session} {d : Side} {y : Stack} {t i : Nat} {c : List Nat} {p : Proc} {pc : ProcPc}

theorem congr (F : Family s d y t c) (hproc : s'.proc d = s.proc d) (hborn : s'.born d = s.born d) : Family s' d y t c := by
  refine ⟨?_, F.nodup, ?_, ?_, ?_, F.busy, F.depth⟩
  · rw [hproc]; exact F.chain
  · rw [hproc]; exact F.gone
  · rw [hproc, hborn]; exact F.fresh
  · rw [hproc]; exact F.top

/-- A process that neither waits nor is gone is the youngest. -/
theorem eq_top (F : Family s d y t c) (hp : s.proc d i = some p) (hwait : p.pc ≠ .wait) (hgone : p.pc ≠ .reaped) :
    i = t ∧ p.pc = y.top := by
  have hmem : i ∈ t :: c := by
    by_contra hne
    exact hgone (F.gone i p hp hne)
  have hit : i = t := by
    refine (List.mem_cons.1 hmem).resolve_right fun hc => ?_
    obtain ⟨b, hb, hw⟩ := F.chain.waits_of_mem hc
    obtain rfl := Option.some.inj (hp.symm.trans hb)
    exact hwait hw
  obtain ⟨q, hq, htop⟩ := F.top
  refine ⟨hit, ?_⟩
  rw [hit] at hp
  rw [Option.some.inj (hp.symm.trans hq), htop]

theorem setProc (F : Family s d y t c) (hp : s.proc d t = some p) (hpc : pc ≠ .wait ∧ pc ≠ .reaped) :
    Family (s.setProc d t { p with pc := pc }) d ⟨pc, y.depth⟩ t c := by
  have hproc : (s.setProc d t { p with pc := pc }).proc d = update (s.proc d) t (some { p with pc := pc }) :=
    Function.update_self _ _ _
  have hmem := (List.nodup_cons.1 F.nodup).1
  refine ⟨?_, F.nodup, fun i q hi hne => ?_, fun i hi => ?_, ⟨{ p with pc := pc }, ?_, rfl⟩, hpc, F.depth⟩
  · rw [hproc]
    exact F.chain.step hp hmem rfl
  · have hit : i ≠ t := fun h => hne (by simp [h])
    rw [hproc, Function.update_of_ne hit] at hi
    exact F.gone i q hi hne
  · rw [hproc, Function.update_of_ne]
    · exact F.fresh i hi
    · rintro rfl
      rw [F.fresh i hi] at hp
      cases hp
  · rw [hproc, Function.update_self]

theorem fork (F : Family s d y t c) (hp : s.proc d t = some p) :
    Family (s.fork d t p) d ⟨.exec, y.depth + 1⟩ (s.born d) (t :: c) := by
  have hproc : (s.fork d t p).proc d =
      update (update (s.proc d) t (some { p with pc := .wait })) (s.born d) (some ⟨some t, .exec⟩) := by
    simp [Session.fork, Session.setProc]
  have hborn : (s.fork d t p).born d = s.born d + 1 := Function.update_self _ _ _
  have hmem := (List.nodup_cons.1 F.nodup).1
  -- the number of the child is new
  have hnew : s.born d ∉ t :: c := by
    intro h
    have hnone := F.fresh (s.born d) le_rfl
    rcases List.mem_cons.1 h with h | h
    · rw [h, hp] at hnone
      cases hnone
    · obtain ⟨b, hb, -⟩ := F.chain.waits_of_mem h
      rw [hb] at hnone
      cases hnone
  refine ⟨?_, List.nodup_cons.2 ⟨hnew, F.nodup⟩, fun i q hi hne => ?_, fun i hi => ?_, ⟨⟨some t, .exec⟩, ?_, rfl⟩,
    by simp, by rw [List.length_cons, F.depth]⟩
  · rw [hproc]
    exact F.chain.fork (b := { p with pc := .wait }) (d := ⟨some t, .exec⟩) hp hmem hnew rfl rfl rfl
  · rw [List.mem_cons, List.mem_cons, not_or, not_or] at hne
    rw [hproc, Function.update_of_ne hne.1, Function.update_of_ne hne.2.1] at hi
    exact F.gone i q hi (by rw [List.mem_cons, not_or]; exact hne.2)
  · rw [hborn] at hi
    rw [hproc, Function.update_of_ne (by omega), Function.update_of_ne]
    · exact F.fresh i (by omega)
    · rintro rfl
      rw [F.fresh i (by omega)] at hp
      cases hp
  · rw [hproc, Function.update_self]

theorem collect {q : Proc} (F : Family s d y t (i :: c)) (hp : s.proc d i = some p) :
    Family ((s.setProc d t { q with pc := .reaped }).setProc d i { p with pc := .read }) d ⟨.read, c.length⟩ i c := by
  have hproc : ((s.setProc d t { q with pc := .reaped }).setProc d i { p with pc := .read }).proc d =
      update (update (s.proc d) t (some { q with pc := .reaped })) i (some { p with pc := .read }) := by
    simp [Session.setProc]
  obtain ⟨hmem, hnodup⟩ := List.nodup_cons.1 F.nodup
  have hmem' := (List.nodup_cons.1 hnodup).1
  obtain ⟨a, ha, -⟩ := F.top
  refine ⟨?_, hnodup, fun j r hj hne => ?_, fun j hj => ?_, ⟨{ p with pc := .read }, ?_, rfl⟩, by simp, rfl⟩
  · rw [hproc]
    exact F.chain.collect (b := { p with pc := .read }) hp hmem hmem' rfl
  · have hji : j ≠ i := fun h => hne (by simp [h])
    rw [hproc, Function.update_of_ne hji] at hj
    by_cases hjt : j = t
    · rw [hjt, Function.update_self] at hj
      rw [← Option.some.inj hj]
    · rw [Function.update_of_ne hjt] at hj
      exact F.gone j r hj (by rw [List.mem_cons, not_or]; exact ⟨hjt, hne⟩)
  · have hfresh := F.fresh j hj
    rw [hproc, Function.update_of_ne, Function.update_of_ne]
    · exact hfresh
    · rintro rfl
      rw [hfresh] at ha
      cases ha
    · rintro rfl
      rw [hfresh] at hp
      cases hp
  · rw [hproc, Function.update_self]

end Family

/-- `x` is what `s` looks like from outside. -/
structure Abs (s : Session) (x : Stacks) : Prop where
  family : ∀ d, ∃ t c, Family s d (x.side d) t c
  pipe : s.pipe = x.pipe

namespace Abs

variable {s s' : Session} {x x' : Stacks} {d : Side} {m : SessionMove}

theorem init : Abs Session.init Stacks.init := by
  refine ⟨fun d => ⟨0, [], ?_⟩, rfl⟩
  have hproc : ∃ pc, Session.init.proc d = update (fun _ => none) 0 (some ⟨none, pc⟩) ∧ (Stacks.init.side d) = ⟨pc, 0⟩ ∧
      pc ≠ .wait ∧ pc ≠ .reaped := by
    cases d with
    | c => exact ⟨.prompt, rfl, rfl, by simp, by simp⟩
    | e => exact ⟨.read, rfl, rfl, by simp, by simp⟩
  obtain ⟨pc, hproc, hside, hbusy⟩ := hproc
  rw [hside]
  refine ⟨?_, by simp, fun i p hi hne => ?_, fun i hi => ?_, ⟨⟨none, pc⟩, ?_, rfl⟩, hbusy, rfl⟩
  · rw [hproc]
    exact .root (Function.update_self _ _ _) rfl
  · rw [hproc, Function.update_of_ne (by simpa using hne)] at hi
    cases hi
  · have hpos : 0 < i := hi
    rw [hproc, Function.update_of_ne (by omega)]
  · rw [hproc, Function.update_self]

/-- One side moves. -/
theorem move (A : Abs s x) {y : Stack} {t : Nat} {c : List Nat} (hF : Family s' d y t c)
    (hother : ∀ r, r ≠ d → s'.proc r = s.proc r ∧ s'.born r = s.born r) (hside : x'.side = update x.side d y)
    (hpipe : s'.pipe = x'.pipe) : Abs s' x' := by
  refine ⟨fun r => ?_, hpipe⟩
  rw [hside]
  by_cases hr : r = d
  · rw [hr, Function.update_self]
    exact ⟨t, c, hF⟩
  · rw [Function.update_of_ne hr]
    obtain ⟨u, b, hu⟩ := A.family r
    exact ⟨u, b, hu.congr (hother r hr).1 (hother r hr).2⟩

theorem afterSend_busy (command : List UInt8) : afterSend command ≠ .wait ∧ afterSend command ≠ .reaped := by
  rw [afterSend]
  split_ifs <;> simp

/-- The process at one of these places is the youngest. -/
theorem top_of (A : Abs s x) {i : Nat} {p : Proc} (hp : s.proc d i = some p) (hwait : p.pc ≠ .wait)
    (hgone : p.pc ≠ .reaped) : (x.side d).top = p.pc ∧ ∃ c, Family s d (x.side d) i c := by
  obtain ⟨t, c, F⟩ := A.family d
  obtain ⟨rfl, htop⟩ := F.eq_top hp hwait hgone
  exact ⟨htop.symm, c, F⟩

/-- It changes its place. -/
theorem goto (A : Abs s x) {i : Nat} {p : Proc} {pc : ProcPc} (hp : s.proc d i = some p) (hwait : p.pc ≠ .wait)
    (hgone : p.pc ≠ .reaped) (hpc : pc ≠ .wait ∧ pc ≠ .reaped) :
    Abs (s.setProc d i { p with pc := pc }) (x.set d ⟨pc, (x.side d).depth⟩) := by
  obtain ⟨-, c, F⟩ := A.top_of hp hwait hgone
  exact A.move (F.setProc hp hpc) (fun r hr => ⟨Function.update_of_ne hr _ _, rfl⟩) rfl A.pipe

theorem setPipe (A : Abs s x) (command : List UInt8) : Abs (s.setPipe d command) (x.setPipe d command) := by
  refine ⟨fun r => ?_, ?_⟩
  · obtain ⟨t, c, F⟩ := A.family r
    exact ⟨t, c, F.congr rfl rfl⟩
  · rw [Session.setPipe, Stacks.setPipe, A.pipe]

/-- **A step of a process is a move of its side.** -/
theorem step (A : Abs s x) (h : s.step m = some s') : ∃ x', Turn x m x' ∧ Abs s' x' := by
  cases m with
  | enter d i command =>
    obtain ⟨p, hp, h⟩ := Option.bind_eq_some_iff.1 h
    rw [Session.enter, Option.ite_none_right_eq_some] at h
    obtain ⟨⟨hpc, hpipe, hcommand⟩, he⟩ := h
    cases he
    have htop := (A.top_of hp (by simp [hpc]) (by simp [hpc])).1
    refine ⟨_, .enter d i command (htop.trans hpc) (A.pipe ▸ hpipe) hcommand, ?_⟩
    exact (A.setPipe command).goto hp (by simp [hpc]) (by simp [hpc]) (afterSend_busy command)
  | receive d i =>
    obtain ⟨p, hp, h⟩ := Option.bind_eq_some_iff.1 h
    rw [Session.receive, Option.ite_none_right_eq_some] at h
    obtain ⟨⟨hpc, hpipe⟩, he⟩ := h
    cases he
    obtain ⟨htop, c, F⟩ := A.top_of hp (by simp [hpc]) (by simp [hpc])
    rw [hpc] at htop
    rw [A.pipe] at hpipe ⊢
    have A' := A.setPipe (d := d.other) []
    rw [Session.obey]
    split_ifs with hexit hswap
    · exact ⟨_, .leave d i htop hexit, A'.goto hp (by simp [hpc]) (by simp [hpc]) (by simp)⟩
    · exact ⟨_, .swap d i htop hswap, A'.goto hp (by simp [hpc]) (by simp [hpc]) (by simp)⟩
    · refine ⟨_, .fork d i htop hpipe hexit hswap, A'.move (Family.fork (F.congr rfl rfl) hp) (fun r hr => ⟨?_, ?_⟩) rfl A'.pipe⟩
      · simp [Session.fork, Session.setProc, Session.setPipe, hr]
      · simp [Session.fork, Session.setProc, Session.setPipe, hr]
  | exec d i fails =>
    obtain ⟨p, hp, h⟩ := Option.bind_eq_some_iff.1 h
    rw [Session.exec, Option.ite_none_right_eq_some] at h
    obtain ⟨hpc, he⟩ := h
    cases he
    have htop := (A.top_of hp (by simp [hpc]) (by simp [hpc])).1
    exact ⟨_, .exec d i fails (htop.trans hpc), A.goto hp (by simp [hpc]) (by simp [hpc]) (by cases fails <;> simp)⟩
  | finish d i =>
    obtain ⟨p, hp, h⟩ := Option.bind_eq_some_iff.1 h
    rw [Session.finish, Option.ite_none_right_eq_some] at h
    obtain ⟨hpc, he⟩ := h
    cases he
    have htop := (A.top_of hp (by simp [hpc]) (by simp [hpc])).1
    exact ⟨_, .finish d i (htop.trans hpc), A.goto hp (by simp [hpc]) (by simp [hpc]) (by simp)⟩
  | collect d i j =>
    obtain ⟨p, hp, h⟩ := Option.bind_eq_some_iff.1 h
    obtain ⟨q, hq, h⟩ := Option.bind_eq_some_iff.1 h
    rw [Session.collect, Option.ite_none_right_eq_some] at h
    obtain ⟨⟨-, hparent, hexited⟩, he⟩ := h
    cases he
    obtain ⟨htop, c, F⟩ := A.top_of hq (by simp [hexited]) (by simp [hexited])
    rw [hexited] at htop
    cases c with
    | nil =>
      rw [F.chain.parent_of_single hq] at hparent
      cases hparent
    | cons k c =>
      obtain rfl : k = i := Option.some.inj ((F.chain.parent_of_cons hq).symm.trans hparent)
      refine ⟨_, .collect d k j c.length htop F.depth.symm, A.move (F.collect hp) (fun r hr => ⟨?_, rfl⟩) rfl A.pipe⟩
      simp [Session.setProc, hr]

end Abs

end OsLab.A3
