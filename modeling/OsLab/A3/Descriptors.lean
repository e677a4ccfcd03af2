import OsLab.A3.Cse
import OsLab.Lib.FdTable

/-!
# Descriptors and roles (A3/CSE_21CS30009.c)

| here | there |
| --- | --- |
| `supervisor` | the two `pipe`s (:22-23) and what `execlp` passes to either child (:36-40, :49-53) |
| `Vars`, `start` | the variables that hold descriptors, and the calls before the loop (:62-71, :159-171) |
| `swapCalls`, `execCalls` | the calls at `swaprole` (:98-101, :120-123, :188-191, :240-243), and before `execvp` (:143-146, :207-210) |
| `Process` | a child, or a process that it forked to execute a command |

The run follows one process through a `fork`: the parent goes on with the descriptors it had, so its own rounds with
other commands change nothing. A process whose `execvp` failed is in the loop, with the descriptors of a command.
-/

namespace OsLab.A3

/-- The pipe of a side is the one that it writes. -/
inductive File
  | tty
  | readEnd (s : Side)
  | writeEnd (s : Side)
deriving DecidableEq

/-- The end of the first pipe, which C writes first, and that of the second pipe. -/
def Side.firstEnd : Side → File
  | .c => .writeEnd .c
  | .e => .readEnd .c

def Side.secondEnd : Side → File
  | .c => .readEnd .e
  | .e => .writeEnd .e

/-- `first`, `second` are `pfd_1`, `pfd1_0` in mode C, and `pfd_0`, `pfd1_1` in mode E. -/
structure Vars where
  first : Int
  second : Int
  stdinCopy : Int
  stdoutCopy : Int

inductive Call
  | close (fd : Int)
  | dup (fd : Int)
deriving DecidableEq

def Call.run : Call → FdTable File → FdTable File
  | .close fd, t => t.close fd
  | .dup fd, t => (t.dup fd).2

/-- Where `swaprole` is sent (`input`) or received (`execute`). -/
def swapCalls : Side → Role → Vars → List Call
  | .c, .input, v => [.close 1, .dup v.stdoutCopy, .close 0, .dup v.second]
  | .c, .execute, v => [.close 0, .dup v.stdinCopy, .close 1, .dup v.first]
  | .e, .execute, v => [.close 0, .dup v.stdinCopy, .close 1, .dup v.second]
  | .e, .input, v => [.close 1, .dup v.stdoutCopy, .close 0, .dup v.first]
  | _, .exited, _ => []

def execCalls (v : Vars) : List Call := [.close 0, .dup v.stdinCopy, .close 1, .dup v.stdoutCopy]

inductive Place
  | loop (role : Role)
  /-- Forked and on the way to `execvp`, or there when no call is left. -/
  | exec
deriving DecidableEq

structure Process where
  vars : Vars
  fds : FdTable File
  place : Place
  /-- What is left of the calls of a swap or before `execvp`. -/
  todo : List Call
  /-- Its `execvp` has failed. -/
  failed : Bool

/-- The pipe ends that the supervisor passes to either child, and its table. -/
def supervisor (t : FdTable File) : (Side → Int × Int) × FdTable File :=
  let t₁ := t.add (.readEnd .c)
  let t₂ := t₁.add (.writeEnd .c)
  let t₃ := t₂.add (.readEnd .e)
  (fun
    | .c => (t₁.low, t₂.low)
    | .e => (t.low, t₃.low), t₃.add (.writeEnd .e))

namespace Process

/-- `t` is the table of the child when it starts, `first` and `second` are its arguments. -/
def start (d : Side) (first second : Int) (t : FdTable File) : Process :=
  let (stdinCopy, t) := t.dup 0
  let (stdoutCopy, t) := t.dup 1
  let v : Vars := ⟨first, second, stdinCopy, stdoutCopy⟩
  match d with
  | .c => ⟨v, ((t.close 1).dup first).2, .loop .input, [], false⟩
  | .e => ⟨v, ((t.close 0).dup first).2, .loop .execute, [], false⟩

/-- `call` is the next one of `todo`; after `fork` the run follows the new process; `fail` is an `execvp` that
fails. -/
inductive Move
  | call | swap | fork | fail | exit
deriving DecidableEq

def step (d : Side) (s : Process) (m : Move) : Option Process :=
  match s.todo, m with
  | c :: todo, .call => some { s with fds := c.run s.fds, todo := todo }
  | [], .swap =>
    match s.place with
    | .loop .input => some { s with place := .loop .execute, todo := swapCalls d .input s.vars }
    | .loop .execute => some { s with place := .loop .input, todo := swapCalls d .execute s.vars }
    | _ => none
  | [], .fork => if s.place = .loop .execute then some { s with place := .exec, todo := execCalls s.vars } else none
  | [], .fail => if s.place = .exec then some { s with place := .loop .execute, failed := true } else none
  | [], .exit => if s.place = .exec then none else some { s with place := .loop .exited }
  | _, _ => none

/-- What a step can do. -/
inductive Moved (d : Side) (s : Process) : Process → Prop
  | call (c : Call) (todo : List Call) : s.todo = c :: todo → Moved d s { s with fds := c.run s.fds, todo := todo }
  | give : s.todo = [] → s.place = .loop .input →
      Moved d s { s with place := .loop .execute, todo := swapCalls d .input s.vars }
  | take : s.todo = [] → s.place = .loop .execute →
      Moved d s { s with place := .loop .input, todo := swapCalls d .execute s.vars }
  | fork : s.todo = [] → s.place = .loop .execute → Moved d s { s with place := .exec, todo := execCalls s.vars }
  | fail : s.todo = [] → s.place = .exec → Moved d s { s with place := .loop .execute, failed := true }
  | exit : s.todo = [] → Moved d s { s with place := .loop .exited }

theorem moved_of_step {d : Side} {s s' : Process} {m : Move} (h : s.step d m = some s') : Moved d s s' := by
  unfold step at h
  split at h
  · next c todo htodo =>
    cases h
    exact .call c todo htodo
  · next htodo =>
    split at h
    · next hplace =>
      cases h
      exact .give htodo hplace
    · next hplace =>
      cases h
      exact .take htodo hplace
    · cases h
  · next htodo =>
    obtain ⟨hplace, rfl⟩ := Option.ite_none_right_eq_some.1 h |>.imp id Option.some.inj
    exact .fork htodo hplace
  · next htodo =>
    obtain ⟨hplace, rfl⟩ := Option.ite_none_right_eq_some.1 h |>.imp id Option.some.inj
    exact .fail htodo hplace
  · next htodo =>
    obtain ⟨-, rfl⟩ := Option.ite_none_left_eq_some.1 h |>.imp id Option.some.inj
    exact .exit htodo
  · cases h

end Process

variable {d : Side} {v : Vars} {n : Nat} {t t' : FdTable File} {fd fd' : Int} {p q : Int × File} {P Q : FdTable File → Prop}

/-! ## Chains of calls -/

/-- Through all the calls no more than `n` descriptors are open, and `P` holds behind the last. -/
def Safe (n : Nat) (P : FdTable File → Prop) : List Call → FdTable File → Prop
  | [], t => P t
  | c :: todo, t => (c.run t).fds.card ≤ n ∧ Safe n P todo (c.run t)

theorem Safe.mono (hPQ : ∀ t, P t → Q t) {todo : List Call} (h : Safe n P todo t) : Safe n Q todo t := by
  induction todo generalizing t with
  | nil => exact hPQ t h
  | cons c todo ih => exact ⟨h.1, ih h.2⟩

/-- The descriptors that are copied to 0 and 1. -/
def Vars.sources (v : Vars) (d : Side) : List (Int × File) :=
  [(v.stdinCopy, .tty), (v.stdoutCopy, .tty), (v.first, d.firstEnd), (v.second, d.secondEnd)]

namespace Vars

theorem stdinCopy_mem (v : Vars) (d : Side) : (v.stdinCopy, .tty) ∈ v.sources d := by simp [sources]

theorem stdoutCopy_mem (v : Vars) (d : Side) : (v.stdoutCopy, .tty) ∈ v.sources d := by simp [sources]

theorem first_mem (v : Vars) (d : Side) : (v.first, d.firstEnd) ∈ v.sources d := by simp [sources]

theorem second_mem (v : Vars) (d : Side) : (v.second, d.secondEnd) ∈ v.sources d := by simp [sources]

end Vars

/-- What stays through all redirections of 0 and 1. -/
structure Wired (d : Side) (v : Vars) (n : Nat) (t : FdTable File) : Prop where
  sources : ∀ p ∈ v.sources d, t.get p.1 = some p.2 ∧ p.1 ≠ 0 ∧ p.1 ≠ 1
  zero : 0 ∈ t.fds
  one : 1 ∈ t.fds
  card : t.fds.card = n

namespace Wired

theorem self (W : Wired d v n t) : Wired d v t.fds.card t := ⟨W.sources, W.zero, W.one, rfl⟩

theorem redirect (W : Wired d v n t) (hp : p ∈ v.sources d) (hfd : fd = 0 ∨ fd = 1) :
    Wired d v n ((t.close fd).dup p.1).2 ∧ ((t.close fd).dup p.1).2.get fd = some p.2 ∧
      ∀ i, i ≠ fd → ((t.close fd).dup p.1).2.get i = t.get i := by
  obtain ⟨hget, hp0, hp1⟩ := W.sources p hp
  have hbelow : ∀ i, 0 ≤ i → i ≤ fd → i ∈ t.fds := by
    intro i h0 hi
    obtain rfl | rfl : i = 0 ∨ i = 1 := by omega
    · exact W.zero
    · exact W.one
  have hne : p.1 ≠ fd := by rcases hfd with rfl | rfl <;> assumption
  obtain ⟨-, hfds, hgets⟩ := FdTable.redirect_spec hbelow (by omega) hget hne
  refine ⟨⟨fun q hq => ?_, hfds ▸ W.zero, hfds ▸ W.one, hfds ▸ W.card⟩, by rw [hgets, if_pos rfl],
    fun i hi => by rw [hgets, if_neg hi]⟩
  obtain ⟨hq, hq0, hq1⟩ := W.sources q hq
  have hqfd : q.1 ≠ fd := by rcases hfd with rfl | rfl <;> assumption
  exact ⟨by rw [hgets, if_neg hqfd, hq], hq0, hq1⟩

/-- A chain redirects both. -/
theorem safe (W : Wired d v n t) (hp : p ∈ v.sources d) (hq : q ∈ v.sources d)
    (hfd : fd = 0 ∧ fd' = 1 ∨ fd = 1 ∧ fd' = 0) :
    Safe n (fun t => Wired d v n t ∧ t.get fd = some p.2 ∧ t.get fd' = some q.2)
      [.close fd, .dup p.1, .close fd', .dup q.1] t := by
  have hfd₁ : fd = 0 ∨ fd = 1 := by omega
  have hfd₂ : fd' = 0 ∨ fd' = 1 := by omega
  obtain ⟨W', hget, -⟩ := W.redirect hp hfd₁
  obtain ⟨W'', hget', hkeep⟩ := W'.redirect hq hfd₂
  refine ⟨?_, W'.card.le, ?_, W''.card.le, W'', ?_, hget'⟩
  · exact (t.card_close_le fd).trans W.card.le
  · exact (FdTable.card_close_le _ fd').trans W'.card.le
  · exact (hkeep fd (by omega)).trans hget

end Wired

/-! ## A process -/

/-- A child starts with its terminal on 0 and 1, and with the ends of the pipes as arguments. -/
structure Started (d : Side) (first second : Int) (t : FdTable File) : Prop where
  stdin : t.get 0 = some .tty
  stdout : t.get 1 = some .tty
  first : t.get first = some d.firstEnd
  second : t.get second = some d.secondEnd

theorem Started.apart {first second : Int} (h : Started d first second t) {x : File} (hx : x ≠ .tty)
    (hget : t.get fd = some x) : fd ≠ 0 ∧ fd ≠ 1 := by
  constructor
  · rintro rfl
    rw [h.stdin] at hget
    exact hx (Option.some.inj hget).symm
  · rintro rfl
    rw [h.stdout] at hget
    exact hx (Option.some.inj hget).symm

namespace Process

variable {s s' : Process} {m : Move}

/-- What 0 and 1 are open on outside the chains of calls. -/
def Mapped (d : Side) (place : Place) (failed : Bool) (t : FdTable File) : Prop :=
  match place with
  | .loop .input => t.get 0 = some .tty ∧ t.get 1 = some (.writeEnd d)
  | .loop .execute => (t.get 0 = some (.readEnd d.other) ∨ failed = true ∧ t.get 0 = some .tty) ∧ t.get 1 = some .tty
  | .loop .exited => True
  | .exec => t.get 0 = some .tty ∧ t.get 1 = some .tty

/-- Behind `calls` the process is wired and mapped as its place says. -/
def Leads (d : Side) (v : Vars) (n : Nat) (place : Place) (failed : Bool) : List Call → FdTable File → Prop :=
  Safe n fun t => Wired d v n t ∧ Mapped d place failed t

theorem give_leads (W : Wired d v n t) (failed : Bool) : Leads d v n (.loop .execute) failed (swapCalls d .input v) t := by
  cases d with
  | c =>
    have hchain := W.safe (v.stdoutCopy_mem .c) (v.second_mem .c) (.inr ⟨rfl, rfl⟩)
    exact hchain.mono fun t ⟨W', hout, hin⟩ => ⟨W', .inl hin, hout⟩
  | e =>
    have hchain := W.safe (v.stdoutCopy_mem .e) (v.first_mem .e) (.inr ⟨rfl, rfl⟩)
    exact hchain.mono fun t ⟨W', hout, hin⟩ => ⟨W', .inl hin, hout⟩

theorem take_leads (W : Wired d v n t) (failed : Bool) : Leads d v n (.loop .input) failed (swapCalls d .execute v) t := by
  cases d with
  | c => exact W.safe (v.stdinCopy_mem .c) (v.first_mem .c) (.inl ⟨rfl, rfl⟩)
  | e => exact W.safe (v.stdinCopy_mem .e) (v.second_mem .e) (.inl ⟨rfl, rfl⟩)

theorem exec_leads (W : Wired d v n t) (failed : Bool) : Leads d v n .exec failed (execCalls v) t :=
  W.safe (v.stdinCopy_mem d) (v.stdoutCopy_mem d) (.inl ⟨rfl, rfl⟩)

/-- `n` descriptors are open outside the chains of calls. -/
structure WiredInv (d : Side) (n : Nat) (s : Process) : Prop where
  leads : Leads d s.vars n s.place s.failed s.todo s.fds
  card : s.fds.fds.card ≤ n

namespace WiredInv

theorem rest (I : WiredInv d n s) (htodo : s.todo = []) : Wired d s.vars n s.fds ∧ Mapped d s.place s.failed s.fds := by
  have hleads := I.leads
  rw [htodo] at hleads
  exact hleads

/-- Before the loop the terminal is copied twice, and one of 0 and 1 is redirected. -/
theorem start {first second : Int} (h : Started d first second t) :
    WiredInv d (start d first second t).fds.fds.card (start d first second t) := by
  have hdup := FdTable.dup_eq h.stdin
  have hdup' := FdTable.dup_eq (FdTable.get_add_of_get h.stdout File.tty)
  set t₁ := t.add .tty with ht₁
  set t₂ := t₁.add .tty with ht₂
  have hkeep : ∀ {fd x}, t.get fd = some x → t₂.get fd = some x ∧ t.low ≠ fd ∧ t₁.low ≠ fd := fun hfd =>
    ⟨FdTable.get_add_of_get (FdTable.get_add_of_get hfd _) _, FdTable.low_ne hfd,
      FdTable.low_ne (FdTable.get_add_of_get hfd _)⟩
  obtain ⟨hstdin, hlow0, hlow0'⟩ := hkeep h.stdin
  obtain ⟨hstdout, hlow1, hlow1'⟩ := hkeep h.stdout
  have W : Wired d ⟨first, second, t.low, t₁.low⟩ t₂.fds.card t₂ := by
    refine ⟨fun p hp => ?_, FdTable.mem_of_get hstdin, FdTable.mem_of_get hstdout, rfl⟩
    simp only [Vars.sources, List.mem_cons, List.not_mem_nil, or_false] at hp
    rcases hp with rfl | rfl | rfl | rfl
    · exact ⟨FdTable.get_add_of_get (t.get_add_low _) _, hlow0, hlow1⟩
    · exact ⟨t₁.get_add_low _, hlow0', hlow1'⟩
    · exact ⟨(hkeep h.first).1, h.apart (by cases d <;> decide) h.first⟩
    · exact ⟨(hkeep h.second).1, h.apart (by cases d <;> decide) h.second⟩
  cases d with
  | c =>
    have hstart : Process.start .c first second t =
        ⟨⟨first, second, t.low, t₁.low⟩, ((t₂.close 1).dup first).2, .loop .input, [], false⟩ := by
      simp only [Process.start, hdup, hdup']
    obtain ⟨W', hout, hkept⟩ := W.redirect (Vars.first_mem _ .c) (.inr rfl)
    rw [hstart]
    exact ⟨⟨W'.self, (hkept 0 (by omega)).trans hstdin, hout⟩, le_rfl⟩
  | e =>
    have hstart : Process.start .e first second t =
        ⟨⟨first, second, t.low, t₁.low⟩, ((t₂.close 0).dup first).2, .loop .execute, [], false⟩ := by
      simp only [Process.start, hdup, hdup']
    obtain ⟨W', hin, hkept⟩ := W.redirect (Vars.first_mem _ .e) (.inl rfl)
    rw [hstart]
    exact ⟨⟨W'.self, .inl hin, (hkept 1 (by omega)).trans hstdout⟩, le_rfl⟩

theorem step (I : WiredInv d n s) (h : s.step d m = some s') : WiredInv d n s' := by
  cases moved_of_step h with
  | call c todo htodo =>
    have hleads := I.leads
    rw [htodo] at hleads
    exact ⟨hleads.2, hleads.1⟩
  | give htodo hplace => exact ⟨give_leads (I.rest htodo).1 s.failed, I.card⟩
  | take htodo hplace => exact ⟨take_leads (I.rest htodo).1 s.failed, I.card⟩
  | fork htodo hplace => exact ⟨exec_leads (I.rest htodo).1 s.failed, I.card⟩
  | fail htodo hplace =>
    obtain ⟨W, hmapped⟩ := I.rest htodo
    rw [hplace] at hmapped
    refine ⟨?_, I.card⟩
    rw [htodo]
    exact ⟨W, .inr ⟨rfl, hmapped.1⟩, hmapped.2⟩
  | exit htodo =>
    refine ⟨?_, I.card⟩
    rw [htodo]
    exact ⟨(I.rest htodo).1, trivial⟩

end WiredInv

end Process

/-! ## The supervisor -/

/-- `xterm` puts its terminal on 0, 1 and 2 and leaves the other descriptors as they are: both children are started as
`Started` says. -/
theorem started_of_supervisor (d : Side) (hopen : ∀ fd, 0 ≤ fd → fd ≤ 2 → fd ∈ t.fds)
    (hxterm : ∀ fd, t'.get fd = if 0 ≤ fd ∧ fd ≤ 2 then some .tty else (supervisor t).2.get fd) :
    Started d ((supervisor t).1 d).1 ((supervisor t).1 d).2 t' := by
  have htty : ∀ fd, 0 ≤ fd → fd ≤ 2 → t'.get fd = some .tty := fun fd h0 h2 => by rw [hxterm, if_pos ⟨h0, h2⟩]
  have hpipe : ∀ {fd x}, 2 < fd → (supervisor t).2.get fd = some x → t'.get fd = some x := fun hfd hget => by
    rw [hxterm, if_neg (by omega), hget]
  let t₁ := t.add (.readEnd .c)
  let t₂ := t₁.add (.writeEnd .c)
  let t₃ := t₂.add (.readEnd .e)
  have hopen₁ : ∀ fd, 0 ≤ fd → fd ≤ 2 → fd ∈ t₁.fds := fun fd h0 h2 => FdTable.mem_add (hopen fd h0 h2) _
  have hopen₂ : ∀ fd, 0 ≤ fd → fd ≤ 2 → fd ∈ t₂.fds := fun fd h0 h2 => FdTable.mem_add (hopen₁ fd h0 h2) _
  have hopen₃ : ∀ fd, 0 ≤ fd → fd ≤ 2 → fd ∈ t₃.fds := fun fd h0 h2 => FdTable.mem_add (hopen₂ fd h0 h2) _
  cases d with
  | c =>
    refine ⟨htty 0 le_rfl (by omega), htty 1 (by omega) (by omega), hpipe (FdTable.lt_low hopen₁) ?_,
      hpipe (FdTable.lt_low hopen₂) ?_⟩
    · exact FdTable.get_add_of_get (FdTable.get_add_of_get (t₁.get_add_low _) _) _
    · exact FdTable.get_add_of_get (t₂.get_add_low _) _
  | e =>
    refine ⟨htty 0 le_rfl (by omega), htty 1 (by omega) (by omega), hpipe (FdTable.lt_low hopen) ?_,
      hpipe (FdTable.lt_low hopen₃) ?_⟩
    · exact FdTable.get_add_of_get (FdTable.get_add_of_get (FdTable.get_add_of_get (t.get_add_low _) _) _) _
    · exact t₃.get_add_low _

end OsLab.A3
