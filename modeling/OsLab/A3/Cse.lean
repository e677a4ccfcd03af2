import Mathlib.Data.List.TakeWhile
import OsLab.Lib.Trans

/-!
# Command input and execution (A3/CSE_21CS30009.c)

| here | there |
| --- | --- |
| `Buffer`                       | `char command[100]`; `put` fills its front, `str` is the string in it |
| `fgets`, `Buffer.stripNewline` | `fgets(command, 100, stdin)` and the loop behind it (:80-88, :224-231) |
| `Child`                        | a child of the supervisor: `curr_role` and `command` of its process |
| `Child.waiting`                | how many processes wait for that one: the parents of forks whose `execvp` failed |
| `Child.input`, `Child.send`    | a round in the input role (:78-103, :222-245) |
| `Child.execute`, `Child.act`   | a round in the execute role (:108-153, :176-217) |
| `Cse.pipe`, `Cse.tty`          | what a child has written to the other one and not been read yet, what was typed on its terminal |

A round takes place at once: it has one `read` and at most one `write`, and those of 99 bytes or less are
atomic on a pipe. A `read` takes all that is there, at most 100 bytes, and blocks on an empty pipe. Where the
source would read behind the end of a full buffer, `str` ends with the buffer.
-/

namespace OsLab.A3

open Function (update)

def ascii (cs : List Char) : List UInt8 := cs.map fun c => UInt8.ofNat c.toNat

def newline : UInt8 := 10

def exit : List UInt8 := ascii ['e', 'x', 'i', 't']

def swaprole : List UInt8 := ascii ['s', 'w', 'a', 'p', 'r', 'o', 'l', 'e']

/-! ## The buffer -/

theorem takeWhile_line {line : List UInt8} {c : UInt8} (h : c ∉ line) (rest : List UInt8) :
    (line ++ c :: rest).takeWhile (· ≠ c) = line := by
  rw [List.takeWhile_append_of_pos (fun x hx => by simpa using fun hxc : x = c => h (hxc ▸ hx))]
  simp

structure Buffer where
  bytes : List UInt8
  size : bytes.length = 100
deriving DecidableEq, Repr

namespace Buffer

/-- What `for(int i=0; i<100; i++) command[i] = '\0'` leaves. -/
def cleared : Buffer := ⟨List.replicate 100 0, List.length_replicate⟩

/-- Filled from the front; the rest stays as it was. -/
def put (b : Buffer) (xs : List UInt8) : Buffer :=
  ⟨(xs ++ b.bytes.drop xs.length).take 100, by simp [b.size]; omega⟩

def str (b : Buffer) : List UInt8 := b.bytes.takeWhile (· ≠ 0)

/-- The first newline becomes a NUL (:83-88). -/
def stripNewline (b : Buffer) : Buffer := ⟨b.bytes.replace newline 0, by simp [b.size]⟩

@[simp] theorem bytes_cleared : Buffer.cleared.bytes = List.replicate 100 0 := rfl

@[simp] theorem bytes_put (b : Buffer) (xs : List UInt8) :
    (b.put xs).bytes = (xs ++ b.bytes.drop xs.length).take 100 := rfl

@[simp] theorem bytes_stripNewline (b : Buffer) : b.stripNewline.bytes = b.bytes.replace newline 0 := rfl

theorem nul_not_mem_str (b : Buffer) : 0 ∉ b.str := by
  intro h
  have hne := List.mem_takeWhile_imp h
  exact absurd hne (by decide)

theorem cleared_get (n : Nat) (h : n < 100) : Buffer.cleared.bytes[n]? = some 0 := by
  rw [bytes_cleared, List.getElem?_replicate, if_pos h]

/-- What is put in front of a NUL is the string. -/
theorem str_put {b : Buffer} {xs : List UInt8} (hnul : 0 ∉ xs) (hend : b.bytes[xs.length]? = some 0) :
    (b.put xs).str = xs := by
  obtain ⟨hlen, hget⟩ := List.getElem?_eq_some_iff.1 hend
  have hlt : xs.length < 100 := b.size ▸ hlen
  rw [str, bytes_put, List.drop_eq_getElem_cons hlen, hget, List.take_append, List.take_of_length_le (Nat.le_of_lt hlt),
    show 100 - xs.length = (99 - xs.length) + 1 by omega, List.take_succ_cons]
  exact takeWhile_line hnul _

theorem str_put_prefix {b : Buffer} {xs : List UInt8} (hnul : 0 ∉ xs) (hlen : xs.length ≤ 100) :
    xs <+: (b.put xs).str := by
  rw [str, bytes_put, List.take_append, List.take_of_length_le hlen,
    List.takeWhile_append_of_pos (fun x hx => by simpa using fun h0 : x = 0 => hnul (h0 ▸ hx))]
  exact List.prefix_append _ _

end Buffer

/-- Into `command` from what was typed: a line with its newline, or the first 99 bytes of a longer one.
Waits when the line is not finished. -/
def fgets (command : Buffer) (tty : List UInt8) : Option (Buffer × List UInt8) :=
  let line := tty.takeWhile (· ≠ newline)
  if 99 ≤ line.length then some (command.put (tty.take 99 ++ [0]), tty.drop 99)
  else if line.length < tty.length then some (command.put (line ++ [newline, 0]), tty.drop (line.length + 1))
  else none

/-- A line of at most 99 bytes is read as it is; the newline of one of 99 bytes is left for the next time. -/
theorem fgets_line (b : Buffer) {line : List UInt8} (rest : List UInt8) (hlen : line.length ≤ 99)
    (hnl : newline ∉ line) (hnul : 0 ∉ line) : ∃ b' : Buffer, b'.stripNewline.str = line ∧
      fgets b (line ++ newline :: rest) = some (b', if line.length = 99 then newline :: rest else rest) := by
  have hline := takeWhile_line hnl rest
  by_cases h99 : line.length = 99
  · refine ⟨b.put (line ++ [0]), ?_, ?_⟩
    · have hmem : newline ∉ line ++ [0] := by
        intro h
        rcases List.mem_append.1 h with h | h
        · exact hnl h
        · exact absurd h (by decide)
      have hbytes : (b.put (line ++ [0])).bytes = line ++ [0] := by
        have hfull : (line ++ [0]).length = 100 := by simp [h99]
        rw [Buffer.bytes_put, hfull, List.drop_eq_nil_of_le (Nat.le_of_eq b.size), List.append_nil,
          List.take_of_length_le (Nat.le_of_eq hfull)]
      rw [Buffer.str, Buffer.bytes_stripNewline, hbytes, List.replace_of_not_mem hmem]
      exact takeWhile_line hnul []
    · rw [fgets, hline, if_pos (Nat.le_of_eq h99.symm), if_pos h99, List.take_left' h99, List.drop_left' h99]
  · have hlt : line.length < 99 := by omega
    refine ⟨b.put (line ++ [newline, 0]), ?_, ?_⟩
    · obtain ⟨tail, htail⟩ : ∃ tail, (b.put (line ++ [newline, 0])).bytes = line ++ newline :: 0 :: tail := by
        rw [Buffer.bytes_put, List.append_assoc, List.take_append, List.take_of_length_le (by omega),
          show 100 - line.length = (98 - line.length) + 2 by omega]
        exact ⟨_, rfl⟩
      rw [Buffer.str, Buffer.bytes_stripNewline, htail, List.replace_append_right hnl]
      simpa using takeWhile_line hnul (0 :: tail)
    · rw [fgets, hline, if_neg (by omega), if_pos (by simp), if_neg h99]
      simp

/-! ## One child -/

/-- `curr_role` 1 and 0, and out of the loop. -/
inductive Role
  | input | execute | exited
deriving DecidableEq, Repr

structure Child where
  role : Role
  command : Buffer
  waiting : Nat
deriving DecidableEq, Repr

namespace Child

/-- The process leaves the loop. A process that waits for it goes on: it forked in the execute role, and
clears its buffer behind the `wait` (:150-152, :214-216). -/
def leave (p : Child) : Child :=
  if p.waiting = 0 then { p with role := .exited }
  else { role := .execute, command := .cleared, waiting := p.waiting - 1 }

/-- After `command` was sent (:93-103, :236-245). -/
def send (p : Child) (command : Buffer) : Child :=
  if command.str = exit then { p with command := command }.leave
  else if command.str = swaprole then { p with role := .execute, command := .cleared }
  else { p with command := command }

/-- After `command` was received (:115-153, :184-217). `clears` says whether `swaprole` clears the buffer,
`fails` whether `execvp` fails: the forked process then goes on in the loop, and its parent waits for it. -/
def act (clears fails : Bool) (p : Child) (command : Buffer) : Child :=
  if command.str = exit then { p with command := command }.leave
  else if command.str = swaprole then { p with role := .input, command := if clears then .cleared else command }
  else if fails then { p with command := .cleared, waiting := p.waiting + 1 }
  else { p with command := .cleared }

/-- The child after the round, the string it sent, what is left of its terminal's input. -/
def input (p : Child) (tty : List UInt8) : Option (Child × List UInt8 × List UInt8) :=
  (fgets p.command tty).map fun (b, rest) => (p.send b.stripNewline, b.stripNewline.str, rest)

/-- The child after the round, the string it acted on, what is left in the pipe. -/
def execute (clears fails : Bool) (p : Child) (pipe : List UInt8) : Option (Child × List UInt8 × List UInt8) :=
  if pipe = [] then none
  else
    let command := p.command.put (pipe.take 100)
    some (p.act clears fails command, command.str, pipe.drop 100)

theorem input_some {p p' : Child} {tty out rest : List UInt8} (h : p.input tty = some (p', out, rest)) :
    ∃ b, fgets p.command tty = some (b, rest) ∧ p.send b.stripNewline = p' ∧ b.stripNewline.str = out := by
  obtain ⟨⟨b, _⟩, hget, heq⟩ := Option.map_eq_some_iff.1 h
  simp only [Prod.mk.injEq] at heq
  obtain ⟨rfl, rfl, rfl⟩ := heq
  exact ⟨b, hget, rfl, rfl⟩

theorem execute_some {clears fails : Bool} {p p' : Child} {pipe action rest : List UInt8}
    (h : p.execute clears fails pipe = some (p', action, rest)) :
    pipe ≠ [] ∧ p.act clears fails (p.command.put (pipe.take 100)) = p' ∧
      (p.command.put (pipe.take 100)).str = action ∧ pipe.drop 100 = rest := by
  rw [execute, Option.ite_none_left_eq_some] at h
  obtain ⟨hpipe, heq⟩ := h
  simp only [Option.some.injEq, Prod.mk.injEq] at heq
  exact ⟨hpipe, heq⟩

theorem leave_role (p : Child) : p.leave.role ≠ .input := by
  rw [leave]
  split <;> simp

theorem leave_command (p : Child) (h : p.leave.role = .execute) : p.leave.command = .cleared := by
  by_cases hwait : p.waiting = 0
  · simp [leave, hwait] at h
  · simp [leave, hwait]

/-- Who sends `swaprole` gives the input role up; who executes next has a clear buffer. -/
theorem send_spec {p : Child} (command : Buffer) (hrole : p.role = .input) :
    ((p.send command).role = .input → command.str ≠ swaprole) ∧
      ((p.send command).role = .execute → (p.send command).command = .cleared) := by
  rw [send]
  split_ifs with hexit hswap
  · exact ⟨fun hin => absurd hin (leave_role _), leave_command _⟩
  · simp
  · simp [hrole, hswap]

/-- Only who receives `swaprole` takes the input role; who executes next has a clear buffer. -/
theorem act_spec {p : Child} (clears fails : Bool) (command : Buffer) (hrole : p.role = .execute) :
    ((p.act clears fails command).role = .input → command.str = swaprole) ∧
      ((p.act clears fails command).role = .execute → (p.act clears fails command).command = .cleared) := by
  rw [act]
  split_ifs with hexit hswap hclears hfails
  · exact ⟨fun hin => absurd hin (leave_role _), leave_command _⟩
  · simp [hswap]
  · simp [hswap]
  · simp [hrole]
  · simp [hrole]

end Child

/-! ## Both children -/

/-- The child started in mode C and the one started in mode E. -/
inductive Side
  | c | e
deriving DecidableEq, Repr

def Side.other : Side → Side
  | .c => .e
  | .e => .c

/-- Mode C clears the buffer when it receives `swaprole` (:124), mode E does not (:186-192). -/
def Side.clears : Side → Bool
  | .c => true
  | .e => false

/-- `pipe s` is written by `s` and read by the other side. `typed s` are the lines typed on the terminal of
`s`, `sent s` what `s` wrote to its pipe, write by write, `acted s` the strings `s` acted on. -/
structure Cse where
  child : Side → Child
  pipe : Side → List UInt8
  tty : Side → List UInt8
  typed : Side → List (List UInt8)
  sent : Side → List (List UInt8)
  acted : Side → List (List UInt8)

/-- A line is typed, a child does a round in the input or in the execute role. -/
inductive Move
  | type (s : Side) (line : List UInt8)
  | enter (s : Side)
  | receive (s : Side) (fails : Bool)
deriving DecidableEq, Repr

namespace Cse

/-- The buffers are not initialised. -/
def init (c e : Buffer) : Cse where
  child
    | .c => { role := .input, command := c, waiting := 0 }
    | .e => { role := .execute, command := e, waiting := 0 }
  pipe _ := []
  tty _ := []
  typed _ := []
  sent _ := []
  acted _ := []

/-- After a round of `s` in the input role; the empty string is no write. -/
def entered (x : Cse) (s : Side) (p : Child) (out rest : List UInt8) : Cse :=
  { x with
    child := update x.child s p
    pipe := update x.pipe s (x.pipe s ++ out)
    tty := update x.tty s rest
    sent := update x.sent s (if out = [] then x.sent s else x.sent s ++ [out]) }

/-- After a round of `s` in the execute role. -/
def received (x : Cse) (s : Side) (p : Child) (act rest : List UInt8) : Cse :=
  { x with
    child := update x.child s p
    pipe := update x.pipe s.other rest
    acted := update x.acted s (x.acted s ++ [act]) }

def step (x : Cse) : Move → Option Cse
  | .type s line =>
    some { x with
      tty := update x.tty s (x.tty s ++ (line ++ [newline]))
      typed := update x.typed s (x.typed s ++ [line]) }
  | .enter s =>
    if (x.child s).role = .input then
      ((x.child s).input (x.tty s)).map fun (p, out, rest) => x.entered s p out rest
    else none
  | .receive s fails =>
    if (x.child s).role = .execute then
      ((x.child s).execute s.clears fails (x.pipe s.other)).map fun (p, act, rest) => x.received s p act rest
    else none

/-- What a step can do. -/
inductive Moved (x : Cse) : Move → Cse → Prop
  | type (s : Side) (line : List UInt8) : Moved x (.type s line)
      { x with
        tty := update x.tty s (x.tty s ++ (line ++ [newline]))
        typed := update x.typed s (x.typed s ++ [line]) }
  | enter (s : Side) (p : Child) (out rest : List UInt8) : (x.child s).role = .input →
      (x.child s).input (x.tty s) = some (p, out, rest) → Moved x (.enter s) (x.entered s p out rest)
  | receive (s : Side) (fails : Bool) (p : Child) (act rest : List UInt8) : (x.child s).role = .execute →
      (x.child s).execute s.clears fails (x.pipe s.other) = some (p, act, rest) →
      Moved x (.receive s fails) (x.received s p act rest)

theorem moved_of_step {x x' : Cse} {m : Move} (h : x.step m = some x') : Moved x m x' := by
  cases m with
  | type s line =>
    obtain rfl := Option.some.inj h
    exact .type s line
  | enter s =>
    rw [step, Option.ite_none_right_eq_some, Option.map_eq_some_iff] at h
    obtain ⟨hrole, ⟨p, out, rest⟩, hround, rfl⟩ := h
    exact .enter s p out rest hrole hround
  | receive s fails =>
    rw [step, Option.ite_none_right_eq_some, Option.map_eq_some_iff] at h
    obtain ⟨hrole, ⟨p, act, rest⟩, hround, rfl⟩ := h
    exact .receive s fails p act rest hrole hround

end Cse

end OsLab.A3
