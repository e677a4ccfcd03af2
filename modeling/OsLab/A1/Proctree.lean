import Mathlib.Data.List.Nodup
import OsLab.Lib.CString
import OsLab.Lib.Trans

/-!
# The process tree (A1/proctree_21CS30009.c)

| here | there |
| --- | --- |
| `Node`, `makeNode`   | `node`, `make_node` (:19-32); of a child nothing but the name is ever read |
| `fscanf`, `words`    | `fscanf(fp, "%s", word)` (:63), called until it returns `EOF` |
| `Reader`, `readWord` | `word`, `cities`, `i_children`, `total_children`, `parent_index`, and the body of the loop that reads them (:64-93) |
| `start`              | `main` up to its second loop (:40-112) |
| `Pc`, `Sys.step`     | the loop that forks (:114-124), what `fork`, `execlp`, `wait` and `exit` do to the processes |

Reading the file is the business of one process; the others see what it prints and that it has exited. `fork` and
`execlp` succeed, `fork` gives the child a pid that no other process has, and what is printed is on the terminal when
`printf` returns. `none` is a move that is not possible: `wait` before a child has exited, and what C leaves undefined
(writing or reading behind the end of `word`, `cities` or `children`, a number that is no `int`).
-/

namespace OsLab.A1

open CString

abbrev Word := List Char

/-- `MAXLINE`. -/
def maxLine : Nat := 100

/-- `MAX_CITIES`. -/
def maxCities : Nat := 100

/-- `MAX_CHILDREN`. -/
def maxChildren : Nat := 10

/-- `none`: nothing has been written there. -/
structure Node where
  cityName : Word
  children : List (Option Word)
  numChildren : Int
deriving DecidableEq, Repr

def makeNode (cityName : Word) : Node := ⟨cityName, List.replicate maxChildren none, 0⟩

/-- A value computed as an `int`. -/
def asInt (z : Int) : Option Int := if -2 ^ 31 ≤ z ∧ z < 2 ^ 31 then some z else none

/-! ## Reading the file -/

/-- `%s`: the next characters that are no white space, and what is behind them; `none` is `EOF`. -/
def fscanf (s : List Char) : Option (Word × List Char) :=
  match s.dropWhile isSpace with
  | [] => none
  | c :: cs => some ((c :: cs).takeWhile fun c => !isSpace c, (c :: cs).dropWhile fun c => !isSpace c)

def wordsOf : Nat → List Char → List Word
  | 0, _ => []
  | n + 1, s => (fscanf s).elim [] fun (word, rest) => word :: wordsOf n rest

/-- What `fscanf` returns one after the other; every call but the last reads at least one character. -/
def words (s : List Char) : List Word := wordsOf s.length s

theorem fscanf_length {s rest : List Char} {word : Word} (h : fscanf s = some (word, rest)) : rest.length < s.length := by
  unfold fscanf at h
  split at h
  · cases h
  · next c cs hs =>
    cases h
    have hc : isSpace c = false := by
      have hhead := List.head?_dropWhile_not isSpace s
      rw [hs] at hhead
      simpa using hhead
    have hlt : (c :: cs).length ≤ s.length := by
      rw [← hs]
      exact (List.dropWhile_sublist isSpace).length_le
    rw [List.dropWhile_cons_of_pos (by rw [hc]; rfl)]
    exact Nat.lt_of_le_of_lt (List.dropWhile_sublist _).length_le hlt

theorem wordsOf_nil (n : Nat) : wordsOf n [] = [] := by cases n <;> rfl

theorem wordsOf_congr {s : List Char} {n m : Nat} (hn : s.length ≤ n) (hm : s.length ≤ m) : wordsOf n s = wordsOf m s := by
  induction n generalizing s m with
  | zero =>
    obtain rfl : s = [] := List.eq_nil_of_length_eq_zero (Nat.le_zero.1 hn)
    rw [wordsOf_nil, wordsOf_nil]
  | succ n ih =>
    cases m with
    | zero =>
      obtain rfl : s = [] := List.eq_nil_of_length_eq_zero (Nat.le_zero.1 hm)
      rw [wordsOf_nil, wordsOf_nil]
    | succ m =>
      rw [wordsOf, wordsOf]
      cases h : fscanf s with
      | none => rfl
      | some r =>
        obtain ⟨word, rest⟩ := r
        have hlt := fscanf_length h
        simp only [Option.elim_some, ih (show rest.length ≤ n by omega) (show rest.length ≤ m by omega)]

/-- `words` goes on until `EOF`. -/
theorem words_eq (s : List Char) : words s = (fscanf s).elim [] fun r => r.1 :: words r.2 := by
  cases h : fscanf s with
  | none =>
    rw [words]
    cases hs : s.length with
    | zero => rfl
    | succ n => rw [wordsOf, h]; rfl
  | some r =>
    obtain ⟨word, rest⟩ := r
    have hlt := fscanf_length h
    obtain ⟨n, hn⟩ : ∃ n, s.length = n + 1 := ⟨s.length - 1, by omega⟩
    rw [words, hn, wordsOf, h]
    simp only [Option.elim_some, words, wordsOf_congr (show rest.length ≤ n by omega) (Nat.le_refl rest.length)]

structure Reader where
  cities : List Node
  iChildren : Int
  totalChildren : Int
  parentIndex : Nat
deriving DecidableEq, Repr

def Reader.init : Reader := ⟨[], 0, 0, 0⟩

/-- The body of the loop, for a word of the file (:64-93). -/
def readWord (r : Reader) (word : Word) : Option Reader :=
  if maxLine ≤ word.length then none
  else
    let name := str word 0
    if (name.headD nul).isDigit then some { r with iChildren := atoi name, totalChildren := atoi name }
    else if r.iChildren = 0 then
      if r.cities.length < maxCities then
        some { r with cities := r.cities ++ [makeNode name], parentIndex := r.cities.length }
      else none
    else
      (r.cities[r.parentIndex]?).bind fun parent =>
        let slot := r.totalChildren - r.iChildren
        if 0 ≤ slot ∧ slot < maxChildren then
          (asInt (r.iChildren - 1)).map fun iChildren =>
            { r with
              cities := r.cities.set r.parentIndex
                { parent with
                  numChildren := if r.totalChildren = r.iChildren then r.totalChildren else parent.numChildren
                  children := parent.children.set slot.toNat (some name) }
              iChildren := iChildren }
        else none

/-! ## One process -/

/-- `printf("%*s%s (%d)\n", width, "", cityName, pid)`; a negative width means that the blanks are behind `""`. -/
def line (width : Int) (cityName : Word) (pid : Nat) : List Char :=
  List.replicate width.natAbs ' ' ++ cityName ++ [' ', '('] ++ decimal pid ++ [')', '\n']

/-- What is printed, and the node and the indentation with which the loop is entered; without them `main` has called
`exit(1)`. -/
def start (file : List Char) (argv : List Word) (pid : Nat) : Option (List Char × Option (Node × Int)) :=
  match argv with
  | _ :: city :: args =>
    let indentation := args.head?.elim 0 atoi
    ((words file).foldlM readWord .init).bind fun r =>
      match r.cities.find? fun c => c.cityName = city with
      | none => some ("City ".toList ++ city ++ " not found\n".toList, none)
      | some root => (asInt (indentation * 4)).map fun width => (line width root.cityName pid, some (root, indentation))
  | _ => some ("Run with a node name".toList, none)

inductive Pc
  | main (argv : List Word)
  | loop (root : Node) (indentation : Int) (i : Nat)
  | child (root : Node) (indentation : Int) (i : Nat)
  | wait (root : Node) (indentation : Int) (i : Nat)
  | exited (status : Nat)
deriving DecidableEq, Repr

namespace Pc

/-- What a process does by itself, and what it prints. -/
def run (file : List Char) (pid : Nat) : Pc → Option (Pc × List (List Char))
  | main argv => (start file argv pid).map fun (text, next) =>
    (next.elim (exited 1) fun (root, indentation) => loop root indentation 0, [text])
  | loop root _ i => if i < root.numChildren then none else some (exited 0, [])
  | child root indentation i => (root.children[i]?).join.bind fun city =>
    (asInt (indentation + 1)).map fun indentation => (main ["./proctree".toList, city, decimal indentation], [])
  | wait _ _ _ | exited _ => none

/-- The parent and the child behind `fork`. -/
def fork : Pc → Option (Pc × Pc)
  | loop root indentation i =>
    if i < root.numChildren then some (wait root indentation i, child root indentation i) else none
  | main _ | child _ _ _ | wait _ _ _ | exited _ => none

/-- Behind `wait`. -/
def waited : Pc → Option Pc
  | wait root indentation i => some (loop root indentation (i + 1))
  | main _ | loop _ _ _ | child _ _ _ | exited _ => none

def hasExited : Pc → Bool
  | exited _ => true
  | main _ | loop _ _ _ | child _ _ _ | wait _ _ _ => false

end Pc

/-! ## All of them -/

/-- `parent` is `none` for the process that the user has started. -/
structure Proc where
  pid : Nat
  parent : Option Nat
  pc : Pc
deriving DecidableEq, Repr

/-- The processes that have not been waited for, the last one forked first, and what has been printed. -/
structure Sys where
  procs : List Proc
  out : List (List Char)
deriving DecidableEq, Repr

/-- `run p`: process `p` goes on by itself; `fork p q`: it forks, and `q` is the pid of the child; `reap p q`: its
`wait` returns because of `q`; `noChild p`: it returns because there is nobody to wait for. -/
inductive Move
  | run (p : Nat) | fork (p q : Nat) | reap (p q : Nat) | noChild (p : Nat)
deriving DecidableEq, Repr

namespace Sys

def init (pid : Nat) (argv : List Word) : Sys := ⟨[⟨pid, none, .main argv⟩], []⟩

def find (s : Sys) (p : Nat) : Option Proc := s.procs.find? fun r => r.pid = p

def goto (s : Sys) (p : Nat) (pc : Pc) : List Proc := s.procs.map fun r => if r.pid = p then { r with pc := pc } else r

def step (file : List Char) (s : Sys) : Move → Option Sys
  | .run p => (s.find p).bind fun r => (r.pc.run file p).map fun (pc, texts) => ⟨s.goto p pc, s.out ++ texts⟩
  | .fork p q => (s.find p).bind fun r => r.pc.fork.bind fun (pc, child) =>
    if s.find q = none then some ⟨⟨q, some p, child⟩ :: s.goto p pc, s.out⟩ else none
  | .reap p q => (s.find p).bind fun r => r.pc.waited.bind fun pc => (s.find q).bind fun z =>
    if z.parent = some p ∧ z.pc.hasExited then some ⟨(s.goto p pc).filter fun r => r.pid ≠ q, s.out⟩ else none
  | .noChild p => (s.find p).bind fun r => r.pc.waited.bind fun pc =>
    if ∀ z ∈ s.procs, z.parent ≠ some p then some ⟨s.goto p pc, s.out⟩ else none

end Sys

/-! ## The moves of the last process -/

/-- An element is found by its key. -/
theorem find_of_nodup {α κ : Type} [DecidableEq κ] {key : α → κ} {l : List α} (hl : (l.map key).Nodup) {x : α} (hx : x ∈ l) :
    (l.find? fun y => key y = key x) = some x := by
  cases hy : l.find? fun y => key y = key x with
  | none => exact absurd (decide_eq_true rfl) (List.find?_eq_none.1 hy x hx)
  | some y =>
    have hkey : key y = key x := by simpa using List.find?_some hy
    rw [List.inj_on_of_nodup_map hl (List.mem_of_find?_eq_some hy) hx hkey]

namespace Sys

variable {file : List Char} {s s' : Sys} {r r₀ : Proc} {rs : List Proc}

theorem find_top (hs : s.procs = r :: rs) : s.find r.pid = some r := by
  rw [find, hs, List.find?_cons_of_pos (by simp)]

theorem map_other {p : Nat} {pc : Pc} (h : ∀ q ∈ rs, q.pid ≠ p) :
    rs.map (fun q => if q.pid = p then { q with pc := pc } else q) = rs := by
  conv_rhs => rw [← List.map_id rs]
  exact List.map_congr_left fun q hq => if_neg (h q hq)

theorem goto_top (hs : s.procs = r :: rs) (hn : (s.procs.map Proc.pid).Nodup) (pc : Pc) :
    s.goto r.pid pc = { r with pc := pc } :: rs := by
  rw [hs, List.map_cons, List.nodup_cons] at hn
  rw [goto, hs, List.map_cons, if_pos rfl]
  rw [map_other fun q hq hpid => hn.1 (List.mem_map.2 ⟨q, hq, hpid⟩)]

theorem step_run (hs : s.procs = r :: rs) (hn : (s.procs.map Proc.pid).Nodup) :
    s.step file (.run r.pid) = (r.pc.run file r.pid).map fun x => ⟨{ r with pc := x.1 } :: rs, s.out ++ x.2⟩ := by
  rw [step, find_top hs, Option.bind_some]
  cases r.pc.run file r.pid with
  | none => rfl
  | some x =>
    obtain ⟨pc, texts⟩ := x
    simp only [Option.map_some, goto_top hs hn]

theorem step_fork (hs : s.procs = r :: rs) (hn : (s.procs.map Proc.pid).Nodup) (q : Nat) :
    s.step file (.fork r.pid q) = r.pc.fork.bind fun x =>
      if s.find q = none then some ⟨⟨q, some r.pid, x.2⟩ :: { r with pc := x.1 } :: rs, s.out⟩ else none := by
  rw [step, find_top hs, Option.bind_some]
  cases r.pc.fork with
  | none => rfl
  | some x =>
    obtain ⟨pc, child⟩ := x
    simp only [Option.bind_some, goto_top hs hn]

theorem step_reap (hs : s.procs = r :: r₀ :: rs) (hn : (s.procs.map Proc.pid).Nodup) (hparent : r.parent = some r₀.pid)
    (hexited : r.pc.hasExited = true) :
    s.step file (.reap r₀.pid r.pid) = r₀.pc.waited.map fun pc => ⟨{ r₀ with pc := pc } :: rs, s.out⟩ := by
  have hn' := hn
  rw [hs, List.map_cons, List.map_cons, List.nodup_cons, List.nodup_cons] at hn'
  have hne : r.pid ≠ r₀.pid := fun h => hn'.1 (by rw [h]; exact List.mem_cons_self)
  have hfind : s.find r₀.pid = some r₀ := by
    rw [find]
    exact find_of_nodup hn (by rw [hs]; simp)
  have hgoto : ∀ pc, (s.goto r₀.pid pc).filter (fun q => q.pid ≠ r.pid) = { r₀ with pc := pc } :: rs := by
    intro pc
    have hrest : ∀ q ∈ rs, q.pid ≠ r.pid ∧ q.pid ≠ r₀.pid := by
      intro q hq
      refine ⟨fun h => hn'.1 ?_, fun h => hn'.2.1 ?_⟩
      · exact List.mem_cons_of_mem _ (List.mem_map.2 ⟨q, hq, h⟩)
      · exact List.mem_map.2 ⟨q, hq, h⟩
    have hfilter : rs.filter (fun q => q.pid ≠ r.pid) = rs :=
      List.filter_eq_self.2 fun q hq => decide_eq_true (hrest q hq).1
    rw [goto, hs, List.map_cons, List.map_cons, if_neg hne, if_pos rfl, map_other fun q hq => (hrest q hq).2,
       List.filter_cons_of_neg (by simp),
      List.filter_cons_of_pos (by simpa using hne.symm), hfilter]
  rw [step, hfind, Option.bind_some]
  cases r₀.pc.waited with
  | none => rfl
  | some pc => rw [Option.bind_some, find_top hs, Option.bind_some, if_pos ⟨hparent, hexited⟩, hgoto, Option.map_some]

end Sys

end OsLab.A1
