import Mathlib.Data.Set.Finite.List
import OsLab.A1.Treeinfo
import OsLab.Lib.Unfold

/-!
# The tree that is printed (A1/proctree_21CS30009.c:95-126)

A process prints its city and forks one child at a time, waiting for it before it forks the next. So all processes but
the last one forked are waiting, each for the one forked after it (`Stack`), and what is still to be printed is what the
last one has to do, followed by the children that the others have not come to, from the last to the first. A move
prints the head of this list or leaves the list as it is (`Progress.step`), and brings the end nearer.

`printed_preorder`: no move is possible any more only when the whole tree has been printed.
-/

namespace OsLab.A1

open CString

/-- The children in the record of a city. -/
def childrenOf (cities : List City) (w : Word) : List Word := (cities.find? fun c => c.name = w).elim [] City.children

/-- The records of a well-formed file. -/
structure Treeinfo where
  cities : List City
  few : cities.length ≤ maxCities
  names : ∀ c ∈ cities, IsName c.name
  narrow : ∀ c ∈ cities, c.children.length ≤ maxChildren
  unique : (cities.map City.name).Nodup
  closed : ∀ c ∈ cities, ∀ w ∈ c.children, ∃ c' ∈ cities, c'.name = w
  acyclic : ∀ w, ¬ Relation.TransGen (fun v w => v ∈ childrenOf cities w) w w

namespace Treeinfo

variable (T : Treeinfo)

/-- The file may have any white space between the words. -/
def IsFile (file : List Char) : Prop := words file = T.cities.flatMap City.words

/-- The tree unfolded from the records. -/
def tree : Unfold Word where
  children := childrenOf T.cities
  wf := by
    apply Unfold.wellFounded_of_acyclic (T.cities.map City.name).finite_toSet _ T.acyclic
    intro w hw
    cases hc : T.cities.find? fun c => c.name = w with
    | none => exact absurd (by rw [childrenOf, hc]; rfl) hw
    | some c =>
      have hname : c.name = w := by simpa using List.find?_some hc
      exact List.mem_map.2 ⟨c, List.mem_of_find?_eq_some hc, hname⟩

variable {T} {c : City}

theorem find_name (hc : c ∈ T.cities) : (T.cities.find? fun d => d.name = c.name) = some c := find_of_nodup T.unique hc

theorem children_name (hc : c ∈ T.cities) : T.tree.children c.name = c.children := by
  show childrenOf T.cities c.name = c.children
  rw [childrenOf, find_name hc]
  rfl

/-- What a process finds that is called with the name of a city. -/
theorem start_city {file : List Char} (hfile : T.IsFile file) (hc : c ∈ T.cities) {prog : Word} {args : List Word}
    {d : Int} (hd : args.head?.elim 0 atoi = d) (hfits : -2 ^ 31 ≤ d * 4 ∧ d * 4 < 2 ^ 31) (pid : Nat) :
    start file (prog :: c.name :: args) pid = some (line (d * 4) c.name pid, some (c.node, d)) := by
  have hchildren : ∀ c ∈ T.cities, ∀ w ∈ c.children, IsName w := by
    intro c hc w hw
    obtain ⟨c', hc', rfl⟩ := T.closed c hc w hw
    exact T.names c' hc'
  have hroom : Reader.init.cities.length + T.cities.length ≤ maxCities := by
    rw [Reader.init, List.length_nil, Nat.zero_add]
    exact T.few
  obtain ⟨r, hr, -, hcities⟩ := readCities T.names hchildren T.narrow .init rfl hroom
  have hfind : (r.cities.find? fun n => n.cityName = c.name) = some c.node := by
    rw [hcities]
    show ((T.cities.map City.node).find? fun n => n.cityName = c.name) = some c.node
    rw [List.find?_map]
    show (T.cities.find? fun d => d.name = c.name).map City.node = some c.node
    rw [find_name hc, Option.map_some]
  unfold start
  dsimp only
  rw [hfile, hr, Option.bind_some, hfind, hd, asInt_eq hfits.1 hfits.2]
  rfl

end Treeinfo

/-! ## What is still to be printed -/

/-- What a process that does not wait has to print, itself and by the children it is going to fork; the process that
the user has started is at depth 0, with indentation `d`. -/
inductive Doing (T : Treeinfo) (d : Int) : Pc → List (Nat × Word) → Prop
  | main {k : Nat} {c : City} {prog : Word} {args : List Word} :
      c ∈ T.cities → args.head?.elim 0 atoi = d + k → Doing T d (.main (prog :: c.name :: args)) (T.tree.preorder k c.name)
  | loop {k i : Nat} {c : City} : c ∈ T.cities → Doing T d (.loop c.node (d + k) i) (T.tree.forest (k + 1) c.name i)
  | child {k i : Nat} {c : City} {w : Word} :
      c ∈ T.cities → c.children[i]? = some w → Doing T d (.child c.node (d + k) i) (T.tree.preorder (k + 1) w)
  | exited : Doing T d (.exited 0) []

/-- The processes below one with parent `p`: each waits for the one above it. -/
inductive Waiting (T : Treeinfo) (d : Int) : Option Nat → List Proc → List (Nat × Word) → Prop
  | nil : Waiting T d none [] []
  | cons {r : Proc} {rs : List Proc} {k i : Nat} {c : City} {todo : List (Nat × Word)} :
      c ∈ T.cities → r.pc = .wait c.node (d + k) i → Waiting T d r.parent rs todo →
      Waiting T d (some r.pid) (r :: rs) (T.tree.forest (k + 1) c.name (i + 1) ++ todo)

/-- All processes, and all that is still to be printed. -/
inductive Stack (T : Treeinfo) (d : Int) : List Proc → List (Nat × Word) → Prop
  | mk {r : Proc} {rs : List Proc} {todo rest : List (Nat × Word)} :
      Doing T d r.pc todo → Waiting T d r.parent rs rest → Stack T d (r :: rs) (todo ++ rest)

section
variable {T : Treeinfo} {d : Int} {file : List Char} {s s' : Sys} {r q : Proc} {rs : List Proc} {p : Option Nat}
  {todo rest : List (Nat × Word)}

theorem Doing.waited {pc : Pc} (h : Doing T d pc todo) : pc.waited = none := by cases h <;> rfl

theorem Waiting.pc (h : Waiting T d p rs todo) (hq : q ∈ rs) : ∃ root indentation i, q.pc = .wait root indentation i := by
  induction h with
  | nil => cases hq
  | cons _ hpc _ ih =>
    rcases List.mem_cons.1 hq with rfl | hq
    · exact ⟨_, _, _, hpc⟩
    · exact ih hq

theorem Waiting.parent (h : Waiting T d p rs todo) (hq : q ∈ rs) : p = some q.pid ∨ ∃ z ∈ rs, z.parent = some q.pid := by
  induction h with
  | nil => cases hq
  | @cons r rs _ _ _ _ _ _ _ ih =>
    rcases List.mem_cons.1 hq with rfl | hq
    · exact .inl rfl
    · rcases ih hq with h | ⟨z, hz, h⟩
      · exact .inr ⟨r, List.mem_cons_self, h⟩
      · exact .inr ⟨z, List.mem_cons_of_mem r hz, h⟩

theorem Waiting.head {p : Nat} (h : Waiting T d (some p) rs rest) :
    ∃ r₀ rs₀ todo, ∃ k i : Nat, ∃ c ∈ T.cities, rs = r₀ :: rs₀ ∧ r₀.pid = p ∧ r₀.pc = .wait c.node (d + k) i ∧
      Waiting T d r₀.parent rs₀ todo ∧ rest = T.tree.forest (k + 1) c.name (i + 1) ++ todo := by
  generalize hp : some p = o at h
  cases h with
  | nil => cases hp
  | @cons r rs k i c todo hc hpc h => exact ⟨r, rs, todo, k, i, c, hc, rfl, (Option.some.inj hp).symm, hpc, h, rfl⟩

theorem run_main (hfile : T.IsFile file) {c : City} (hc : c ∈ T.cities) {k : Nat} {prog : Word} {args : List Word}
    (hargs : args.head?.elim 0 atoi = d + k) (hfits : -2 ^ 31 ≤ 4 * (d + k) ∧ 4 * (d + k) < 2 ^ 31) (pid : Nat) :
    (Pc.main (prog :: c.name :: args)).run file pid =
      some (.loop c.node (d + k) 0, [line (4 * (d + k)) c.name pid]) := by
  rw [Int.mul_comm] at hfits ⊢
  rw [Pc.run, T.start_city hfile hc hargs hfits pid]
  rfl

theorem run_child (file : List Char) {c : City} (hc : c ∈ T.cities) {w : Word} {k i : Nat} (hw : c.children[i]? = some w)
    (hfits : -2 ^ 31 ≤ 4 * (d + (k + 1 : Nat)) ∧ 4 * (d + (k + 1 : Nat)) < 2 ^ 31) (pid : Nat) :
    (Pc.child c.node (d + k) i).run file pid =
      some (.main ["./proctree".toList, w, decimal (d + (k + 1 : Nat))], []) ∧
      (∃ c' ∈ T.cities, c'.name = w) ∧ atoi (decimal (d + (k + 1 : Nat))) = d + (k + 1 : Nat) := by
  obtain ⟨hi, hget⟩ := List.getElem?_eq_some_iff.1 hw
  have hchild : (c.node.children[i]?).join = some w := by
    rw [City.node, List.getElem?_append_left (by rwa [List.length_map]), List.getElem?_map, hw]
    rfl
  have hsucc : asInt (d + k + 1) = some (d + (k + 1 : Nat)) := by
    rw [asInt_eq (by omega) (by omega)]
    push_cast
    rw [Int.add_assoc]
  refine ⟨?_, T.closed c hc w (by rw [← hget]; exact List.getElem_mem hi), atoi_decimal_end (by omega) (by omega)⟩
  rw [Pc.run, hchild, Option.bind_some, hsucc, Option.map_some]

/-- Only the last process can move, or its parent when it has exited. -/
theorem Stack.move {m : Move} (hs : s.procs = r :: rs) (hdoing : Doing T d r.pc todo) (hwaiting : Waiting T d r.parent rs rest)
    (h : s.step file m = some s') :
    m = .run r.pid ∨ (∃ q, m = .fork r.pid q) ∨
      ∃ r₀ rs₀, rs = r₀ :: rs₀ ∧ r.parent = some r₀.pid ∧ r.pc.hasExited = true ∧ m = .reap r₀.pid r.pid := by
  have hfind : ∀ p q, s.find p = some q → q.pid = p ∧ (q = r ∨ q ∈ rs) := by
    intro p q hq
    refine ⟨by simpa using List.find?_some hq, ?_⟩
    have hmem := List.mem_of_find?_eq_some hq
    rw [hs] at hmem
    exact List.mem_cons.1 hmem
  cases m with
  | run p =>
    simp only [Sys.step, Option.bind_eq_some_iff, Option.map_eq_some_iff] at h
    obtain ⟨q, hq, x, hx, -⟩ := h
    obtain ⟨rfl, rfl | hmem⟩ := hfind p q hq
    · exact .inl rfl
    · obtain ⟨root, indentation, i, hpc⟩ := hwaiting.pc hmem
      rw [hpc] at hx
      cases hx
  | fork p q' =>
    simp only [Sys.step, Option.bind_eq_some_iff] at h
    obtain ⟨q, hq, x, hx, -⟩ := h
    obtain ⟨rfl, rfl | hmem⟩ := hfind p q hq
    · exact .inr (.inl ⟨q', rfl⟩)
    · obtain ⟨root, indentation, i, hpc⟩ := hwaiting.pc hmem
      rw [hpc] at hx
      cases hx
  | reap p z' =>
    simp only [Sys.step, Option.bind_eq_some_iff, Option.ite_none_right_eq_some] at h
    obtain ⟨q, hq, pc, hpc, z, hz, ⟨hparent, hexited⟩, -⟩ := h
    obtain ⟨rfl, rfl | hmem⟩ := hfind p q hq
    · rw [hdoing.waited] at hpc
      cases hpc
    · obtain ⟨rfl, rfl | hzmem⟩ := hfind z' z hz
      · rw [hparent] at hwaiting
        obtain ⟨r₀, rs₀, -, -, -, -, -, hrs, hpid, -⟩ := hwaiting.head
        refine .inr (.inr ⟨r₀, rs₀, hrs, by rw [hpid, hparent], hexited, by rw [hpid]⟩)
      · obtain ⟨root, indentation, i, hwait⟩ := hwaiting.pc hzmem
        rw [hwait] at hexited
        cases hexited
  | noChild p =>
    simp only [Sys.step, Option.bind_eq_some_iff, Option.ite_none_right_eq_some] at h
    obtain ⟨q, hq, pc, hpc, hnone, -⟩ := h
    obtain ⟨rfl, rfl | hmem⟩ := hfind p q hq
    · rw [hdoing.waited] at hpc
      cases hpc
    · rcases hwaiting.parent hmem with hparent | ⟨z, hz, hparent⟩
      · exact absurd hparent (hnone r (by rw [hs]; exact List.mem_cons_self))
      · exact absurd hparent (hnone z (by rw [hs]; exact List.mem_cons_of_mem r hz))

end

/-! ## A run -/

/-- The line of a city at a depth. -/
def Prints (d : Int) (x : Nat × Word) (text : List Char) : Prop := ∃ pid, text = line (4 * (d + x.1)) x.2 pid

/-- Where the last process is counts for so many moves, besides those for the cities and for the processes. -/
def Pc.left : Pc → Nat
  | main _ | wait _ _ _ => 0
  | child _ _ _ => 1
  | exited _ => 3
  | loop _ _ _ => 4

/-- The moves that are left: five for a city, which `fork`, `execlp`, `printf`, `exit` and `wait` make up. -/
def movesLeft (procs : List Proc) (todo : List (Nat × Word)) : Nat :=
  5 * todo.length + 2 * procs.length + procs.head?.elim 0 fun r => r.pc.left

theorem Stack.five_le {T : Treeinfo} {d : Int} {procs : List Proc} {todo : List (Nat × Word)} (h : Stack T d procs todo) :
    5 ≤ movesLeft procs todo := by
  cases h with
  | @mk r rs todo rest hdoing hwaiting =>
    generalize hr : r.pc = pc at hdoing
    rw [movesLeft, List.head?_cons, Option.elim_some, hr, List.length_append, List.length_cons]
    cases hdoing with
    | main | child =>
      rw [T.tree.preorder_eq, List.length_cons]
      omega
    | loop | exited =>
      simp only [Pc.left]
      omega

/-- Behind `moves` moves. -/
structure Progress (T : Treeinfo) (d : Int) (all : List (Nat × Word)) (moves : Nat) (s : Sys) : Prop where
  nodup : (s.procs.map Proc.pid).Nodup
  printed : ∃ done todo, all = done ++ todo ∧ List.Forall₂ (Prints d) done s.out ∧ Stack T d s.procs todo ∧
    moves + movesLeft s.procs todo = 5 * all.length + 2

namespace Progress

variable {T : Treeinfo} {d : Int} {all : List (Nat × Word)} {moves : Nat} {file : List Char} {s s' : Sys}
  {r : Proc} {rs : List Proc}

theorem init {c : City} (hc : c ∈ T.cities) {prog : Word} {args : List Word} (hd : args.head?.elim 0 atoi = d) (pid : Nat) :
    Progress T d (T.tree.preorder 0 c.name) 0 (.init pid (prog :: c.name :: args)) := by
  refine ⟨by simp [Sys.init], [], T.tree.preorder 0 c.name, rfl, .nil, ?_, ?_⟩
  · rw [← List.append_nil (T.tree.preorder 0 c.name)]
    exact .mk (.main hc (by simpa using hd)) .nil
  · simp [movesLeft, Sys.init, Pc.left]

/-- The last process goes on. -/
theorem run (P : Progress T d all moves s) (hs : s.procs = r :: rs) (hfile : T.IsFile file)
    (hfits : ∀ x ∈ all, -2 ^ 31 ≤ 4 * (d + x.1) ∧ 4 * (d + x.1) < 2 ^ 31) (h : s.step file (.run r.pid) = some s') :
    Progress T d all (moves + 1) s' := by
  obtain ⟨done, todo, hall, hout, hstack, hmoves⟩ := P.printed
  have hn := P.nodup
  rw [Sys.step_run hs hn, Option.map_eq_some_iff] at h
  obtain ⟨⟨pc, texts⟩, hpc, rfl⟩ := h
  rw [hs] at hstack hmoves hn
  cases hstack with
  | @mk _ _ todo rest hdoing hwaiting =>
  generalize hr : r.pc = pc₀ at hdoing
  rw [hr] at hpc
  simp only [movesLeft, List.head?_cons, Option.elim_some, hr] at hmoves
  refine ⟨hn, ?_⟩
  cases hdoing with
  | @main k c prog args hc hargs =>
    have hk := hfits (k, c.name) (by rw [hall, T.tree.preorder_eq]; simp)
    rw [run_main hfile hc hargs hk r.pid] at hpc
    cases hpc
    refine ⟨done ++ [(k, c.name)], T.tree.forest (k + 1) c.name 0 ++ rest, ?_, ?_, .mk (.loop hc) hwaiting, ?_⟩
    · rw [hall, T.tree.preorder_eq]
      simp
    · exact List.rel_append hout (.cons ⟨r.pid, rfl⟩ .nil)
    · rw [T.tree.preorder_eq] at hmoves
      simp only [movesLeft, List.head?_cons, Option.elim_some, Pc.left, List.length_append, List.length_cons] at hmoves ⊢
      omega
  | @loop k i c hc =>
    rw [Pc.run] at hpc
    split_ifs at hpc with hi
    cases hpc
    have hend : T.tree.forest (k + 1) c.name i = [] := by
      apply Unfold.forest_end
      rw [Treeinfo.children_name hc]
      exact Int.ofNat_le.1 (Int.not_lt.1 hi)
    rw [hend] at hall hmoves
    refine ⟨done, [] ++ rest, hall, by rwa [List.append_nil], .mk .exited hwaiting, ?_⟩
    simp only [movesLeft, List.head?_cons, Option.elim_some, Pc.left, List.nil_append, List.length_cons] at hmoves ⊢
    omega
  | @child k i c w hc hw =>
    have hk := hfits (k + 1, w) (by rw [hall, T.tree.preorder_eq]; simp)
    obtain ⟨hrun, ⟨c', hc', rfl⟩, hread⟩ := run_child file hc hw hk r.pid
    rw [hrun] at hpc
    cases hpc
    refine ⟨done, _, hall, by rwa [List.append_nil], .mk (.main hc' hread) hwaiting, ?_⟩
    simp only [movesLeft, List.head?_cons, Option.elim_some, Pc.left, List.length_append, List.length_cons] at hmoves ⊢
    omega
  | exited => cases hpc

/-- The last process forks the next child, and waits for it from now on. -/
theorem fork (P : Progress T d all moves s) (hs : s.procs = r :: rs) {q : Nat} (h : s.step file (.fork r.pid q) = some s') :
    Progress T d all (moves + 1) s' := by
  obtain ⟨done, todo, hall, hout, hstack, hmoves⟩ := P.printed
  have hn := P.nodup
  rw [Sys.step_fork hs hn, Option.bind_eq_some_iff] at h
  obtain ⟨⟨pc, child⟩, hpc, h⟩ := h
  obtain ⟨hfresh, h⟩ := Option.ite_none_right_eq_some.1 h
  cases h
  have hq : q ∉ s.procs.map Proc.pid := by
    intro hq
    obtain ⟨z, hz, rfl⟩ := List.mem_map.1 hq
    rw [Sys.find, List.find?_eq_none] at hfresh
    exact hfresh z hz (by simp)
  rw [hs] at hstack hmoves hn hq
  cases hstack with
  | @mk _ _ todo rest hdoing hwaiting =>
  generalize hr : r.pc = pc₀ at hdoing
  rw [hr] at hpc
  simp only [movesLeft, List.head?_cons, Option.elim_some, hr] at hmoves
  refine ⟨List.nodup_cons.2 ⟨hq, hn⟩, ?_⟩
  cases hdoing with
  | @loop k i c hc =>
    rw [Pc.fork] at hpc
    split_ifs at hpc with hi
    cases hpc
    have hi : i < c.children.length := Int.ofNat_lt.1 hi
    have hw : c.children[i]? = some c.children[i] := List.getElem?_eq_getElem hi
    have hforest : T.tree.forest (k + 1) c.name i =
        T.tree.preorder (k + 1) c.children[i] ++ T.tree.forest (k + 1) c.name (i + 1) := by
      apply Unfold.forest_drop
      rw [Treeinfo.children_name hc, hw]
    rw [hforest] at hall hmoves
    rw [List.append_assoc] at hall hmoves
    have hparent : Waiting T d (some r.pid) ({ r with pc := .wait c.node (d + k) i } :: rs)
        (T.tree.forest (k + 1) c.name (i + 1) ++ rest) :=
      .cons (r := { r with pc := .wait c.node (d + k) i }) hc rfl hwaiting
    refine ⟨done, _, hall, hout, .mk (.child hc hw) hparent, ?_⟩
    simp only [movesLeft, List.head?_cons, Option.elim_some, Pc.left, List.length_append, List.length_cons] at hmoves ⊢
    omega
  | main | child | exited => cases hpc

/-- The last process has exited, and its parent has waited for it. -/
theorem reap (P : Progress T d all moves s) {r₀ : Proc} (hs : s.procs = r :: r₀ :: rs) (hparent : r.parent = some r₀.pid)
    (hexited : r.pc.hasExited = true) (h : s.step file (.reap r₀.pid r.pid) = some s') :
    Progress T d all (moves + 1) s' := by
  obtain ⟨done, todo, hall, hout, hstack, hmoves⟩ := P.printed
  have hn := P.nodup
  rw [Sys.step_reap hs hn hparent hexited, Option.map_eq_some_iff] at h
  obtain ⟨pc, hpc, rfl⟩ := h
  rw [hs] at hstack hmoves hn
  cases hstack with
  | @mk _ _ todo rest hdoing hwaiting =>
  generalize hr : r.pc = pc₀ at hdoing
  rw [hr] at hexited
  simp only [movesLeft, List.head?_cons, Option.elim_some, hr] at hmoves
  refine ⟨(List.nodup_cons.1 hn).2, ?_⟩
  rw [hparent] at hwaiting
  obtain ⟨r₁, rs₁, todo', k, i, c, hc, hrs, -, hwait, hrest, rfl⟩ := hwaiting.head
  cases hrs
  rw [hwait] at hpc
  cases hpc
  cases hdoing with
  | exited =>
    refine ⟨done, T.tree.forest (k + 1) c.name (i + 1) ++ todo', hall, hout, .mk (.loop hc) hrest, ?_⟩
    simp only [movesLeft, List.head?_cons, Option.elim_some, Pc.left, List.nil_append, List.length_append,
      List.length_cons] at hmoves ⊢
    omega
  | main | child | loop => cases hexited

theorem step {m : Move} (P : Progress T d all moves s) (hfile : T.IsFile file)
    (hfits : ∀ x ∈ all, -2 ^ 31 ≤ 4 * (d + x.1) ∧ 4 * (d + x.1) < 2 ^ 31) (h : s.step file m = some s') :
    Progress T d all (moves + 1) s' := by
  obtain ⟨done, todo, -, -, hstack, -⟩ := P.printed
  generalize hs : s.procs = procs at hstack
  cases hstack with
  | @mk r rs todo rest hdoing hwaiting =>
    rcases Stack.move hs hdoing hwaiting h with rfl | ⟨q, rfl⟩ | ⟨r₀, rs₀, rfl, hparent, hexited, rfl⟩
    · exact P.run hs hfile hfits h
    · exact P.fork hs h
    · exact P.reap hs hparent hexited h

/-- When no move is possible the first process is the last one, and has exited. -/
theorem stuck (P : Progress T d all moves s) (hfile : T.IsFile file)
    (hfits : ∀ x ∈ all, -2 ^ 31 ≤ 4 * (d + x.1) ∧ 4 * (d + x.1) < 2 ^ 31) (h : ∀ m, s.step file m = none) :
    List.Forall₂ (Prints d) all s.out ∧ ∃ r, s.procs = [r] ∧ r.pc = .exited 0 := by
  obtain ⟨done, todo, hall, hout, hstack, -⟩ := P.printed
  have hn := P.nodup
  generalize hs : s.procs = procs at hstack
  cases hstack with
  | @mk r rs todo rest hdoing hwaiting =>
  have hrun : r.pc.run file r.pid = none := by
    have hm := h (.run r.pid)
    rwa [Sys.step_run hs hn, Option.map_eq_none_iff] at hm
  have hfork : r.pc.fork = none := by
    obtain ⟨q, hq⟩ := Infinite.exists_notMem_finset (s.procs.map Proc.pid).toFinset
    have hfresh : s.find q = none := by
      refine List.find?_eq_none.2 fun z hz => ?_
      rintro hpid
      exact hq (List.mem_toFinset.2 (List.mem_map.2 ⟨z, hz, of_decide_eq_true hpid⟩))
    have hm := h (.fork r.pid q)
    rw [Sys.step_fork hs hn, Option.bind_eq_none_iff] at hm
    cases hx : r.pc.fork with
    | none => rfl
    | some x => exact absurd (hm x hx) (by simp [hfresh])
  generalize hr : r.pc = pc at hdoing
  rw [hr] at hrun hfork
  cases hdoing with
  | @main k c prog args hc hargs =>
    have hk := hfits (k, c.name) (by rw [hall, T.tree.preorder_eq]; simp)
    rw [run_main hfile hc hargs hk r.pid] at hrun
    cases hrun
  | @loop k i c hc =>
    rw [Pc.run] at hrun
    rw [Pc.fork] at hfork
    split_ifs at hrun hfork
  | @child k i c w hc hw =>
    have hk := hfits (k + 1, w) (by rw [hall, T.tree.preorder_eq]; simp)
    rw [(run_child file hc hw hk r.pid).1] at hrun
    cases hrun
  | exited =>
    cases hparent : r.parent with
    | none =>
      rw [hparent] at hwaiting
      cases hwaiting with
      | nil => exact ⟨by simpa [hall] using hout, r, rfl, hr⟩
    | some p =>
      rw [hparent] at hwaiting
      obtain ⟨r₀, rs₀, todo', k, i, c, -, rfl, rfl, hwait, -⟩ := hwaiting.head
      have hm := h (.reap r₀.pid r.pid)
      rw [Sys.step_reap hs hn hparent (by rw [hr]; rfl), hwait] at hm
      cases hm

theorem reach (hfile : T.IsFile file) {c : City} (hc : c ∈ T.cities) {prog : Word} {args : List Word}
    (hd : args.head?.elim 0 atoi = d)
    (hfits : ∀ x ∈ T.tree.preorder 0 c.name, -2 ^ 31 ≤ 4 * (d + x.1) ∧ 4 * (d + x.1) < 2 ^ 31) (pid : Nat)
    {ms : List Move} (h : Trans.run (Sys.step file) (.init pid (prog :: c.name :: args)) ms = some s) :
    Progress T d (T.tree.preorder 0 c.name) ms.length s := by
  apply Trans.run_inv (I := fun ms s => Progress T d (T.tree.preorder 0 c.name) ms.length s) _ _ h
  · exact init hc hd pid
  · intro ms s m s' P hm
    rw [List.length_append, List.length_singleton]
    exact P.step hfile hfits hm

end Progress

/-- **The printed tree is the preorder.** For every well-formed file, every city of it and every indentation: what has
been printed is the beginning of the preorder of the tree unfolded from the city, in lines that are indented by four
times the indentation plus the depth; after at most five moves for each of its cities no move is possible any more, and
then the whole preorder has been printed, and nobody is left but the first process, which has exited. The widths are
to be such that `printf` can pad to them. -/
theorem printed_preorder (T : Treeinfo) {file : List Char} (hfile : T.IsFile file) {w : Word}
    (hw : w ∈ T.cities.map City.name) {prog : Word} {args : List Word} {d : Int} (hd : args.head?.elim 0 atoi = d)
    (hfits : ∀ x ∈ T.tree.preorder 0 w, (4 * (d + x.1)).natAbs + 256 < 2 ^ 31) (pid : Nat) {ms : List Move} {s : Sys}
    (h : Trans.run (Sys.step file) (.init pid (prog :: w :: args)) ms = some s) :
    (∃ done todo, T.tree.preorder 0 w = done ++ todo ∧ List.Forall₂ (Prints d) done s.out) ∧
    ms.length + 3 ≤ 5 * (T.tree.preorder 0 w).length ∧
    ((∀ m, s.step file m = none) →
      List.Forall₂ (Prints d) (T.tree.preorder 0 w) s.out ∧ ∃ r, s.procs = [r] ∧ r.pc = .exited 0) := by
  obtain ⟨c, hc, rfl⟩ := List.mem_map.1 hw
  have hint : ∀ x ∈ T.tree.preorder 0 c.name, -2 ^ 31 ≤ 4 * (d + x.1) ∧ 4 * (d + x.1) < 2 ^ 31 := by
    intro x hx
    have hfit := hfits x hx
    omega
  have P := Progress.reach hfile hc hd hint pid h
  obtain ⟨done, todo, hall, hout, hstack, hmoves⟩ := P.printed
  have hleft := hstack.five_le
  exact ⟨⟨done, todo, hall, hout⟩, by omega, P.stuck hfile hint⟩

/-- `A 1 B`, `B 0`. -/
def twoCities : Treeinfo where
  cities := [⟨['A'], [['B']]⟩, ⟨['B'], []⟩]
  few := by decide
  names := by
    intro c hc
    have hname : c.name = ['A'] ∨ c.name = ['B'] := by
      rcases List.mem_cons.1 hc with rfl | hc
      · exact .inl rfl
      · exact .inr (by rw [List.mem_singleton.1 hc])
    rcases hname with h | h
    · rw [h]
      exact .letter rfl (by decide) rfl
    · rw [h]
      exact .letter rfl (by decide) rfl
  narrow := by decide
  unique := by decide
  closed := by decide
  acyclic := by
    intro w hw
    have hstep : ∀ v w, v ∈ childrenOf [⟨['A'], [['B']]⟩, ⟨['B'], []⟩] w → w = ['A'] ∧ v = ['B'] := by
      intro v w hv
      by_cases hA : w = ['A']
      · subst hA
        exact ⟨rfl, List.mem_singleton.1 hv⟩
      · by_cases hB : w = ['B']
        · subst hB
          cases hv
        · simp [childrenOf, Ne.symm hA, Ne.symm hB] at hv
    have hends : w = ['B'] ∧ w = ['A'] := by
      refine ⟨?_, ?_⟩
      · obtain ⟨v, hv, -⟩ := Relation.TransGen.head'_iff.1 hw
        exact (hstep w v hv).2
      · obtain ⟨v, -, hv⟩ := Relation.TransGen.tail'_iff.1 hw
        exact (hstep v w hv).1
    exact absurd (hends.1.symm.trans hends.2) (by decide)

theorem twoCities_preorder : twoCities.tree.preorder 0 ['A'] = [(0, ['A']), (1, ['B'])] := by
  have hA : twoCities.tree.children ['A'] = [['B']] := rfl
  have hB : twoCities.tree.children ['B'] = [] := rfl
  simp [Unfold.preorder_eq, Unfold.forest, hA, hB]

def twoCitiesFile : List Char := ['A', ' ', '1', ' ', 'B', '\n', 'B', ' ', '0', '\n']

/-- The whole run for the two cities, called with indentation 1. -/
theorem printed_preorder_two :
    ∃ s, Trans.run (Sys.step twoCitiesFile) (.init 10 [[], ['A'], ['1']])
        [.run 10, .fork 10 11, .run 11, .run 11, .run 11, .reap 10 11, .run 10] = some s ∧
      s.out = [line 4 ['A'] 10, line 8 ['B'] 11] ∧ List.Forall₂ (Prints 1) [(0, ['A']), (1, ['B'])] s.out := by
  have hfile : twoCities.IsFile twoCitiesFile := by
    rw [Treeinfo.IsFile]
    decide
  have hrun : Trans.run (Sys.step twoCitiesFile) (.init 10 [[], ['A'], ['1']])
      [.run 10, .fork 10 11, .run 11, .run 11, .run 11, .reap 10 11, .run 10] =
        some ⟨[⟨10, none, .exited 0⟩], [line 4 ['A'] 10, line 8 ['B'] 11]⟩ := by decide
  have hstuck : ∀ m, Sys.step twoCitiesFile ⟨[⟨10, none, .exited 0⟩], [line 4 ['A'] 10, line 8 ['B'] 11]⟩ m = none := by
    intro m
    cases m with
    | run p | fork p q | reap p q | noChild p =>
      by_cases hp : 10 = p
      · subst hp
        rfl
      · simp [Sys.step, Sys.find, hp]
  have hfits : ∀ x ∈ twoCities.tree.preorder 0 ['A'], (4 * ((1 : Int) + x.1)).natAbs + 256 < 2 ^ 31 := by
    rw [twoCities_preorder]
    decide
  have hall := ((printed_preorder twoCities hfile (by decide) (by decide) hfits 10 hrun).2.2 hstuck).1
  rw [twoCities_preorder] at hall
  exact ⟨_, hrun, rfl, hall⟩

end OsLab.A1
