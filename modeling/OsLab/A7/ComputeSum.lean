import OsLab.A7.Barrier
import OsLab.Lib.ParentTree

/-!
# The tree sum (A7/computesum.c)

| here | there |
| --- | --- |
| `TreeFile`                  | the first `n` entries of `P` and `num_children`, and `root_node` (:7-10) |
| `clear`, `readTree`         | the loops that set them up and read `tree.txt` (:56-64) |
| `SumState.csmtx`, `.barrier`, `.sum` | the globals of the same names (:9-12) |
| `NodePc`, `SumState.step`   | the statements of `node` (:14) |
| `Line`, `SumState.out`      | what the `printf`s print, latest line first |

The threads run under any schedule; a step of a thread inside a mutex or barrier call is a step of
that call. `sum[i] += sum[j]` is a load and a store. The leaf inputs are `input`, of any type with an
addition (`ℤ`, or `BitVec 32` for sums that wrap).

The arrays have `entries` entries, whatever `n` is read: with more nodes the stores of `main` leave them (:56), for which `clear`
is `none`. What comes after uses entries below `n` only, so it stays inside when there is a `TreeFile`.

`barrier[i]` has `num_children[i] + 1` users, the node and its children, and node `i` calls it before
it adds: its first round is all that is used of it, and the root's second call on `barrier[root]`
comes after that round.
-/

namespace OsLab.A7

open Function (update)

/-- Of `P`, `num_children`, `sum` and `barrier` (:7-12). -/
def entries : Nat := 100

structure TreeFile (n : Nat) where
  P : Fin n → Option (Fin n)
  numChildren : Fin n → Nat
  rootNode : Nat
  fits : n ≤ entries

/-- The body of the loop over the lines `a b` (:60-63). -/
def TreeFile.readLine {n : Nat} (tr : TreeFile n) (l : Fin n × Fin n) : TreeFile n :=
  if l.1 = l.2 then { tr with P := update tr.P l.1 (some l.2), rootNode := l.1 }
  else { tr with
    P := update tr.P l.1 (some l.2)
    numChildren := update tr.numChildren l.2 (tr.numChildren l.2 + 1) }

/-- The loop at :56 stores to the entries `i < n` of `num_children`, `sum` and `P`: `none` when they are not all there.
`P[i] = -1` for a node without a line, `root_node` is a zeroed global. -/
def clear (n : Nat) : Option (TreeFile n) :=
  if h : n ≤ entries then some { P := fun _ => none, numChildren := fun _ => 0, rootNode := 0, fits := h } else none

def readTree {n : Nat} (lines : List (Fin n × Fin n)) : Option (TreeFile n) :=
  (clear n).map fun tr => lines.foldl TreeFile.readLine tr

/-- The statement a thread is about to execute in `node`. -/
inductive NodePc (M : Type)
  | callOwn | inOwn
  | callLock | inLock
  | scan
  | load (j : Nat) | store (j : Nat) (v : M)
  | printPartial | printRoot
  | callUnlock | inUnlock
  | callParent | inParent
  | done

inductive Line (n : Nat) (M : Type)
  /-- "Leaf node i :: Enter a positive integer: " -/
  | prompt (i : Fin n)
  /-- "Internal node i gets the partial sum v from its children" -/
  | partialSum (i : Fin n) (v : M)
  /-- "Sum at root (node i) = v" -/
  | rootSum (i : Fin n) (v : M)
deriving DecidableEq

structure SumState (n : Nat) (M : Type) where
  csmtx : Mutex (Fin n)
  barrier : Fin n → Barrier (Fin n)
  sum : Fin n → M
  pc : Fin n → NodePc M
  out : List (Line n M)

namespace SumState

variable {n : Nat} {M : Type}

/-- The state when the threads are created (:56, :70-75). -/
def init [Zero M] (tr : TreeFile n) : SumState n M where
  csmtx := Mutex.init
  barrier i := Barrier.init (tr.numChildren i + 1)
  sum _ := 0
  pc _ := .callOwn
  out := []

def goto (s : SumState n M) (i : Fin n) (p : NodePc M) : SumState n M := { s with pc := update s.pc i p }

def setBarrier (s : SumState n M) (q : Fin n) (b : Barrier (Fin n)) : SumState n M :=
  { s with barrier := update s.barrier q b }

variable [Add M] (T : Threads (Fin n)) (tr : TreeFile n) (input : Fin n → M)

/-- One atomic step of `node(i)` (:14). -/
def step (s : SumState n M) (i : Fin n) : Option (SumState n M) :=
  match s.pc i with
  | .callOwn => ((s.barrier i).step T (.wait i)).map fun b => (s.setBarrier i b).goto i .inOwn
  | .inOwn => ((s.barrier i).step T (.step i)).map fun b =>
      (s.setBarrier i b).goto i (if b.pc i = none then .callLock else .inOwn)
  | .callLock => (s.csmtx.step T (.lock i)).map fun m => { s with csmtx := m }.goto i .inLock
  | .inLock => (s.csmtx.step T (.step i)).map fun m =>
      { s with csmtx := m }.goto i
        (if m.pc i ≠ none then .inLock else if tr.numChildren i = 0 then .scan else .load 0)
  | .scan => some ({ s with sum := update s.sum i (input i), out := .prompt i :: s.out }.goto i .callUnlock)
  | .load j =>
    if h : j < n then
      if tr.P ⟨j, h⟩ = some i ∧ i.val ≠ j then some (s.goto i (.store j (s.sum i + s.sum ⟨j, h⟩)))
      else some (s.goto i (.load (j + 1)))
    else some (s.goto i .printPartial)
  | .store j v => some ({ s with sum := update s.sum i v }.goto i (.load (j + 1)))
  | .printPartial => some ({ s with out := .partialSum i (s.sum i) :: s.out }.goto i
      (if i.val = tr.rootNode then .printRoot else .callUnlock))
  | .printRoot => some ({ s with out := .rootSum i (s.sum i) :: s.out }.goto i .callUnlock)
  | .callUnlock => (s.csmtx.step T (.unlock i)).map fun m => { s with csmtx := m }.goto i .inUnlock
  | .inUnlock => (s.csmtx.step T (.step i)).map fun m =>
      { s with csmtx := m }.goto i (if m.pc i = none then .callParent else .inUnlock)
  | .callParent => (tr.P i).bind fun p => ((s.barrier p).step T (.wait i)).map fun b =>
      (s.setBarrier p b).goto i .inParent
  | .inParent => (tr.P i).bind fun p => ((s.barrier p).step T (.step i)).map fun b =>
      (s.setBarrier p b).goto i (if b.pc i = none then .done else .inParent)
  | .done => none

omit [Add M] in
theorem goto_pc_same (s : SumState n M) (i : Fin n) (p) : (s.goto i p).pc i = p := by
  simp [goto]

/-- What a step can do: a barrier call goes on, a call on `csmtx` goes on, or the thread works on its
own `sum`. -/
inductive Move (s : SumState n M) (i : Fin n) : SumState n M → Prop
  | callOwn (b) : s.pc i = .callOwn → (s.barrier i).step T (.wait i) = some b →
      Move s i ((s.setBarrier i b).goto i .inOwn)
  | inOwn (b) : s.pc i = .inOwn → (s.barrier i).step T (.step i) = some b →
      Move s i ((s.setBarrier i b).goto i .inOwn)
  | leaveOwn (b) : s.pc i = .inOwn → (s.barrier i).step T (.step i) = some b → b.pc i = none →
      Move s i ((s.setBarrier i b).goto i .callLock)
  | lock (m) : s.pc i = .callLock ∨ s.pc i = .inLock → Move s i ({ s with csmtx := m }.goto i .inLock)
  | leaf (m) : s.pc i = .inLock → tr.numChildren i = 0 → Move s i ({ s with csmtx := m }.goto i .scan)
  | internal (m) : s.pc i = .inLock → tr.numChildren i ≠ 0 → Move s i ({ s with csmtx := m }.goto i (.load 0))
  | scan : s.pc i = .scan →
      Move s i ({ s with sum := update s.sum i (input i), out := .prompt i :: s.out }.goto i .callUnlock)
  | add (j : Fin n) : s.pc i = .load j → tr.P j = some i → i ≠ j →
      Move s i (s.goto i (.store j (s.sum i + s.sum j)))
  | skip (j : Fin n) : s.pc i = .load j → ¬ (tr.P j = some i ∧ i ≠ j) → Move s i (s.goto i (.load (j + 1)))
  | added (j) : s.pc i = .load j → n ≤ j → Move s i (s.goto i .printPartial)
  | store (j v) : s.pc i = .store j v → Move s i ({ s with sum := update s.sum i v }.goto i (.load (j + 1)))
  | printPartial (p) : s.pc i = .printPartial → p = .printRoot ∧ i.val = tr.rootNode ∨ p = .callUnlock →
      Move s i ({ s with out := .partialSum i (s.sum i) :: s.out }.goto i p)
  | printRoot : s.pc i = .printRoot →
      Move s i ({ s with out := .rootSum i (s.sum i) :: s.out }.goto i .callUnlock)
  | unlock (m p) : s.pc i = .callUnlock ∨ s.pc i = .inUnlock → p = .inUnlock ∨ p = .callParent →
      Move s i ({ s with csmtx := m }.goto i p)
  | callParent (q b) : s.pc i = .callParent → tr.P i = some q → (s.barrier q).step T (.wait i) = some b →
      Move s i ((s.setBarrier q b).goto i .inParent)
  | inParent (q b p) : s.pc i = .inParent → tr.P i = some q → (s.barrier q).step T (.step i) = some b →
      p = .inParent ∨ p = .done → Move s i ((s.setBarrier q b).goto i p)

theorem move_of_step {s s' : SumState n M} {i : Fin n} (h : s.step T tr input i = some s') :
    Move T tr input s i s' := by
  cases hpc : s.pc i <;> simp only [step, hpc] at h
  case callOwn =>
    obtain ⟨b, hb, rfl⟩ := Option.map_eq_some_iff.1 h
    exact .callOwn b hpc hb
  case inOwn =>
    obtain ⟨b, hb, rfl⟩ := Option.map_eq_some_iff.1 h
    split
    · exact .leaveOwn b hpc hb (by assumption)
    · exact .inOwn b hpc hb
  case callLock =>
    obtain ⟨m, -, rfl⟩ := Option.map_eq_some_iff.1 h
    exact .lock m (.inl hpc)
  case inLock =>
    obtain ⟨m, -, rfl⟩ := Option.map_eq_some_iff.1 h
    split
    · exact .lock m (.inr hpc)
    · split
      · exact .leaf m hpc (by assumption)
      · exact .internal m hpc (by assumption)
  case scan => cases h; exact .scan hpc
  case load j =>
    split at h
    · rename_i hj
      have hne : i.val ≠ j ↔ i ≠ ⟨j, hj⟩ := by rw [Ne, Ne, Fin.ext_iff]
      split at h <;> rename_i hc <;> cases h
      · exact .add ⟨j, hj⟩ hpc hc.1 (hne.1 hc.2)
      · exact .skip ⟨j, hj⟩ hpc (by rwa [← hne])
    · cases h; exact .added j hpc (by omega)
  case store j v => cases h; exact .store j v hpc
  case printPartial =>
    cases h
    split
    · exact .printPartial _ hpc (.inl ⟨rfl, by assumption⟩)
    · exact .printPartial _ hpc (.inr rfl)
  case printRoot => cases h; exact .printRoot hpc
  case callUnlock =>
    obtain ⟨m, -, rfl⟩ := Option.map_eq_some_iff.1 h
    exact .unlock m _ (.inl hpc) (.inl rfl)
  case inUnlock =>
    obtain ⟨m, -, rfl⟩ := Option.map_eq_some_iff.1 h
    split
    · exact .unlock m _ (.inr hpc) (.inr rfl)
    · exact .unlock m _ (.inr hpc) (.inl rfl)
  case callParent =>
    obtain ⟨q, hq, h⟩ := Option.bind_eq_some_iff.1 h
    obtain ⟨b, hb, rfl⟩ := Option.map_eq_some_iff.1 h
    exact .callParent q b hpc hq hb
  case inParent =>
    obtain ⟨q, hq, h⟩ := Option.bind_eq_some_iff.1 h
    obtain ⟨b, hb, rfl⟩ := Option.map_eq_some_iff.1 h
    split
    · exact .inParent q b _ hpc hq hb (.inr rfl)
    · exact .inParent q b _ hpc hq hb (.inl rfl)
  case done => cases h

end SumState

/-! ## The file describes the tree -/

/-- What `main` has read is the tree `t`. -/
structure Describes {n : Nat} (t : ParentTree (Fin n)) (tr : TreeFile n) : Prop where
  P : ∀ a, tr.P a = some (t.parent a)
  numChildren : ∀ b, tr.numChildren b = (t.children b).card
  rootNode : tr.rootNode = t.root.val

namespace TreeFile

variable {n : Nat} {t : ParentTree (Fin n)}

theorem readLine_P (tr : TreeFile n) (l : Fin n × Fin n) : (tr.readLine l).P = update tr.P l.1 (some l.2) := by
  unfold readLine
  split <;> rfl

theorem readLine_numChildren (tr : TreeFile n) (l : Fin n × Fin n) (b : Fin n) :
    (tr.readLine l).numChildren b = tr.numChildren b + if l.1 ≠ l.2 ∧ l.2 = b then 1 else 0 := by
  unfold readLine
  split
  · rename_i h; simp [h]
  · rename_i h
    by_cases hb : l.2 = b
    · subst hb; simp [h]
    · rw [if_neg (fun hc => hb hc.2)]
      exact Function.update_of_ne (fun e => hb e.symm) _ _

theorem foldl_P (lines : List (Fin n × Fin n)) (tr : TreeFile n) (h : ∀ l ∈ lines, l.2 = t.parent l.1) (a : Fin n) :
    (lines.foldl readLine tr).P a = if a ∈ lines.map Prod.fst then some (t.parent a) else tr.P a := by
  induction lines generalizing tr with
  | nil => simp
  | cons l ls ih =>
    rw [List.foldl_cons, ih _ (fun m hm => h m (by simp [hm])), readLine_P, h l (by simp)]
    by_cases ha : a = l.1
    · subst ha; simp
    · simp [ha]

theorem foldl_numChildren (lines : List (Fin n × Fin n)) (tr : TreeFile n) (b : Fin n) :
    (lines.foldl readLine tr).numChildren b =
      tr.numChildren b + lines.countP fun l => l.1 ≠ l.2 ∧ l.2 = b := by
  induction lines generalizing tr with
  | nil => simp
  | cons l ls ih =>
    rw [List.foldl_cons, ih, readLine_numChildren, List.countP_cons]
    simp only [decide_eq_true_eq]
    omega

theorem foldl_rootNode (lines : List (Fin n × Fin n)) (tr : TreeFile n) (h : ∀ l ∈ lines, l.2 = t.parent l.1)
    (h0 : (t.root, t.root) ∈ lines ∨ tr.rootNode = t.root.val) :
    (lines.foldl readLine tr).rootNode = t.root.val := by
  induction lines generalizing tr with
  | nil => simpa using h0
  | cons l ls ih =>
    rw [List.foldl_cons]
    refine ih _ (fun m hm => h m (by simp [hm])) ?_
    have hl := h l (by simp)
    unfold readLine
    split
    · -- only the root's line has its node as parent
      rename_i he
      exact .inr (by rw [t.eq_root_of_parent (hl.symm.trans he.symm)])
    · rename_i he
      rcases h0 with h0 | h0
      · rcases List.mem_cons.1 h0 with rfl | h0
        · exact absurd rfl he
        · exact .inl h0
      · exact .inr h0

end TreeFile

/-- Up to `entries` nodes can be read. -/
theorem exists_readTree {n : Nat} (hn : n ≤ entries) (lines : List (Fin n × Fin n)) : ∃ tr, readTree lines = some tr :=
  ⟨_, by rw [readTree, clear, dif_pos hn, Option.map_some]⟩

/-- A file with one line for each node, in any order, is read as its tree. -/
theorem readTree_describes {n : Nat} (t : ParentTree (Fin n)) {lines : List (Fin n × Fin n)} {tr : TreeFile n}
    (h : lines.Perm (List.ofFn fun a => (a, t.parent a))) (htr : readTree lines = some tr) : Describes t tr := by
  obtain ⟨start, hstart, rfl⟩ := Option.map_eq_some_iff.1 htr
  rw [clear] at hstart
  split at hstart
  swap
  · cases hstart
  cases hstart
  have hmem : ∀ l, l ∈ lines ↔ l.2 = t.parent l.1 := fun l => by
    rw [h.mem_iff, List.mem_ofFn]
    constructor
    · rintro ⟨a, rfl⟩; rfl
    · exact fun he => ⟨l.1, by rw [← he]⟩
  refine ⟨fun a => ?_, fun b => ?_, ?_⟩
  · rw [TreeFile.foldl_P lines _ (fun l hl => (hmem l).1 hl), if_pos]
    exact List.mem_map.2 ⟨(a, t.parent a), (hmem _).2 rfl, rfl⟩
  · rw [TreeFile.foldl_numChildren, h.countP_eq, List.ofFn_eq_map, List.countP_map, Nat.zero_add,
      List.countP_eq_length_filter]
    have hset : t.children b = ((List.finRange n).filter
        ((fun l : Fin n × Fin n => decide (l.1 ≠ l.2 ∧ l.2 = b)) ∘ fun a => (a, t.parent a))).toFinset := by
      ext a
      simp only [ParentTree.mem_children, List.mem_toFinset, List.mem_filter, List.mem_finRange, true_and,
        Function.comp_apply, decide_eq_true_eq]
      constructor
      · rintro ⟨rfl, hne⟩; exact ⟨hne, rfl⟩
      · rintro ⟨hne, rfl⟩; exact ⟨rfl, hne⟩
    rw [hset, List.toFinset_card_of_nodup ((List.nodup_finRange n).filter _)]
  · exact TreeFile.foldl_rootNode lines _ (fun l hl => (hmem l).1 hl)
      (.inl ((hmem _).2 t.parent_root.symm))

end OsLab.A7
