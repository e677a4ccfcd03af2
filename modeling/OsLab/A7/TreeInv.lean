import Mathlib.Data.Fintype.BigOperators
import Mathlib.Data.Fintype.Fin
import OsLab.A7.ExitCount
import OsLab.A7.TreeRun

/-!
# The invariant of the tree program (A7/computesum.c)

A barrier is used once by its node and once by each child, which is its size. Only the root calls its own
barrier twice (`P[root] = root`).

`RunInv` says that every barrier is sound for the calls that the nodes make on it, that a node past its own barrier has
met its children there, and that `foothread_create` and `foothread_exit` keep to `ExitOk`: the comparison in
`foothread_exit` comes out equal only when `main` has counted all of the threads (`exit_iff`), since the threads of a tree
that is not whole yet cannot all be there.
-/

namespace OsLab.A7

open Function (update)

variable {n : Nat} {M : Type}

/-- Past `count++`. -/
def WaitPc.counted : WaitPc → Nat
  | .lock | .incr => 0
  | .test | .post _ | .unlockTrip | .unlock | .wait => 1

/-- The barriers that the thread has arrived at. -/
def TreePc.arrivals : TreePc M → Nat
  | .unborn => 0
  | .own p => p.counted
  | .lock | .scan | .load _ | .store _ _ | .printPartial | .printRoot | .unlock => 1
  | .parent p => 1 + p.counted
  | .exit _ => 2

def TreePc.pastBarrier : TreePc M → Bool
  | .unborn | .own _ => false
  | _ => true

/-- The call of node `i` on the barrier of node `q`. -/
def onBarrier (t : ParentTree (Fin n)) (q i : Fin n) : TreePc M → Option WaitPc
  | .own p => if i = q then some p else none
  | .parent p => if t.parent i = q then some p else none
  | _ => none

/-- How often node `i` has arrived at the barrier of node `q`. -/
def arrived (t : ParentTree (Fin n)) (q i : Fin n) (x : TreePc M) : Nat :=
  (if i = q then min x.arrivals 1 else 0) + if t.parent i = q then x.arrivals - 1 else 0

/-- The barrier of `q` is sound for the calls that the nodes make. -/
abbrev SoundAt (t : ParentTree (Fin n)) (b : AtomicBarrier (Fin n)) (pc : Fin n → TreePc M) (q : Fin n) : Prop :=
  Sound b (fun i => onBarrier t q i (pc i)) fun i => arrived t q i (pc i)

namespace SoundAt

variable {t : ParentTree (Fin n)} {b b' : AtomicBarrier (Fin n)} {pc : Fin n → TreePc M} {q i : Fin n} {x : TreePc M}
  {c : WaitPc} {c' : Option WaitPc}

theorem onBarrier_update (t : ParentTree (Fin n)) (pc : Fin n → TreePc M) (q i : Fin n) (x : TreePc M) :
    (fun j => onBarrier t q j (update pc i x j)) = update (fun j => onBarrier t q j (pc j)) i (onBarrier t q i x) := by
  funext j
  by_cases hj : j = i
  · subst hj; simp
  · simp [hj]

theorem arrived_update (t : ParentTree (Fin n)) (pc : Fin n → TreePc M) (q i : Fin n) (x : TreePc M) :
    (fun j => arrived t q j (update pc i x j)) = update (fun j => arrived t q j (pc j)) i (arrived t q i x) := by
  funext j
  by_cases hj : j = i
  · subst hj; simp
  · simp [hj]

/-- The node moves elsewhere. -/
theorem keep (S : SoundAt t b pc q) (hcall : onBarrier t q i x = onBarrier t q i (pc i))
    (harr : arrived t q i x = arrived t q i (pc i)) : SoundAt t b (update pc i x) q := by
  rw [SoundAt, onBarrier_update, arrived_update, hcall, harr]
  simpa only [Function.update_eq_self] using S

theorem enter (S : SoundAt t b pc q) (hcall : onBarrier t q i (pc i) = none) (hx : onBarrier t q i x = some .lock)
    (harr : arrived t q i x = arrived t q i (pc i)) : SoundAt t b (update pc i x) q := by
  rw [SoundAt, onBarrier_update, arrived_update, hx, harr]
  simpa only [Function.update_eq_self] using Sound.enter S hcall

theorem exec (S : SoundAt t b pc q) (hcall : onBarrier t q i (pc i) = some c) (h : b.exec i c = some (b', c'))
    (hx : onBarrier t q i x = c') (harr : arrived t q i x = arrived t q i (pc i) + if c = .incr then 1 else 0) :
    SoundAt t b' (update pc i x) q := by
  have hsound := (Sound.exec S hcall h).1
  rw [SoundAt, onBarrier_update, arrived_update, hx, harr]
  split_ifs at hsound ⊢ with hc
  · exact hsound
  · simpa only [Nat.add_zero, Function.update_eq_self] using hsound

end SoundAt

/-- A call is counted at `count++`. -/
theorem exec_counted {b b' : AtomicBarrier (Fin n)} {i : Fin n} {c : WaitPc} {c' : Option WaitPc}
    (h : b.exec i c = some (b', c')) : c'.elim 1 WaitPc.counted = c.counted + if c = .incr then 1 else 0 := by
  cases c with
  | lock =>
    obtain ⟨m, -, he⟩ := Option.map_eq_some_iff.1 h
    cases he
    rfl
  | wait =>
    obtain ⟨v, -, he⟩ := Option.map_eq_some_iff.1 h
    cases he
    rfl
  | test =>
    cases h
    by_cases htrip : b.count = b.tripCount
    · simp [htrip, WaitPc.counted]
    · simp [htrip, WaitPc.counted]
  | post k =>
    rw [AtomicBarrier.exec] at h
    split at h <;> cases h <;> rfl
  | incr | unlockTrip | unlock => cases h; rfl

/-! ## The invariant -/

/-- The call of `foothread_exit` of a node. -/
def TreePc.exitPc : TreePc M → Option ExitPc
  | .exit p => some p
  | _ => none

/-- The call of `foothread_exit` of `main`. -/
def TreeMain.exitPc : TreeMain → Option ExitPc
  | .create _ _ => none
  | .exit p => some p
  | .destroyMutex | .destroyBarrier _ | .returned => some .done

def TreeMain.createPc : TreeMain → Option CreatePc
  | .create _ p => some p
  | _ => none

namespace TreeRun

variable {s s' : TreeRun n M}

/-- The calls of `foothread_exit`, `none` being `main`. -/
def callers (s : TreeRun n M) : Option (Fin n) → Option ExitPc
  | none => s.main.exitPc
  | some i => (s.pc i).exitPc

/-- How many threads `main` has counted and started. -/
def Stage (s : TreeRun n M) : Prop :=
  match s.main with
  | .create k p => k < n ∧ s.sh.numThreads = (if p = .clone ∨ p = .unlock then k + 1 else k) ∧
      ∀ i, s.pc i = .unborn ↔ (if p = .unlock then k + 1 else k) ≤ i.val
  | .exit p => p ≠ .done ∧ s.sh.numThreads = n ∧ ∀ i, s.pc i ≠ .unborn
  | .destroyMutex | .destroyBarrier _ | .returned => s.sh.numThreads = n ∧ ∀ i, s.pc i ≠ .unborn

/-- `main` has removed the semaphore of barrier `q`. -/
def Gone (s : TreeRun n M) (q : Fin n) : Prop :=
  match s.main with
  | .destroyBarrier k => q.val < k
  | .returned => True
  | _ => False

structure RunInv (t : ParentTree (Fin n)) (s : TreeRun n M) : Prop where
  barrier : ∀ q, SoundAt t (s.barrier q) s.pc q
  size : ∀ q, (s.barrier q).tripCount = (t.children q).card + 1
  gone : ∀ q, (s.barrier q).semid = none ↔ s.Gone q
  /-- A node past its own barrier has seen all its children arrive there. -/
  first : ∀ q, (s.barrier q).semid ≠ none → (s.pc q).pastBarrier = true → ∀ c ∈ t.children q, (s.pc c).arrivals = 2
  csmtx : s.csmtx = .removed ∨ ∀ i, (s.pc i).inCS = true ↔ s.csmtx = .held i
  exit : ExitOk s.sh s.main.createPc s.callers n
  stage : s.Stage

namespace RunInv

variable {t : ParentTree (Fin n)} {tr : TreeFile n} {i q : Fin n}

theorem init [Zero M] (D : Describes t tr) : RunInv t (TreeRun.init tr : TreeRun n M) := by
  have hn : 0 < n := Nat.zero_lt_of_lt t.root.isLt
  have hmain : (TreeRun.init tr : TreeRun n M).main = .create 0 .checkMtx := if_pos hn
  have hcallers : (TreeRun.init tr : TreeRun n M).callers = fun _ => none := by
    funext k
    cases k with
    | none => simp [callers, hmain, TreeMain.exitPc]
    | some i => rfl
  refine ⟨fun q => ?_, fun q => ?_, fun q => ?_, fun q _ h => (by cases h), .inr fun i => ?_, ?_, ?_⟩
  · have hcall : (fun i => onBarrier t q i ((TreeRun.init tr : TreeRun n M).pc i)) = fun _ => none := rfl
    have harr : (fun i => arrived t q i ((TreeRun.init tr : TreeRun n M).pc i)) = fun _ => 0 := by
      funext i
      simp [arrived, TreeRun.init, TreePc.arrivals]
    rw [SoundAt, hcall, harr]
    exact Sound.init (Nat.succ_pos _)
  · show tr.numChildren q + 1 = _
    rw [D.numChildren]
  · rw [Gone, hmain]
    exact iff_of_false (by simp [TreeRun.init, AtomicBarrier.init]) id
  · simp [TreeRun.init, TreePc.inCS]
  · rw [hcallers, hmain]
    exact ExitOk.init hn
  · rw [Stage, hmain]
    exact ⟨hn, by simp [TreeRun.init], by simp [TreeRun.init]⟩

/-! ### `first` -/

/-- Who arrives at a barrier: its node, and its children. -/
theorem sum_arrived (pc : Fin n → TreePc M) (q : Fin n) :
    ∑ i, arrived t q i (pc i) = arrived t q q (pc q) + ∑ c ∈ t.children q, ((pc c).arrivals - 1) := by
  have hchild : ∀ c ∈ t.children q, arrived t q c (pc c) = (pc c).arrivals - 1 := by
    intro c hc
    obtain ⟨hp, hne⟩ := t.mem_children.1 hc
    simp [arrived, hp, hne]
  rw [← Finset.sum_subset (Finset.subset_univ (insert q (t.children q))), Finset.sum_insert (by simp),
    Finset.sum_congr rfl hchild]
  intro i _ hi
  rw [Finset.mem_insert, t.mem_children, not_or] at hi
  rw [arrived, if_neg hi.1, if_neg fun h => hi.2 ⟨h, hi.1⟩, Nat.add_zero]

theorem arrivals_le (x : TreePc M) : x.arrivals ≤ 2 := by
  cases x with
  | own p | parent p => cases p <;> simp [TreePc.arrivals, WaitPc.counted]
  | _ => simp [TreePc.arrivals]

theorem sum_children_le (pc : Fin n → TreePc M) (q : Fin n) :
    ∑ c ∈ t.children q, ((pc c).arrivals - 1) ≤ (t.children q).card := by
  rw [Finset.card_eq_sum_ones]
  refine Finset.sum_le_sum fun c _ => ?_
  have := arrivals_le (pc c)
  omega

/-- When the users of a barrier have arrived as often as there are users, without a second call of the node, each of
them has. -/
theorem all_arrived (pc : Fin n → TreePc M) (hown : (pc q).arrivals ≤ 1)
    (hsum : (t.children q).card + 1 ≤ ∑ i, arrived t q i (pc i)) : ∀ c ∈ t.children q, (pc c).arrivals = 2 := by
  have hself : arrived t q q (pc q) ≤ 1 := by
    rw [arrived, if_pos rfl]
    split_ifs <;> omega
  rw [sum_arrived] at hsum
  intro c hc
  by_contra hlt
  have hle := arrivals_le (pc c)
  have hcard : ∑ c ∈ t.children q, ((pc c).arrivals - 1) < ∑ _c ∈ t.children q, 1 := by
    refine Finset.sum_lt_sum (fun j _ => ?_) ⟨c, hc, by omega⟩
    have := arrivals_le (pc j)
    omega
  rw [← Finset.card_eq_sum_ones] at hcard
  omega

/-- A node that has not passed its barrier goes on, or another one does. -/
theorem first_keep (I : RunInv t s) {x : TreePc M} (hsem : (s.barrier q).semid ≠ none)
    (hpast : x.pastBarrier = true → (s.pc i).pastBarrier = true) (hmono : (s.pc i).arrivals ≤ x.arrivals)
    (h : (update s.pc i x q).pastBarrier = true) : ∀ c ∈ t.children q, (update s.pc i x c).arrivals = 2 := by
  have hq : (s.pc q).pastBarrier = true := by
    by_cases hqi : q = i
    · rw [hqi, Function.update_self] at h
      exact hqi ▸ hpast h
    · rwa [Function.update_of_ne hqi] at h
  intro c hc
  have hold := I.first q hsem hq c hc
  by_cases hci : c = i
  · rw [hci, Function.update_self]
    rw [hci] at hold
    have := arrivals_le x
    omega
  · rwa [Function.update_of_ne hci]

/-! ### The steps of a node -/

theorem callers_update {x : TreePc M} (hmain : s'.main = s.main) (hpc : s'.pc = update s.pc i x) :
    s'.callers = update s.callers (some i) x.exitPc := by
  funext k
  cases k with
  | none => simp [callers, hmain]
  | some j =>
    by_cases hj : j = i
    · subst hj; simp [callers, hpc]
    · simp [callers, hpc, hj]

theorem stage_update {x : TreePc M} (hmain : s'.main = s.main) (hpc : s'.pc = update s.pc i x) (hi : s.pc i ≠ .unborn)
    (hx : x ≠ .unborn) (hnum : s'.sh.numThreads = s.sh.numThreads) (h : s.Stage) : s'.Stage := by
  have hunborn : ∀ j, s'.pc j = .unborn ↔ s.pc j = .unborn := by
    intro j
    rw [hpc]
    by_cases hj : j = i
    · subst hj
      rw [Function.update_self]
      exact iff_of_false hx hi
    · rw [Function.update_of_ne hj]
  rw [Stage] at h ⊢
  rw [hmain, hnum]
  split at h
  · refine ⟨h.1, h.2.1, fun j => ?_⟩
    rw [hunborn]
    exact h.2.2 j
  · exact ⟨h.1, h.2.1, fun j hj => h.2.2 j ((hunborn j).1 hj)⟩
  · exact ⟨h.1, fun j hj => h.2 j ((hunborn j).1 hj)⟩
  · exact ⟨h.1, fun j hj => h.2 j ((hunborn j).1 hj)⟩
  · exact ⟨h.1, fun j hj => h.2 j ((hunborn j).1 hj)⟩

/-- A step of the thread of node `i`, at which it is not between the barriers of others. -/
theorem node (I : RunInv t s) {x : TreePc M} (hmain : s'.main = s.main) (hpc : s'.pc = update s.pc i x)
    (hi : s.pc i ≠ .unborn) (hx : x ≠ .unborn) (hbarrier : ∀ q, SoundAt t (s'.barrier q) (update s.pc i x) q)
    (hsize : ∀ q, (s'.barrier q).tripCount = (s.barrier q).tripCount)
    (hsem : ∀ q, (s'.barrier q).semid = none ↔ (s.barrier q).semid = none)
    (hfirst : ∀ q, (s.barrier q).semid ≠ none → (update s.pc i x q).pastBarrier = true →
      ∀ c ∈ t.children q, (update s.pc i x c).arrivals = 2)
    (hcs : s'.csmtx = .removed ∨ ∀ j, (update s.pc i x j).inCS = true ↔ s'.csmtx = .held j)
    (hexit : ExitOk s'.sh s.main.createPc (update s.callers (some i) x.exitPc) n)
    (hnum : s'.sh.numThreads = s.sh.numThreads) : RunInv t s' where
  barrier q := hpc ▸ hbarrier q
  size q := (hsize q).trans (I.size q)
  gone q := by
    rw [hsem q, I.gone q, Gone, Gone, hmain]
  first q hq := by
    rw [hpc]
    exact hfirst q fun h => hq ((hsem q).2 h)
  csmtx := hpc ▸ hcs
  exit := by
    rw [hmain, callers_update hmain hpc]
    exact hexit
  stage := stage_update hmain hpc hi hx hnum I.stage

/-- The critical section is left as it is. -/
theorem csmtx_keep (I : RunInv t s) {x : TreePc M} (hx : x.inCS = (s.pc i).inCS) :
    s.csmtx = .removed ∨ ∀ j, (update s.pc i x j).inCS = true ↔ s.csmtx = .held j := by
  refine I.csmtx.imp_right fun h j => ?_
  by_cases hj : j = i
  · subst hj
    rw [Function.update_self, hx]
    exact h j
  · rw [Function.update_of_ne hj]
    exact h j

/-- A node that is not in `foothread_exit`, and does not get there. -/
theorem exit_keep (I : RunInv t s) {x : TreePc M} (hi : (s.pc i).exitPc = none) (hx : x.exitPc = none) :
    ExitOk s.sh s.main.createPc (update s.callers (some i) x.exitPc) n := by
  have hsame : update s.callers (some i) x.exitPc = s.callers := by
    rw [hx, ← hi]
    exact Function.update_eq_self _ _
  rw [hsame]
  exact I.exit

/-- A step in `node` between the two barriers. -/
theorem inside (I : RunInv t s) {x : TreePc M} (hmain : s'.main = s.main) (hpc : s'.pc = update s.pc i x)
    (hsh : s'.sh = s.sh) (hb : s'.barrier = s.barrier) (hi : (s.pc i).arrivals = 1 ∧ ∀ q, onBarrier t q i (s.pc i) = none)
    (hi' : (s.pc i).pastBarrier = true ∧ (s.pc i).exitPc = none)
    (hx : x.arrivals = 1 ∧ ∀ q, onBarrier t q i x = none ∨ onBarrier t q i x = some .lock) (hx' : x.exitPc = none)
    (hcs : s'.csmtx = .removed ∨ ∀ j, (update s.pc i x j).inCS = true ↔ s'.csmtx = .held j) : RunInv t s' := by
  refine I.node hmain hpc ?_ ?_ (fun q => ?_) (fun q => by rw [hb]) (fun q => by rw [hb]) (fun q hq => ?_) hcs
    (hsh ▸ I.exit_keep hi'.2 hx') (by rw [hsh])
  · intro h
    rw [h] at hi'
    cases hi'.1
  · intro h
    rw [h] at hx
    cases hx.1
  · rw [hb]
    have harr : arrived t q i x = arrived t q i (s.pc i) := by rw [arrived, arrived, hx.1, hi.1]
    rcases hx.2 q with h | h
    · exact (I.barrier q).keep (h.trans (hi.2 q).symm) harr
    · exact (I.barrier q).enter (hi.2 q) h harr
  · exact I.first_keep hq (fun _ => hi'.1) (by rw [hi.1, hx.1])

theorem onBarrier_inCS {x : TreePc M} (h : x.inCS = true) :
    x.arrivals = 1 ∧ (∀ q, onBarrier t q i x = none) ∧ x.pastBarrier = true ∧ x.exitPc = none := by
  cases x <;> first | exact ⟨rfl, fun _ => rfl, rfl, rfl⟩ | cases h

theorem lock (I : RunInv t s) {m : AtomicMutex (Fin n)} {x : TreePc M} (hpc : s.pc i = .lock)
    (hm : s.csmtx.lock i = some m) (hx : x.inCS = true) : RunInv t ({ s with csmtx := m }.goto i x) := by
  obtain ⟨h1, h2, -, h4⟩ := onBarrier_inCS (t := t) (i := i) hx
  refine I.inside rfl rfl rfl rfl (by rw [hpc]; exact ⟨rfl, fun _ => rfl⟩) (by rw [hpc]; exact ⟨rfl, rfl⟩)
    ⟨h1, fun q => .inl (h2 q)⟩ h4 ?_
  show m = .removed ∨ ∀ j, _ ↔ m = .held j
  rcases I.csmtx with h | h
  · rw [h] at hm
    exact .inl (Option.some.inj hm).symm
  · cases hc : s.csmtx with
    | free =>
      rw [hc] at hm
      obtain rfl : AtomicMutex.held i = m := Option.some.inj hm
      refine .inr fun j => ?_
      by_cases hj : j = i
      · subst hj
        rw [Function.update_self]
        exact iff_of_true hx rfl
      · rw [Function.update_of_ne hj, h j, hc]
        exact iff_of_false (by simp) fun e => hj (AtomicMutex.held.inj e).symm
    | held j => rw [hc] at hm; cases hm
    | removed => rw [hc] at hm; exact .inl (Option.some.inj hm).symm

theorem unlock (I : RunInv t s) (hpc : s.pc i = .unlock) :
    RunInv t ({ s with csmtx := s.csmtx.unlock i }.goto i (.parent .lock)) := by
  refine I.inside rfl rfl rfl rfl (by rw [hpc]; exact ⟨rfl, fun _ => rfl⟩) (by rw [hpc]; exact ⟨rfl, rfl⟩)
    ⟨rfl, fun q => ?_⟩ rfl ?_
  · by_cases hq : t.parent i = q
    · exact .inr (if_pos hq)
    · exact .inl (if_neg hq)
  · show s.csmtx.unlock i = .removed ∨ ∀ j, _ ↔ s.csmtx.unlock i = .held j
    refine I.csmtx.imp (fun h => by rw [h]; rfl) fun h j => ?_
    have hheld := (h i).1 (by rw [hpc]; rfl)
    rw [hheld, AtomicMutex.unlock, if_pos rfl]
    refine iff_of_false (fun hj => ?_) (by simp)
    by_cases hji : j = i
    · rw [hji, Function.update_self] at hj
      cases hj
    · rw [Function.update_of_ne hji] at hj
      exact hji (AtomicMutex.held.inj (hheld.symm.trans ((h j).1 hj))).symm

theorem counted_le (p : WaitPc) : p.counted ≤ 1 := by
  cases p <;> simp [WaitPc.counted]

/-- A step of node `i` on the barrier of `q`: this barrier stays sound, and the others are left alone. -/
theorem setBarrier (I : RunInv t s) {x : TreePc M} {c : WaitPc} {b : AtomicBarrier (Fin n)} {c' : Option WaitPc}
    (hcall : onBarrier t q i (s.pc i) = some c) (h : (s.barrier q).exec i c = some (b, c')) (hx : onBarrier t q i x = c')
    (harr : arrived t q i x = arrived t q i (s.pc i) + if c = .incr then 1 else 0)
    (hother : ∀ r, r ≠ q → onBarrier t r i x = onBarrier t r i (s.pc i) ∧ arrived t r i x = arrived t r i (s.pc i))
    (r : Fin n) : SoundAt t ((s.setBarrier q b).barrier r) (update s.pc i x) r ∧
      ((s.setBarrier q b).barrier r).tripCount = (s.barrier r).tripCount ∧
      (((s.setBarrier q b).barrier r).semid = none ↔ (s.barrier r).semid = none) := by
  obtain ⟨-, hsize, hsem, -⟩ := Sound.exec (I.barrier q) hcall h
  by_cases hr : r = q
  · subst hr
    have hsame : (s.setBarrier r b).barrier r = b := Function.update_self _ _ _
    rw [hsame]
    exact ⟨SoundAt.exec (I.barrier r) hcall h hx harr, hsize, hsem⟩
  · have hkeep : (s.setBarrier q b).barrier r = s.barrier r := Function.update_of_ne hr _ _
    rw [hkeep]
    exact ⟨(I.barrier r).keep (hother r hr).1 (hother r hr).2, rfl, Iff.rfl⟩

/-- A step in the node's own barrier. -/
theorem own (I : RunInv t s) {p : WaitPc} {b : AtomicBarrier (Fin n)} {p' : Option WaitPc} (hpc : s.pc i = .own p)
    (h : (s.barrier i).exec i p = some (b, p')) : RunInv t ((s.setBarrier i b).goto i (p'.elim .lock .own)) := by
  have hcall : onBarrier t i i (s.pc i) = some p := by rw [hpc]; exact if_pos rfl
  obtain ⟨-, -, -, hserved⟩ := Sound.exec (I.barrier i) hcall h
  have hcount := exec_counted h
  have hold : (TreePc.own p : TreePc M).arrivals = p.counted := rfl
  have hx : (p'.elim (TreePc.lock : TreePc M) .own).arrivals = p.counted + if p = .incr then 1 else 0 := by
    rw [← hcount]
    cases p' <;> rfl
  have hle := counted_le p
  have hx1 : (p'.elim (TreePc.lock : TreePc M) .own).arrivals ≤ 1 := by
    cases p' with
    | none => exact le_rfl
    | some c => exact counted_le c
  have hbarrier := I.setBarrier (x := p'.elim .lock .own) hcall h (by cases p' <;> first | rfl | exact if_pos rfl)
    (by
      rw [arrived, arrived, if_pos rfl, if_pos rfl, hpc, hold]
      split_ifs at hx ⊢ <;> omega)
    fun r hr => by
      refine ⟨?_, ?_⟩
      · rw [hpc, show onBarrier t r i (.own p : TreePc M) = none from if_neg (Ne.symm hr)]
        cases p' with
        | none => rfl
        | some c => exact if_neg (Ne.symm hr)
      · rw [arrived, arrived, if_neg (Ne.symm hr), if_neg (Ne.symm hr), hpc, hold]
        split_ifs <;> omega
  refine I.node (i := i) rfl rfl (by simp [hpc]) (by cases p' <;> simp) (fun q => (hbarrier q).1) (fun q => (hbarrier q).2.1)
    (fun q => (hbarrier q).2.2) (fun q hq hpast => ?_) (I.csmtx_keep (by rw [hpc]; cases p' <;> rfl))
    (I.exit_keep (by rw [hpc]; rfl) (by cases p' <;> rfl)) rfl
  by_cases hnew : q = i ∧ p' = none
  -- the call has returned, so all children have arrived
  · obtain ⟨rfl, rfl⟩ := hnew
    have hsum := hserved rfl hq
    rw [I.size q] at hsum
    intro c hc
    have hne := (t.mem_children.1 hc).2
    rw [Function.update_of_ne hne]
    exact all_arrived s.pc (by rw [hpc]; exact hle) hsum c hc
  · have hpast' : q ≠ i := by
      rintro rfl
      rw [Function.update_self] at hpast
      cases p' with
      | none => exact hnew ⟨rfl, rfl⟩
      | some c => cases hpast
    rw [Function.update_of_ne hpast'] at hpast
    intro c hc
    have hc2 := I.first q hq hpast c hc
    have hci : c ≠ i := by
      rintro rfl
      rw [hpc, hold] at hc2
      omega
    rwa [Function.update_of_ne hci]

/-- A step in the parent's barrier. -/
theorem parent (I : RunInv t s) (D : Describes t tr) {p : WaitPc} {b : AtomicBarrier (Fin n)} {p' : Option WaitPc}
    (hpc : s.pc i = .parent p) (hq : tr.P i = some q) (h : (s.barrier q).exec i p = some (b, p')) :
    RunInv t ((s.setBarrier q b).goto i (p'.elim (.exit .checkMtx) .parent)) := by
  obtain rfl : t.parent i = q := Option.some.inj ((D.P i).symm.trans hq)
  have hcall : onBarrier t (t.parent i) i (s.pc i) = some p := by rw [hpc]; exact if_pos rfl
  have hcount := exec_counted h
  have hold : (TreePc.parent p : TreePc M).arrivals = 1 + p.counted := rfl
  have hx : (p'.elim (TreePc.exit .checkMtx : TreePc M) .parent).arrivals = 1 + p.counted + if p = .incr then 1 else 0 := by
    rw [Nat.add_assoc, ← hcount]
    cases p' <;> rfl
  have hbarrier := I.setBarrier (x := p'.elim (.exit .checkMtx) .parent) hcall h
    (by cases p' <;> first | rfl | exact if_pos rfl)
    (by
      rw [arrived, arrived, if_pos rfl, if_pos rfl, hpc, hold, hx]
      split_ifs <;> omega)
    fun r hr => by
      refine ⟨?_, ?_⟩
      · rw [hpc, show onBarrier t r i (.parent p : TreePc M) = none from if_neg (Ne.symm hr)]
        cases p' with
        | none => rfl
        | some c => exact if_neg (Ne.symm hr)
      · rw [arrived, arrived, if_neg (Ne.symm hr), if_neg (Ne.symm hr), hpc, hold, hx]
        split_ifs <;> omega
  refine I.node (i := i) rfl rfl (by simp [hpc]) (by cases p' <;> simp) (fun r => (hbarrier r).1) (fun r => (hbarrier r).2.1)
    (fun r => (hbarrier r).2.2) (fun r hr => I.first_keep hr (fun _ => by rw [hpc]; rfl) ?_)
    (I.csmtx_keep (by rw [hpc]; cases p' <;> rfl)) ?_ rfl
  · rw [hpc, hold, hx]
    omega
  · have hnone : s.callers (some i) = none := by simp [callers, hpc, TreePc.exitPc]
    cases p' with
    | none => exact I.exit.call hnone
    | some c => exact I.exit_keep (x := .parent c) (by rw [hpc]; rfl) rfl

/-! ### The counters of `foothread_exit` -/

/-- A barrier with nobody in a call has been tripped each time that it was full. -/
theorem quiet_arrivals (I : RunInv t s) (hsem : (s.barrier q).semid ≠ none)
    (hquiet : ∀ i, onBarrier t q i (s.pc i) = none) :
    ∃ r, ∑ i, arrived t q i (s.pc i) = r * ((t.children q).card + 1) := by
  obtain ⟨v, hv⟩ := Option.ne_none_iff_exists'.1 hsem
  have htok := (I.barrier q).tokens v hv
  have hzero : ∑ i, weight (onBarrier t q i (s.pc i)) = 0 := Finset.sum_eq_zero fun i _ => by rw [hquiet i]; rfl
  obtain ⟨r, hr⟩ := (I.barrier q).arrivals
  refine ⟨r, ?_⟩
  rw [hr, I.size q]
  omega

/-- As long as a thread is to be created, not all threads that run are in `foothread_exit`. -/
theorem not_all_exit (I : RunInv t s) (hsem : ∀ q, (s.barrier q).semid ≠ none)
    (hall : ∀ i, s.pc i = .unborn ∨ ∃ e, s.pc i = .exit e) (hi : s.pc i ≠ .unborn) : ∀ j, s.pc j ≠ .unborn := by
  have hquiet : ∀ q i, onBarrier t q i (s.pc i) = none := by
    intro q i
    rcases hall i with h | ⟨e, h⟩ <;> rw [h] <;> rfl
  have harr : ∀ i, s.pc i ≠ .unborn → (s.pc i).arrivals = 2 := by
    intro i hi
    obtain ⟨e, he⟩ := (hall i).resolve_left hi
    rw [he]
    rfl
  -- a thread that has come through its parent's barrier has met the parent there
  have hparent : ∀ i, s.pc i ≠ .unborn → s.pc (t.parent i) ≠ .unborn := by
    intro i hi hp
    have hne : i ≠ t.parent i := fun e => hi (e ▸ hp)
    have hmem : i ∈ t.children (t.parent i) := t.mem_children.2 ⟨rfl, hne⟩
    obtain ⟨r, hr⟩ := I.quiet_arrivals (hsem (t.parent i)) (hquiet (t.parent i))
    have hself : arrived t (t.parent i) (t.parent i) (s.pc (t.parent i)) = 0 := by
      rw [hp]
      simp [arrived, TreePc.arrivals]
    have hle := sum_children_le (t := t) s.pc (t.parent i)
    have hone : 1 ≤ ∑ c ∈ t.children (t.parent i), ((s.pc c).arrivals - 1) := by
      refine le_trans ?_ (Finset.single_le_sum (f := fun c => (s.pc c).arrivals - 1) (fun _ _ => Nat.zero_le _) hmem)
      simp [harr i hi]
    rw [sum_arrived, hself] at hr
    rcases Nat.eq_zero_or_pos r with rfl | hpos
    · omega
    · have := Nat.le_mul_of_pos_left ((t.children (t.parent i)).card + 1) hpos
      omega
  have hroot : s.pc t.root ≠ .unborn := by
    obtain ⟨k, hk⟩ := t.reaches i
    rw [← hk]
    clear hk
    induction k with
    | zero => exact hi
    | succ k ih => rw [Function.iterate_succ_apply']; exact hparent _ ih
  -- the root and its children have come through its barrier once more than it lets through
  have hpast : (s.pc t.root).pastBarrier = true := by
    obtain ⟨e, he⟩ := (hall t.root).resolve_left hroot
    rw [he]
    rfl
  have hcard : (t.children t.root).card = 0 := by
    obtain ⟨r, hr⟩ := I.quiet_arrivals (hsem t.root) (hquiet t.root)
    have hchildren : ∑ c ∈ t.children t.root, ((s.pc c).arrivals - 1) = (t.children t.root).card := by
      rw [Finset.card_eq_sum_ones]
      refine Finset.sum_congr rfl fun c hc => ?_
      rw [I.first t.root (hsem t.root) hpast c hc]
    have hself : arrived t t.root t.root (s.pc t.root) = 2 := by
      rw [arrived, if_pos rfl, if_pos t.parent_root, harr t.root hroot]
      rfl
    rw [sum_arrived, hself, hchildren] at hr
    obtain _ | _ | r := r
    · omega
    · omega
    · have := Nat.mul_le_mul_right ((t.children t.root).card + 1) (show 2 ≤ r + 1 + 1 by omega)
      omega
  intro j
  have hj : j = t.root := by
    by_contra hne
    obtain ⟨c, hc, hcne, -⟩ := t.exists_child_of_desc (t.reaches j) hne
    have hmem : c ∈ t.children t.root := t.mem_children.2 ⟨hc, hcne⟩
    exact absurd (Finset.card_pos.2 ⟨c, hmem⟩) (by omega)
  rw [hj]
  exact hroot

theorem counted_exit_le (e : Option ExitPc) : e.elim 0 ExitPc.counted ≤ 1 := by
  rcases e with _ | e
  · exact Nat.zero_le 1
  · cases e <;> simp [ExitPc.counted]

/-- Whoever compares the counters finds them equal when all of the joinable threads are counted, and never before. -/
theorem exit_iff (I : RunInv t s) {k : Option (Fin n)} (hk : s.callers k = some .test) :
    s.sh.exitedThreads = s.sh.numThreads ↔ s.sh.exitedThreads = n := by
  have hstage := I.stage
  cases hmain : s.main <;> simp only [Stage, hmain] at hstage
  case create j p =>
    obtain ⟨hj, hnum, hunborn⟩ := hstage
    have hsem : ∀ q, (s.barrier q).semid ≠ none := fun q h => by simpa [Gone, hmain] using (I.gone q).1 h
    -- `main` is not between `P(mtx)` and `V(mtx)` now
    have hp : p ≠ .clone ∧ p ≠ .unlock := by
      have hout := (I.exit.base.alone hk rfl).2.1
      rw [hmain] at hout
      constructor <;> rintro rfl <;> cases hout
    rw [if_neg (by simp [hp.1, hp.2])] at hnum
    simp only [hp.2, if_false] at hunborn
    have hexited : s.sh.exitedThreads = ∑ i : Fin n, ((s.pc i).exitPc).elim 0 ExitPc.counted := by
      rw [I.exit.base.exited, Fintype.sum_option]
      simp [callers, hmain, TreeMain.exitPc]
    have hle : ∀ i : Fin n, ((s.pc i).exitPc).elim 0 ExitPc.counted ≤ if i.val < j then 1 else 0 := by
      intro i
      split_ifs with hi
      · exact counted_exit_le _
      · rw [(hunborn i).2 (by omega)]
        exact le_rfl
    have hcard : ∑ i : Fin n, (if i.val < j then 1 else 0) = j := by
      rw [← Finset.card_filter, Fin.card_filter_val_lt]
      exact min_eq_right hj.le
    have hlt : s.sh.exitedThreads ≤ j := by
      rw [hexited, ← hcard]
      exact Finset.sum_le_sum fun i _ => hle i
    refine iff_of_false (fun heq => ?_) (by omega)
    -- otherwise the threads that run are all in `foothread_exit`
    have hall : ∀ i : Fin n, i.val < j → ((s.pc i).exitPc).elim 0 ExitPc.counted = 1 := by
      intro i hi
      have hsums : ∑ i : Fin n, ((s.pc i).exitPc).elim 0 ExitPc.counted = ∑ i : Fin n, (if i.val < j then 1 else 0) := by
        rw [← hexited, hcard, heq, hnum]
      have := (Finset.sum_eq_sum_iff_of_le fun i _ => hle i).1 hsums i (Finset.mem_univ i)
      rwa [if_pos hi] at this
    have hpc : ∀ i, s.pc i = .unborn ∨ ∃ e, s.pc i = .exit e := by
      intro i
      by_cases hi : i.val < j
      · right
        have hone := hall i hi
        cases hs : s.pc i <;> rw [hs] at hone
        case exit e => exact ⟨e, rfl⟩
        all_goals cases hone
      · exact .inl ((hunborn i).2 (by omega))
    obtain ⟨i, hi⟩ : ∃ i, s.pc i ≠ .unborn := by
      cases k with
      | none => simp [callers, hmain, TreeMain.exitPc] at hk
      | some i =>
        refine ⟨i, fun h => ?_⟩
        simp [callers, h, TreePc.exitPc] at hk
    exact I.not_all_exit hsem hpc hi ⟨j, hj⟩ ((hunborn ⟨j, hj⟩).2 le_rfl)
  case exit p => rw [hstage.2.1]
  all_goals rw [hstage.1]

/-! ### The steps of `foothread_exit` and in the critical section -/

theorem work (I : RunInv t s) {sum : Fin n → M} {out : List (Line n M)} {x : TreePc M} (hi : (s.pc i).inCS = true)
    (hx : x.inCS = true) : RunInv t ({ s with sum := sum, out := out }.goto i x) := by
  obtain ⟨h1, h2, h3⟩ := onBarrier_inCS (t := t) (i := i) hi
  obtain ⟨h1', h2', -, h4'⟩ := onBarrier_inCS (t := t) (i := i) hx
  exact I.inside rfl rfl rfl rfl ⟨h1, h2⟩ h3 ⟨h1', fun q => .inl (h2' q)⟩ h4' (I.csmtx_keep (hx.trans hi.symm))

theorem nodeExit (I : RunInv t s) {p p' : ExitPc} {sh : Shared} (hpc : s.pc i = .exit p)
    (h : foothreadExit s.sh p = some (sh, p')) : RunInv t ({ s with sh := sh }.goto i (.exit p')) := by
  have hk : s.callers (some i) = some p := by simp [callers, hpc, TreePc.exitPc]
  obtain ⟨hexit, hnum⟩ := I.exit.exit hk h fun hp => I.exit_iff (hp ▸ hk)
  have harr : (TreePc.exit p' : TreePc M).arrivals = (s.pc i).arrivals := by rw [hpc]; rfl
  refine I.node (i := i) rfl rfl (by simp [hpc]) (by simp) (fun q => (I.barrier q).keep (by rw [hpc]; rfl) ?_) (fun _ => rfl)
    (fun _ => Iff.rfl) (fun q hq => I.first_keep hq (fun _ => by rw [hpc]; rfl) harr.ge)
    (I.csmtx_keep (by rw [hpc]; rfl)) hexit hnum
  rw [arrived, arrived, harr]

/-! ### The steps of `main` -/

theorem callers_main (s : TreeRun n M) (hmain : s'.main.exitPc = s.main.exitPc) (hpc : s'.pc = s.pc) : s'.callers = s.callers := by
  funext k
  cases k with
  | none => exact hmain
  | some i => simp only [callers, hpc]

theorem callers_exit {sh : Shared} {m : TreeMain} {p : ExitPc} (hm : m.exitPc = some p) :
    callers { s with sh := sh, main := m } = update s.callers none (some p) := by
  funext k
  cases k with
  | none => exact hm
  | some i => rfl

/-- A step of `main` at which no thread starts. -/
theorem main_keep (I : RunInv t s) (hpc : s'.pc = s.pc) (hb : s'.barrier = s.barrier)
    (hcs : s'.csmtx = s.csmtx ∨ s'.csmtx = .removed) (hgone : ∀ q, s'.Gone q ↔ s.Gone q)
    {call : Option (Fin n) → Option ExitPc} (hcallers : s'.callers = call) (hexit : ExitOk s'.sh s'.main.createPc call n)
    (hstage : s'.Stage) : RunInv t s' where
  barrier q := by rw [hb, hpc]; exact I.barrier q
  size q := by rw [hb]; exact I.size q
  gone q := by rw [hb, hgone]; exact I.gone q
  first q := by rw [hb, hpc]; exact I.first q
  csmtx := by
    rcases hcs with h | h
    · rw [h, hpc]
      exact I.csmtx
    · exact .inl h
  exit := hcallers ▸ hexit
  stage := hstage

/-- `num_threads` is one ahead between `num_threads++` and the end of `foothread_create`. -/
theorem create_num {sh sh' : Shared} {p p' : CreatePc} (h : foothreadCreate .joinable sh p = some (sh', some p')) :
    sh'.numThreads + (if p = .clone ∨ p = .unlock then 1 else 0) =
      sh.numThreads + (if p' = .clone ∨ p' = .unlock then 1 else 0) ∧ p ≠ .unlock ∧ (p ≠ .clone → p' ≠ .unlock) := by
  cases p with
  | lock =>
    obtain ⟨m, -, he⟩ := Option.map_eq_some_iff.1 h
    cases he
    simp
  | unlock => cases h
  | checkMtx | checkSem | count | clone => cases h; simp

theorem create (I : RunInv t s) {k : Nat} {p p' : CreatePc} {sh : Shared} (hmain : s.main = .create k p) (hp : p ≠ .clone)
    (h : foothreadCreate .joinable s.sh p = some (sh, some p')) :
    RunInv t { s with sh := sh, main := .create k p' } := by
  have hstage := I.stage
  have hexit := I.exit
  rw [Stage, hmain] at hstage
  rw [hmain] at hexit
  obtain ⟨hk, hnum, hunborn⟩ := hstage
  obtain ⟨hnum', hp1, hp'⟩ := create_num h
  refine I.main_keep rfl rfl (.inl rfl) (fun q => by simp [Gone, hmain]) (callers_main s (by rw [hmain]; rfl) rfl) ?_
    ⟨hk, ?_, fun i => ?_⟩
  · refine ExitOk.create hexit h fun hc => ?_
    subst hc
    simpa [hnum] using hk
  · show sh.numThreads = _
    rw [if_neg (by simp [hp, hp1])] at hnum hnum'
    split_ifs at hnum' ⊢ <;> omega
  · show s.pc i = .unborn ↔ _
    rw [hunborn i, if_neg hp1, if_neg (hp' hp)]

theorem created (I : RunInv t s) {k : Nat} {p : CreatePc} {sh : Shared} (hmain : s.main = .create k p) (hp : p ≠ .clone)
    (h : foothreadCreate .joinable s.sh p = some (sh, none)) : RunInv t { s with sh := sh, main := mainAt n (k + 1) } := by
  obtain rfl : p = .unlock := by
    cases p with
    | lock =>
      obtain ⟨m, -, he⟩ := Option.map_eq_some_iff.1 h
      cases he
    | unlock => rfl
    | _ => cases h
  have hstage := I.stage
  have hexit := I.exit
  rw [Stage, hmain] at hstage
  rw [hmain] at hexit
  obtain ⟨hk, hnum, hunborn⟩ := hstage
  have hexit' : ExitOk sh none s.callers n := ExitOk.create hexit h (by simp)
  have hnum' : sh.numThreads = k + 1 := by cases h; simpa using hnum
  rcases Nat.lt_or_ge (k + 1) n with hlt | hge
  · rw [mainAt, if_pos hlt]
    refine I.main_keep rfl rfl (.inl rfl) (fun q => by simp [Gone, hmain]) (callers_main s (by rw [hmain]; rfl) rfl)
      hexit'.nextCreate ⟨hlt, by simpa using hnum', fun i => ?_⟩
    show s.pc i = .unborn ↔ _
    simpa using hunborn i
  · rw [mainAt, if_neg (by omega)]
    have hnone : s.callers none = none := by simp [callers, hmain, TreeMain.exitPc]
    refine I.main_keep rfl rfl (.inl rfl) (fun q => by simp [Gone, hmain]) (callers_exit rfl) (hexit'.call hnone)
      ⟨by simp, ?_, fun i hi => ?_⟩
    · show sh.numThreads = n
      omega
    · have := (hunborn i).1 hi
      simp only [if_true] at this
      have := i.isLt
      omega

/-- `clone`: the thread calls its own barrier. -/
theorem clone (I : RunInv t s) {k : Nat} (hk : k < n) (hmain : s.main = .create k .clone) :
    RunInv t { s.goto ⟨k, hk⟩ (.own .lock) with main := .create k .unlock } := by
  have hstage := I.stage
  have hexit := I.exit
  rw [Stage, hmain] at hstage
  rw [hmain] at hexit
  obtain ⟨-, hnum, hunborn⟩ := hstage
  have hpc : s.pc ⟨k, hk⟩ = .unborn := (hunborn _).2 le_rfl
  refine ⟨fun q => ?_, I.size, fun q => ?_, fun q hq => I.first_keep hq (fun h => (by cases h)) (by rw [hpc]; exact le_rfl),
    I.csmtx_keep (by rw [hpc]; rfl), ?_, hk, ?_, fun i => ?_⟩
  · have harr : arrived t q ⟨k, hk⟩ (.own .lock : TreePc M) = arrived t q ⟨k, hk⟩ (s.pc ⟨k, hk⟩) := by rw [hpc]; rfl
    by_cases hq : (⟨k, hk⟩ : Fin n) = q
    · exact (I.barrier q).enter (by rw [hpc]; rfl) (if_pos hq) harr
    · exact (I.barrier q).keep (by rw [hpc]; exact if_neg hq) harr
  · rw [show (s.goto ⟨k, hk⟩ (.own .lock)).barrier = s.barrier from rfl, I.gone q, Gone, Gone, hmain]
  · have hcallers : callers { s.goto ⟨k, hk⟩ (.own .lock) with main := .create k .unlock } = s.callers := by
      funext j
      cases j with
      | none => simp [callers, hmain, TreeMain.exitPc]
      | some i =>
        by_cases hi : i = ⟨k, hk⟩
        · subst hi
          simp [callers, goto, hpc, TreePc.exitPc]
        · simp [callers, goto, hi]
    rw [hcallers]
    have hstep : foothreadCreate .joinable s.sh .clone = some (s.sh, some .unlock) := rfl
    exact ExitOk.create hexit hstep (by simp)
  · show s.sh.numThreads = _
    simpa using hnum
  · show update s.pc ⟨k, hk⟩ (.own .lock) i = .unborn ↔ _
    by_cases hi : i = ⟨k, hk⟩
    · subst hi
      simp
    · rw [Function.update_of_ne hi, hunborn i]
      have hne : i.val ≠ k := fun e => hi (Fin.ext e)
      simp only [reduceCtorEq, if_false, if_true]
      omega

theorem mainExit (I : RunInv t s) {p p' : ExitPc} {sh : Shared} (hmain : s.main = .exit p)
    (h : foothreadExit s.sh p = some (sh, p')) :
    RunInv t { s with sh := sh, main := if p' = .done then .destroyMutex else .exit p' } := by
  have hstage := I.stage
  have hexit := I.exit
  rw [Stage, hmain] at hstage
  rw [hmain] at hexit
  have hk : s.callers none = some p := by simp [callers, hmain, TreeMain.exitPc]
  obtain ⟨hexit', hnum⟩ := ExitOk.exit hexit hk h fun hp => I.exit_iff (hp ▸ hk)
  split_ifs with hd
  · exact I.main_keep rfl rfl (.inl rfl) (fun q => by simp [Gone, hmain]) (callers_exit (by rw [hd]; rfl)) hexit'
      ⟨hnum.trans hstage.2.1, hstage.2.2⟩
  · exact I.main_keep rfl rfl (.inl rfl) (fun q => by simp [Gone, hmain]) (callers_exit rfl) hexit'
      ⟨hd, hnum.trans hstage.2.1, hstage.2.2⟩

theorem destroyMutex (I : RunInv t s) (hmain : s.main = .destroyMutex) :
    RunInv t { s with csmtx := .removed, main := .destroyBarrier 0 } := by
  have hstage := I.stage
  have hexit := I.exit
  rw [Stage, hmain] at hstage
  rw [hmain] at hexit
  exact I.main_keep rfl rfl (.inr rfl) (fun q => by simp [Gone, hmain]) (callers_main s (by rw [hmain]; rfl) rfl) hexit hstage

theorem destroyBarrier (I : RunInv t s) {k : Fin n} (hmain : s.main = .destroyBarrier k) :
    RunInv t { s.setBarrier k (s.barrier k).destroy with main := .destroyBarrier (k + 1) } := by
  have hstage := I.stage
  have hexit := I.exit
  rw [Stage, hmain] at hstage
  rw [hmain] at hexit
  have hsame : (s.setBarrier k (s.barrier k).destroy).barrier k = (s.barrier k).destroy := Function.update_self _ _ _
  have hother : ∀ q, q ≠ k → (s.setBarrier k (s.barrier k).destroy).barrier q = s.barrier q := fun q hq =>
    Function.update_of_ne hq _ _
  refine ⟨fun q => ?_, fun q => ?_, fun q => ?_, fun q hq => ?_, I.csmtx, ?_, hstage⟩
  · show SoundAt t ((s.setBarrier k (s.barrier k).destroy).barrier q) s.pc q
    by_cases hq : q = k
    · rw [hq, hsame]
      exact Sound.destroy (I.barrier k)
    · rw [hother q hq]
      exact I.barrier q
  · show ((s.setBarrier k (s.barrier k).destroy).barrier q).tripCount = _
    by_cases hq : q = k
    · rw [hq, hsame]
      exact I.size k
    · rw [hother q hq]
      exact I.size q
  · show ((s.setBarrier k (s.barrier k).destroy).barrier q).semid = none ↔ q.val < k + 1
    by_cases hq : q = k
    · rw [hq, hsame]
      exact iff_of_true rfl (Nat.lt_succ_self _)
    · have hne : q.val ≠ k := fun e => hq (Fin.ext e)
      rw [hother q hq, I.gone q, Gone, hmain]
      show q.val < k ↔ _
      omega
  · refine I.first q ?_
    by_cases hqk : q = k
    · exact absurd (show ((s.setBarrier k (s.barrier k).destroy).barrier q).semid = none by rw [hqk, hsame]; rfl) hq
    · rwa [show ({ s.setBarrier k (s.barrier k).destroy with main := .destroyBarrier (k + 1) } : TreeRun n M).barrier q =
        s.barrier q from hother q hqk] at hq
  · have hcallers : callers { s.setBarrier k (s.barrier k).destroy with main := .destroyBarrier (k + 1) } = s.callers :=
      callers_main s (by rw [hmain]; rfl) rfl
    rw [hcallers]
    exact hexit

theorem returned (I : RunInv t s) {k : Nat} (hmain : s.main = .destroyBarrier k) (hk : n ≤ k) :
    RunInv t { s with main := .returned } := by
  have hstage := I.stage
  have hexit := I.exit
  rw [Stage, hmain] at hstage
  rw [hmain] at hexit
  refine I.main_keep rfl rfl (.inl rfl) (fun q => ?_) (callers_main s (by rw [hmain]; rfl) rfl) hexit hstage
  rw [Gone, Gone, hmain]
  exact iff_of_true trivial (q.isLt.trans_le hk)

/-- Every step keeps the invariant. -/
theorem move (D : Describes t tr) (I : RunInv t s) (h : Move tr s s') : RunInv t s' := by
  cases h with
  | create k p p' sh hmain hp h => exact I.create hmain hp h
  | clone k hk hmain => exact I.clone hk hmain
  | created k p sh hmain hp h => exact I.created hmain hp h
  | mainExit p p' sh hmain h => exact I.mainExit hmain h
  | destroyMutex hmain => exact I.destroyMutex hmain
  | destroyBarrier k hmain => exact I.destroyBarrier hmain
  | returned k hmain hk => exact I.returned hmain hk
  | own i p b p' hpc h => exact I.own hpc h
  | lock i m p hpc hm hp => exact I.lock hpc hm hp
  | work i sum out p hi hp => exact I.work hi hp
  | unlock i hpc => exact I.unlock hpc
  | parent i q p b p' hpc hq h => exact I.parent D hpc hq h
  | exit i p p' sh hpc h => exact I.nodeExit hpc h

theorem step [Add M] {input : Fin n → M} {a : TreeActor n} (D : Describes t tr) (I : RunInv t s)
    (h : s.threadStep tr input a = some s') : RunInv t s' := by
  refine I.move D (move_of_step tr input (fun k p hmain => ?_) h)
  have hstage := I.stage
  rw [Stage, hmain] at hstage
  exact hstage.1

end RunInv

end TreeRun

end OsLab.A7
