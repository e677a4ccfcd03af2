import OsLab.A5.Worker
import OsLab.Lib.Tally

/-!
# When the workers record themselves in topological order (A5/worker.c)

All `P` and `V` on `syncid` address index 0, so a worker takes the first `indegree` tokens it can get,
whoever posted them. `WorkerInv` counts the tokens and keeps the critical section exclusive, `Recorded`
says that `T` is the list of the workers that went through it. The order is right in every run exactly
when no worker can be served with the tokens of others: `safe_iff_outnumbered`.
-/

namespace OsLab.A5

open Function (update)
open Precedence (Initial cut Ordered)

variable {n : Nat} (A : Fin n → Fin n → Int)

/-- Worker `i` has written itself into `T` at position `p`. -/
def Wrote (s : Workers n) (i : Fin n) (p : Nat) : Prop :=
  s.T p = i.val ∧ (p < s.idx ∨ p = s.idx ∧ s.pc i = .incr)

instance (s : Workers n) (i : Fin n) (p : Nat) : Decidable (Wrote s i p) :=
  inferInstanceAs (Decidable (_ ∧ _))

/-- A worker is in `T` only behind all its predecessors. -/
def Safe (s : Workers n) : Prop := ∀ i p, Wrote s i p → ∀ j, Edge A j i → ∃ q < p, Wrote s j q

/-! ## The invariant -/

def WorkerPc.inCS : WorkerPc → Bool
  | .store | .incr | .unlock => true
  | _ => false

def WorkerPc.recorded : WorkerPc → Bool
  | .incr | .unlock | .ntfy | .post _ | .done => true
  | _ => false

/-- The tokens a worker has taken. -/
def taken (i : Fin n) : WorkerPc → Nat
  | .wait j => j
  | _ => Precedence.indegree (Edge A) i

/-- The tokens a worker has posted. -/
def posted (i : Fin n) : WorkerPc → Nat
  | .post j => succBelow A i j
  | .done => Precedence.outdegree (Edge A) i
  | _ => 0

structure WorkerInv (s : Workers n) : Prop where
  mtx : s.mtx + ∑ i, (if (s.pc i).inCS then 1 else 0) = 1
  tokens : s.sync semNum + ∑ i, taken A i (s.pc i) = ∑ i, posted A i (s.pc i)
  wait : ∀ i j, s.pc i = .wait j → j ≤ indegree A i

/-- `l` are the workers that have recorded themselves, in that order. -/
structure Recorded (s : Workers n) (l : List (Fin n)) : Prop where
  nodup : l.Nodup
  mem : ∀ i, i ∈ l ↔ (s.pc i).recorded = true
  T : ∀ p i, l[p]? = some i → s.T p = i.val
  idx : (∀ i, s.pc i ≠ .incr) → s.idx = l.length
  /-- The last entry is not counted by `idx` until its worker increments it. -/
  last : ∀ i, s.pc i = .incr → s.idx + 1 = l.length ∧ l[s.idx]? = some i

/-- Moving one worker changes one term of a sum over the workers. -/
theorem sum_goto (s : Workers n) (f : Fin n → WorkerPc → Nat) (i : Fin n) (p : WorkerPc) :
    ∑ j, f j ((s.goto i p).pc j) + f i (s.pc i) = ∑ j, f j (s.pc j) + f i p :=
  Tally.sum_update f s.pc i p

namespace WorkerInv

variable {A} {s s' : Workers n}

theorem init (T0 : Nat → Nat) : WorkerInv A (Workers.init T0) := by
  refine ⟨?_, ?_, ?_⟩
  · simp [Workers.init, WorkerPc.inCS]
  · simp [Workers.init, taken, posted]
  · intro i j h
    cases h
    exact Nat.zero_le _

/-- The critical section is exclusive. -/
theorem excl (I : WorkerInv A s) {i j : Fin n} (hi : (s.pc i).inCS = true) (hj : (s.pc j).inCS = true) : i = j := by
  by_contra hne
  have hpair : ∑ k ∈ {i, j}, (if (s.pc k).inCS then 1 else 0) ≤ ∑ k, (if (s.pc k).inCS then 1 else 0) :=
    Finset.sum_le_sum_of_subset (Finset.subset_univ _)
  rw [Finset.sum_pair hne, if_pos hi, if_pos hj] at hpair
  have := I.mtx
  omega

/-- Worker `i` goes to `p`, and the semaphores follow what it has taken and posted. -/
theorem goto (I : WorkerInv A s) {s₁ : Workers n} {i : Fin n} {p : WorkerPc} (hpc : s₁.pc = s.pc)
    (hmtx : s₁.mtx + (if p.inCS then 1 else 0) = s.mtx + if (s.pc i).inCS then 1 else 0)
    (htok : s₁.sync semNum + taken A i p + posted A i (s.pc i) = s.sync semNum + taken A i (s.pc i) + posted A i p)
    (hw : ∀ j, p = .wait j → j ≤ indegree A i) : WorkerInv A (s₁.goto i p) := by
  have hm : s₁.mtx + ∑ k, (if ((s₁.goto i p).pc k).inCS then 1 else 0) = 1 := by
    have h := sum_goto s₁ (fun _ q => if q.inCS then 1 else 0) i p
    have := I.mtx
    rw [hpc] at h
    omega
  have ht : s₁.sync semNum + ∑ k, taken A k ((s₁.goto i p).pc k) = ∑ k, posted A k ((s₁.goto i p).pc k) := by
    have h := sum_goto s₁ (taken A) i p
    have h' := sum_goto s₁ (posted A) i p
    have := I.tokens
    rw [hpc] at h h'
    omega
  refine ⟨hm, ht, fun k j hk => ?_⟩
  rw [Workers.goto_pc, hpc] at hk
  split at hk
  · subst k; exact hw j hk
  · exact I.wait k j hk

theorem step (I : WorkerInv A s) {a : Actor n} (h : s.Move A a s') : WorkerInv A s' := by
  cases h with
  | take i j hpc hj hs =>
    refine I.goto rfl (by simp [hpc, WorkerPc.inCS]) ?_ fun k hk => by cases hk; omega
    simp only [hpc, taken, posted, Function.update_self]
    omega
  | taken i j hpc hj =>
    have := I.wait i j hpc
    have hd := indegree_eq A i
    refine I.goto rfl (by simp [hpc, WorkerPc.inCS]) ?_ (by simp)
    simp only [hpc, taken, posted]
    omega
  | lock i hpc hm =>
    refine I.goto rfl ?_ (by simp [hpc, taken, posted]) (by simp)
    simp only [hpc, WorkerPc.inCS, if_true, Bool.false_eq_true, if_false]
    omega
  | store i hpc | incr i hpc =>
    exact I.goto rfl (by simp [hpc, WorkerPc.inCS]) (by simp [hpc, taken, posted]) (by simp)
  | unlock i hpc => exact I.goto rfl (by simp [hpc, WorkerPc.inCS]) (by simp [hpc, taken, posted]) (by simp)
  | ntfy i hpc =>
    exact I.goto rfl (by simp [hpc, WorkerPc.inCS]) (by simp [hpc, taken, posted, succBelow_zero]) (by simp)
  | post i j hpc he =>
    have hcs : s.syncV.mtx + (if (WorkerPc.post (j + 1)).inCS then 1 else 0) =
        s.mtx + if (s.pc i).inCS then 1 else 0 := by simp [hpc, WorkerPc.inCS, Workers.syncV]
    refine I.goto rfl hcs ?_ (by simp)
    simp only [hpc, taken, posted, Workers.syncV, Function.update_self, succBelow_edge A he]
    omega
  | skip i j hpc he =>
    exact I.goto rfl (by simp [hpc, WorkerPc.inCS]) (by simp [hpc, taken, posted, succBelow_skip A he]) (by simp)
  | posted i j hpc hj =>
    exact I.goto rfl (by simp [hpc, WorkerPc.inCS]) (by simp [hpc, taken, posted, succBelow_all A i hj]) (by simp)
  | boss => exact ⟨I.mtx, I.tokens, I.wait⟩

end WorkerInv

namespace Recorded

variable {A} {s s' : Workers n} {l : List (Fin n)}

theorem init (T0 : Nat → Nat) : Recorded (Workers.init T0 : Workers n) [] := by
  refine ⟨List.nodup_nil, ?_, ?_, ?_, ?_⟩ <;> simp [Workers.init, WorkerPc.recorded]

theorem idx_le (R : Recorded s l) : s.idx ≤ l.length := by
  by_cases h : ∃ i, s.pc i = .incr
  · obtain ⟨i, hi⟩ := h
    have := (R.last i hi).1
    omega
  · exact (R.idx fun i hi => h ⟨i, hi⟩).le

theorem wrote_iff (R : Recorded s l) (i : Fin n) (p : Nat) : Wrote s i p ↔ l[p]? = some i := by
  constructor
  · rintro ⟨hT, hp | ⟨rfl, hpc⟩⟩
    · have hk := List.getElem?_eq_getElem (hp.trans_le R.idx_le)
      rw [hk, Option.some.injEq]
      exact Fin.ext ((R.T p _ hk).symm.trans hT)
    · exact (R.last i hpc).2
  · intro hl
    refine ⟨R.T p i hl, ?_⟩
    have hlt : p < l.length := (List.getElem?_eq_some_iff.1 hl).1
    by_cases h : ∃ k, s.pc k = .incr
    · obtain ⟨k, hk⟩ := h
      obtain ⟨hlen, hlast⟩ := R.last k hk
      rcases Nat.lt_or_ge p s.idx with hp | hp
      · exact .inl hp
      · obtain rfl : p = s.idx := by omega
        rw [hlast, Option.some.injEq] at hl
        exact .inr ⟨rfl, hl ▸ hk⟩
    · rw [R.idx fun k hk => h ⟨k, hk⟩]
      exact .inl hlt

theorem safe_iff (R : Recorded s l) : Safe A s ↔ Ordered (Edge A) l := by
  simp only [Safe, Ordered, R.wrote_iff]
  exact forall_comm

/-- A step outside the statements that record. -/
theorem goto (R : Recorded s l) {s₁ : Workers n} {i : Fin n} {p : WorkerPc} (hpc : s₁.pc = s.pc) (hT : s₁.T = s.T)
    (hidx : s₁.idx = s.idx) (hp : p.recorded = (s.pc i).recorded) (h : s.pc i ≠ .incr) (h' : p ≠ .incr) :
    Recorded (s₁.goto i p) l := by
  have hincr : ∀ k, (s₁.goto i p).pc k = .incr ↔ s.pc k = .incr := by
    intro k
    rw [Workers.goto_pc, hpc]
    split
    · subst k; exact iff_of_false h' h
    · exact Iff.rfl
  refine ⟨R.nodup, fun k => ?_, fun q k hk => ?_, fun hno => ?_, fun k hk => ?_⟩
  · rw [R.mem, Workers.goto_pc, hpc]
    split
    · subst k; rw [hp]
    · exact Iff.rfl
  · exact (congrFun hT q).trans (R.T q k hk)
  · exact hidx.trans (R.idx fun k hk => hno k ((hincr k).2 hk))
  · have := R.last k ((hincr k).1 hk)
    rwa [← hidx] at this

theorem store (R : Recorded s l) (I : WorkerInv A s) {i : Fin n} (hpc : s.pc i = .store) :
    Recorded ({ s with T := update s.T s.idx i }.goto i .incr) (l ++ [i]) := by
  have hnew : i ∉ l := by rw [R.mem, hpc]; simp [WorkerPc.recorded]
  have hidx : s.idx = l.length := R.idx fun k hk => by
    obtain rfl : i = k := I.excl (by rw [hpc]; rfl) (by rw [hk]; rfl)
    rw [hpc] at hk; cases hk
  have hnodup : (l ++ [i]).Nodup := by
    rw [← List.concat_eq_append]
    exact R.nodup.concat hnew
  refine ⟨hnodup, fun k => ?_, fun q k hk => ?_, fun hno => ?_, fun k hk => ?_⟩
  · rw [List.mem_append, List.mem_singleton, R.mem, Workers.goto_pc]
    split
    · subst k; exact iff_of_true (.inr rfl) rfl
    · rename_i hne; exact or_iff_left hne
  · rcases Nat.lt_or_ge q l.length with hq | hq
    · rw [List.getElem?_append_left hq] at hk
      exact (Function.update_of_ne (by omega) _ _).trans (R.T q k hk)
    · rw [List.getElem?_append_right hq, List.getElem?_singleton] at hk
      split at hk <;> cases hk
      obtain rfl : q = s.idx := by omega
      exact Function.update_self _ _ _
  · exact absurd (Workers.goto_pc_same _ i .incr) (hno i)
  · obtain rfl : k = i := by
      by_contra hne
      rw [Workers.goto_pc, if_neg hne] at hk
      exact hne (I.excl (by rw [hk]; rfl) (by rw [hpc]; rfl))
    refine ⟨by simp [Workers.goto, hidx], ?_⟩
    simp [Workers.goto, hidx]

theorem incr (R : Recorded s l) (I : WorkerInv A s) {i : Fin n} (hpc : s.pc i = .incr) :
    Recorded ({ s with idx := s.idx + 1 }.goto i .unlock) l := by
  refine ⟨R.nodup, fun k => ?_, R.T, fun _ => (R.last i hpc).1, fun k hk => ?_⟩
  · rw [R.mem, Workers.goto_pc]
    split
    · subst k; rw [hpc]; exact Iff.rfl
    · exact Iff.rfl
  · rw [Workers.goto_pc] at hk
    split at hk
    · cases hk
    · rename_i hne
      exact absurd (I.excl (by rw [hk]; rfl) (by rw [hpc]; rfl)) hne

/-- A step records its worker at the end of the list, or nobody. -/
theorem step (R : Recorded s l) (I : WorkerInv A s) {a : Actor n} (h : s.Move A a s') :
    Recorded s' l ∨ ∃ i, s.pc i = .store ∧ Recorded s' (l ++ [i]) := by
  cases h with
  | store i hpc => exact .inr ⟨i, hpc, R.store I hpc⟩
  | incr i hpc => exact .inl (R.incr I hpc)
  | boss => exact .inl ⟨R.nodup, R.mem, R.T, R.idx, R.last⟩
  | post i j hpc _ => exact .inl (R.goto rfl rfl rfl (by rw [hpc]; rfl) (by simp [hpc]) (by simp))
  | take i j hpc _ _ | taken i j hpc _ | lock i hpc _ | unlock i hpc | ntfy i hpc | skip i j hpc _
  | posted i j hpc _ => exact .inl (R.goto rfl rfl rfl (by rw [hpc]; rfl) (by simp [hpc]) (by simp))

end Recorded

/-! ## No worker overtakes its predecessors -/

/-- The tokens a set closed under predecessors leaves when its workers are done are too few for any
worker that still waits for a predecessor outside the set. -/
def NoOvertaking : Prop :=
  ∀ S : Finset (Fin n), Initial (Edge A) S → ∀ i, i ∉ S → (∃ j, Edge A j i ∧ j ∉ S) →
    cut (Edge A) S < indegree A i

instance : Decidable (NoOvertaking A) :=
  inferInstanceAs (Decidable (∀ S : Finset (Fin n), (∀ j i, Edge A j i → i ∈ S → j ∈ S) → ∀ i, i ∉ S →
    (∃ j, Edge A j i ∧ j ∉ S) → cut (Edge A) S < indegree A i))

variable {A} {s s' : Workers n}

/-- The tokens that the recorded workers and one about to record itself have taken were posted by the former. -/
theorem tokens_recorded (I : WorkerInv A s) {l : List (Fin n)} (R : Recorded s l) {i : Fin n} (hpc : s.pc i = .store) :
    i ∉ l.toFinset ∧ ∑ k ∈ insert i l.toFinset, Precedence.indegree (Edge A) k ≤
      ∑ k ∈ l.toFinset, Precedence.outdegree (Edge A) k := by
  have hi : i ∉ l.toFinset := by
    rw [List.mem_toFinset, R.mem, hpc]
    simp [WorkerPc.recorded]
  -- the recorded workers and `i` have taken all they wait for
  have htaken : ∑ k ∈ insert i l.toFinset, Precedence.indegree (Edge A) k ≤ ∑ k, taken A k (s.pc k) := by
    refine (Finset.sum_le_sum fun k hk => ?_).trans (Finset.sum_le_sum_of_subset (Finset.subset_univ _))
    rcases Finset.mem_insert.1 hk with rfl | hk
    · rw [hpc]; exact le_rfl
    · rw [List.mem_toFinset, R.mem] at hk
      cases hp : s.pc k <;> rw [hp] at hk
      case wait | lock | store => cases hk
      all_goals exact le_rfl
  -- nobody else has posted anything
  have hposted : ∑ k, posted A k (s.pc k) ≤ ∑ k ∈ l.toFinset, Precedence.outdegree (Edge A) k := by
    rw [← Finset.sum_subset (Finset.subset_univ l.toFinset)]
    · refine Finset.sum_le_sum fun k _ => ?_
      cases s.pc k with
      | post j => exact succBelow_le A k j
      | done => exact le_rfl
      | _ => exact Nat.zero_le _
    · intro k _ hk
      rw [List.mem_toFinset, R.mem] at hk
      cases hp : s.pc k <;> rw [hp] at hk
      case wait | lock | store => rfl
      all_goals exact absurd rfl hk
  have htok := I.tokens
  exact ⟨hi, by omega⟩

/-- **The token count**: a worker with a predecessor outside of `T` finds too few tokens. -/
theorem preds_recorded (I : WorkerInv A s) {l : List (Fin n)} (R : Recorded s l) (O : Ordered (Edge A) l)
    (h : NoOvertaking A) {i : Fin n} (hpc : s.pc i = .store) (j : Fin n) (hj : Edge A j i) : j ∈ l := by
  by_contra hno
  have hinit : Initial (Edge A) l.toFinset := fun j k hjk hk => by
    rw [List.mem_toFinset] at hk ⊢
    exact O.mem hk hjk
  obtain ⟨hi, htokens⟩ := tokens_recorded I R hpc
  have hlt := h l.toFinset hinit i hi ⟨j, hj, by rwa [List.mem_toFinset]⟩
  rw [Finset.sum_insert hi, ← indegree_eq] at htokens
  have hcut := hinit.cut_add_indegree
  omega

theorem safe_of_noOvertaking (h : NoOvertaking A) {T0 : Nat → Nat}
    (hr : Trans.Reach (Workers.step A) (Workers.init T0) s) : Safe A s := by
  have hinv : WorkerInv A s ∧ ∃ l, Recorded s l ∧ Ordered (Edge A) l := by
    refine hr.inv (I := fun s => WorkerInv A s ∧ ∃ l, Recorded s l ∧ Ordered (Edge A) l) ⟨.init T0, [], .init T0, .nil⟩ ?_
    rintro s a s' - ⟨I, l, R, O⟩ - hs
    have hmv := Workers.move_of_step A hs
    refine ⟨I.step hmv, ?_⟩
    rcases R.step I hmv with R' | ⟨i, hpc, R'⟩
    · exact ⟨l, R', O⟩
    · exact ⟨l ++ [i], R', O.concat (preds_recorded I R O h hpc)⟩
  obtain ⟨-, l, R, O⟩ := hinv
  exact R.safe_iff.2 O

/-- The workers in `T` have been served one after another from the tokens of those before them. -/
theorem exists_recorded {T0 : Nat → Nat} (hr : Trans.Reach (Workers.step A) (Workers.init T0) s) :
    WorkerInv A s ∧ ∃ l, Recorded s l ∧ Precedence.Servable (Edge A) l.toFinset := by
  refine hr.inv (I := fun s => WorkerInv A s ∧ ∃ l, Recorded s l ∧ Precedence.Servable (Edge A) l.toFinset)
    ⟨.init T0, [], .init T0, .empty⟩ ?_
  rintro s a s' - ⟨I, l, R, hS⟩ - hs
  have hmv := Workers.move_of_step A hs
  refine ⟨I.step hmv, ?_⟩
  rcases R.step I hmv with R' | ⟨i, hpc, R'⟩
  · exact ⟨l, R', hS⟩
  · obtain ⟨hi, hle⟩ := tokens_recorded I R hpc
    have hinsert : (l ++ [i]).toFinset = insert i l.toFinset := by
      ext k
      simp
    exact ⟨l ++ [i], R', hinsert ▸ .insert hS hi hle⟩

/-! ## The run in which a worker overtakes -/

/-- A worker alone takes the tokens it finds. -/
theorem reach_take {i : Fin n} {j : Nat} (hpc : s.pc i = .wait j) (k : Nat) (hj : j + k ≤ indegree A i)
    (hs : k ≤ s.sync semNum) : ∃ s', Trans.Reach (Workers.step A) s s' ∧ s'.pc = update s.pc i (.wait (j + k)) ∧
      s'.sync semNum = s.sync semNum - k ∧ s'.mtx = s.mtx := by
  induction k with
  | zero => exact ⟨s, .refl, by rw [Nat.add_zero, ← hpc, Function.update_eq_self], rfl, rfl⟩
  | succ k ih =>
    obtain ⟨t, hr, ht, hts, htm⟩ := ih (by omega) (by omega)
    have hti : t.pc i = .wait (j + k) := by rw [ht, Function.update_self]
    have hstep : t.step A (.worker i) =
        some ({ t with sync := update t.sync semNum (t.sync semNum - 1) }.goto i (.wait (j + k + 1))) := by
      rw [Workers.step_worker A hti, Workers.exec, if_pos (by omega), Workers.syncP, if_pos (by omega)]
      rfl
    refine ⟨_, hr.tail trivial hstep, ?_, ?_, htm⟩
    · simp [Workers.goto, ht, Nat.add_assoc]
    · simp only [Workers.goto, Function.update_self]
      omega

/-- With enough tokens and the mutex free a worker alone records itself. -/
theorem reach_record {i : Fin n} (hpc : s.pc i = .wait 0) (hs : indegree A i ≤ s.sync semNum) (hm : s.mtx = 1) :
    ∃ s', Trans.Reach (Workers.step A) s s' ∧ s'.pc = update s.pc i .incr ∧
      s'.sync semNum = s.sync semNum - indegree A i ∧ s'.mtx = 0 ∧ s'.T s'.idx = i.val := by
  obtain ⟨t, hr, ht, hts, htm⟩ := reach_take (A := A) hpc (indegree A i) (by omega) hs
  have hti : t.pc i = .wait (indegree A i) := by rw [ht, Function.update_self, Nat.zero_add]
  have h1 : t.step A (.worker i) = some (t.goto i .lock) :=
    (Workers.step_worker A hti).trans (if_neg (by omega))
  have h2 : (t.goto i .lock).step A (.worker i) =
      some ({ t.goto i .lock with mtx := t.mtx - 1 }.goto i .store) :=
    (Workers.step_worker A (Workers.goto_pc_same t i _)).trans (if_pos (show 0 < t.mtx by omega))
  have h3 := Workers.step_worker A (Workers.goto_pc_same { t.goto i .lock with mtx := t.mtx - 1 } i .store)
  refine ⟨_, ((hr.tail trivial h1).tail trivial h2).tail trivial h3, ?_, hts, ?_, ?_⟩
  · simp [Workers.goto, ht]
  · simp [Workers.goto, htm, hm]
  · simp [Workers.goto]

/-- A worker alone posts its remaining tokens. -/
theorem reach_post (d : Nat) {i : Fin n} {j : Nat} (hj : j + d = n) (hpc : s.pc i = .post j) :
    ∃ s', Trans.Reach (Workers.step A) s s' ∧ s'.pc = update s.pc i .done ∧
      s'.sync semNum + succBelow A i j = s.sync semNum + Precedence.outdegree (Edge A) i ∧ s'.mtx = s.mtx := by
  induction d generalizing s j with
  | zero =>
    have hstep : s.step A (.worker i) = some (s.goto i .done) :=
      (Workers.step_worker A hpc).trans (dif_neg (by omega))
    refine ⟨_, .single trivial hstep, rfl, ?_, rfl⟩
    rw [succBelow_all A i (by omega)]
    rfl
  | succ d ih =>
    have hlt : j < n := by omega
    have hstep : s.step A (.worker i) =
        some ((if Edge A i ⟨j, hlt⟩ then s.syncV else s).goto i (.post (j + 1))) :=
      (Workers.step_worker A hpc).trans (dif_pos hlt)
    by_cases he : Edge A i ⟨j, hlt⟩
    · rw [if_pos he] at hstep
      obtain ⟨t, hr, ht, hts, htm⟩ := ih (j := j + 1) (by omega) (Workers.goto_pc_same s.syncV i _)
      refine ⟨t, (Trans.ReachIf.single trivial hstep).trans hr, ?_, ?_, htm⟩
      · rw [ht]; simp [Workers.goto, Workers.syncV]
      · rw [succBelow_edge A he] at hts
        simp only [Workers.goto, Workers.syncV, Function.update_self] at hts
        omega
    · rw [if_neg he] at hstep
      obtain ⟨t, hr, ht, hts, htm⟩ := ih (j := j + 1) (by omega) (Workers.goto_pc_same s i _)
      refine ⟨t, (Trans.ReachIf.single trivial hstep).trans hr, ?_, ?_, htm⟩
      · rw [ht]; simp [Workers.goto]
      · rw [succBelow_skip A he] at hts
        exact hts

/-- With enough tokens and the mutex free a worker alone runs to its end. -/
theorem reach_serve {i : Fin n} (hpc : s.pc i = .wait 0) (hs : indegree A i ≤ s.sync semNum) (hm : s.mtx = 1) :
    ∃ s', Trans.Reach (Workers.step A) s s' ∧ s'.pc = update s.pc i .done ∧
      s'.sync semNum + indegree A i = s.sync semNum + Precedence.outdegree (Edge A) i ∧ s'.mtx = 1 := by
  obtain ⟨t, hr, ht, hts, htm, -⟩ := reach_record hpc hs hm
  have h1 : t.step A (.worker i) = some ({ t with idx := t.idx + 1 }.goto i .unlock) :=
    Workers.step_worker A (by rw [ht, Function.update_self])
  have h2 := Workers.step_worker A (Workers.goto_pc_same { t with idx := t.idx + 1 } i .unlock)
  have h3 := Workers.step_worker A (Workers.goto_pc_same
    { ({ t with idx := t.idx + 1 }.goto i .unlock) with mtx := t.mtx + 1 } i .ntfy)
  have hr' := ((hr.tail trivial h1).tail trivial h2).tail trivial h3
  obtain ⟨v, hr'', hv, hvs, hvm⟩ := reach_post (A := A) n (Nat.zero_add n) (Workers.goto_pc_same _ i (.post 0))
  refine ⟨v, hr'.trans hr'', ?_, ?_, ?_⟩
  · rw [hv]; simp [Workers.goto, ht]
  · rw [succBelow_zero] at hvs
    simp only [Workers.goto] at hvs
    omega
  · rw [hvm]; simp [Workers.goto, htm]

/-- The workers in `S` are done and the others have not started. -/
structure Quiet (A : Fin n → Fin n → Int) (S : Finset (Fin n)) (s : Workers n) : Prop where
  done : ∀ i ∈ S, s.pc i = .done
  fresh : ∀ i, i ∉ S → s.pc i = .wait 0
  tokens : s.sync semNum = cut (Edge A) S
  mtx : s.mtx = 1

/-- The same for a set that the tokens of others have served. -/
structure Served (A : Fin n → Fin n → Int) (S : Finset (Fin n)) (s : Workers n) : Prop where
  done : ∀ i ∈ S, s.pc i = .done
  fresh : ∀ i, i ∉ S → s.pc i = .wait 0
  tokens : s.sync semNum + ∑ i ∈ S, Precedence.indegree (Edge A) i = ∑ i ∈ S, Precedence.outdegree (Edge A) i
  mtx : s.mtx = 1

/-- The workers of a servable set can run before all others, one after the other. -/
theorem reach_served (T0 : Nat → Nat) {S : Finset (Fin n)} (hS : Precedence.Servable (Edge A) S) :
    ∃ s, Trans.Reach (Workers.step A) (Workers.init T0) s ∧ Served A S s := by
  induction hS with
  | empty => exact ⟨_, .refl, by simp, fun _ _ => rfl, rfl, rfl⟩
  | @insert S i _ hi hle ih =>
    obtain ⟨s, hr, Q⟩ := ih
    rw [Finset.sum_insert hi, ← indegree_eq] at hle
    have htok := Q.tokens
    obtain ⟨t, hr', ht, hts, htm⟩ := reach_serve (A := A) (Q.fresh i hi) (by omega) Q.mtx
    refine ⟨t, hr.trans hr', fun k hk => ?_, fun k hk => ?_, ?_, htm⟩
    · rw [ht, Function.update_apply]
      split
      · rfl
      · rename_i hne
        exact Q.done k ((Finset.mem_insert.1 hk).resolve_left hne)
    · rw [Finset.mem_insert, not_or] at hk
      rw [ht, Function.update_of_ne hk.1]
      exact Q.fresh k hk.2
    · rw [Finset.sum_insert hi, Finset.sum_insert hi, ← indegree_eq]
      omega

/-- The workers of an initial set can run before all others. -/
theorem reach_quiet (hA : Precedence.Acyclic (Edge A)) (T0 : Nat → Nat) (S : Finset (Fin n)) (hS : Initial (Edge A) S) :
    ∃ s, Trans.Reach (Workers.step A) (Workers.init T0) s ∧ Quiet A S s := by
  obtain ⟨s, hr, Q⟩ := reach_served T0 (Initial.servable hA S hS)
  have htok := Q.tokens
  have hcut := hS.cut_add_indegree
  exact ⟨s, hr, Q.done, Q.fresh, by omega, Q.mtx⟩

/-- A worker that can be served with the tokens of others overtakes one of its predecessors. -/
theorem exists_unsafe (hA : Precedence.Acyclic (Edge A)) (T0 : Nat → Nat) {S : Finset (Fin n)} (hS : Initial (Edge A) S)
    {i j : Fin n} (hi : i ∉ S) (hj : j ∉ S) (hji : Edge A j i) (hcut : indegree A i ≤ cut (Edge A) S) :
    ∃ s, Trans.Reach (Workers.step A) (Workers.init T0) s ∧ ¬ Safe A s := by
  obtain ⟨s, hr, Q⟩ := reach_quiet hA T0 S hS
  obtain ⟨t, hr', ht, -, -, hT⟩ := reach_record (Q.fresh i hi) (hcut.trans_eq Q.tokens.symm) Q.mtx
  have hrt := hr.trans hr'
  refine ⟨t, hrt, fun hsafe => ?_⟩
  obtain ⟨q, -, hq⟩ := hsafe i t.idx ⟨hT, .inr ⟨rfl, by rw [ht, Function.update_self]⟩⟩ j hji
  -- but `j` has not even started
  obtain ⟨-, l, R, -⟩ := exists_recorded hrt
  have hmem := (R.mem j).1 (List.mem_of_getElem? ((R.wrote_iff j q).1 hq))
  have hne : j ≠ i := fun e => hA i (.single (e ▸ hji))
  rw [ht, Function.update_of_ne hne, Q.fresh j hj] at hmem
  cases hmem

/-- **When the workers record themselves in topological order**: in every run exactly if no set of
workers that can be served first leaves enough tokens for a worker with a predecessor outside it. -/
theorem safe_iff_noOvertaking (A : Fin n → Fin n → Int) (hA : Precedence.Acyclic (Edge A)) (T0 : Nat → Nat) :
    (∀ s, Trans.Reach (Workers.step A) (Workers.init T0) s → Safe A s) ↔
      ∀ S : Finset (Fin n), Initial (Edge A) S → ∀ i, i ∉ S → (∃ j, Edge A j i ∧ j ∉ S) →
        cut (Edge A) S < indegree A i := by
  refine ⟨fun hsafe S hS i hi ⟨j, hji, hj⟩ => ?_, fun h s hr => safe_of_noOvertaking h hr⟩
  by_contra hcut
  obtain ⟨s, hr, hbad⟩ := exists_unsafe hA T0 hS hi hj hji (by omega)
  exact hbad (hsafe s hr)

/-- The path `0 → 1 → ... → n - 1`. -/
def path (n : Nat) : Fin n → Fin n → Int := fun i j => if j.val = i.val + 1 then 1 else 0

theorem path_acyclic (n : Nat) : Precedence.Acyclic (Edge (path n)) := by
  refine Precedence.acyclic_of_lt (fun i => i.val) fun i j hij => ?_
  unfold Edge path at hij
  split at hij
  · omega
  · cases hij

/-- One edge is never overtaken. -/
theorem safe_iff_noOvertaking_path : NoOvertaking (path 2) ∧
    ∀ s, Trans.Reach (Workers.step (path 2)) (Workers.init fun _ => 0) s → Safe (path 2) s := by
  have h : NoOvertaking (path 2) := by decide
  exact ⟨h, (safe_iff_noOvertaking (path 2) (path_acyclic 2) fun _ => 0).2 h⟩

/-- On the path `0 → 1 → 2` worker 2 takes the token that worker 0 has posted for worker 1. -/
theorem path_overtaken : Precedence.Acyclic (Edge (path 3)) ∧
    ∃ s, Trans.Reach (Workers.step (path 3)) (Workers.init fun _ => 0) s ∧ ¬ Safe (path 3) s := by
  refine ⟨path_acyclic 3, ?_⟩
  obtain ⟨s, hr, hs⟩ := Trans.exists_reach_of_run (Workers.step (path 3)) (Workers.init fun _ => 0)
    (List.replicate 8 (.worker 0) ++ List.replicate 4 (.worker 2))
    (fun s => decide (Wrote s 2 1) && !decide (Wrote s 1 0)) (by decide)
  simp only [Bool.and_eq_true, decide_eq_true_eq, Bool.not_eq_true', decide_eq_false_iff_not] at hs
  refine ⟨s, hr, fun hsafe => ?_⟩
  obtain ⟨q, hq, hwq⟩ := hsafe 2 1 hs.1 1 rfl
  obtain rfl : q = 0 := by omega
  exact hs.2 hwq

end OsLab.A5
