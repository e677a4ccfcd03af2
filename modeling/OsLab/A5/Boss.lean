import OsLab.A5.Topo
import OsLab.Lib.Shuffle

/-!
# The boss of the topological sort (A5/boss.c)

| here | there |
| --- | --- |
| `Workers.boss`   | the loop of the `P(ntfy)` (:75-77), one for each worker |
| `entries T m`    | `T[0], ..., T[m-1]`, what is printed for `m = n` (:82-84) |
| `matrix n A`     | the shared memory `A` read as the matrix that has been stored in it (:32-36) |
| `check`          | the two loops behind it (:89-96); `false`: "Invalid topological sort" |

The boss takes no lock when it reads `T`. It need not: with the `n`-th `P(ntfy)` it has one token from each worker
(`Notified`), and a worker notifies behind its critical section. `check` looks at the pairs of positions only, which finds a
missing vertex as one that is there twice.
-/

namespace OsLab.A5

/-- The first entries of an array. -/
def entries (T : Nat → Nat) (m : Nat) : List Nat := (List.range m).map T

/-- `A[i*n+j]`. -/
def matrix (n : Nat) (A : Nat → Int) : Fin n → Fin n → Int := fun i j => A (i * n + j)

/-- `return` in the middle of the loops is the first pair that `all` finds wanting. -/
def check (n : Nat) (A : Nat → Int) (T : Nat → Nat) : Bool :=
  (List.range n).all fun i => (List.range' (i + 1) (n - (i + 1))).all fun j =>
    !(A (T j * n + T i) = 1 || T i = T j)

/-! ## What the boss waits for -/

/-- Behind `(*idx)++`. -/
def WorkerPc.counted : WorkerPc → Bool
  | .unlock | .ntfy | .post _ | .done => true
  | .wait _ | .lock | .store | .incr => false

/-- Behind the critical section. -/
def WorkerPc.left : WorkerPc → Bool
  | .ntfy | .post _ | .done => true
  | .wait _ | .lock | .store | .incr | .unlock => false

/-- Behind `V(ntfy)`. -/
def WorkerPc.notified : WorkerPc → Bool
  | .post _ | .done => true
  | .wait _ | .lock | .store | .incr | .unlock | .ntfy => false

/-- The tokens of `ntfy`, taken or not, are from the workers behind their `V(ntfy)`, one from each. -/
def Notified {n : Nat} (s : Workers n) : Prop := s.boss + s.ntfy = ∑ i, if (s.pc i).notified then 1 else 0

section
variable {n : Nat} {A : Fin n → Fin n → Int} {s s' : Workers n} {l : List (Fin n)}

theorem Notified.init (T0 : Nat → Nat) : Notified (Workers.init T0 : Workers n) := by
  simp [Notified, Workers.init, WorkerPc.notified]

/-- Worker `i` goes to `p`, and `ntfy` follows. -/
theorem Notified.goto (N : Notified s) {s₁ : Workers n} {i : Fin n} {p : WorkerPc} (hpc : s₁.pc = s.pc)
    (hboss : s₁.boss = s.boss)
    (hntfy : s₁.ntfy + (if (s.pc i).notified then 1 else 0) = s.ntfy + if p.notified then 1 else 0) :
    Notified (s₁.goto i p) := by
  have hsum := sum_goto s₁ (fun _ q => if q.notified then 1 else 0) i p
  rw [hpc] at hsum
  unfold Notified at N ⊢
  show s₁.boss + s₁.ntfy = _
  omega

theorem Notified.step (N : Notified s) {a : Actor n} (h : s.step A a = some s') : Notified s' := by
  cases a with
  | boss =>
    rw [Workers.step, Option.ite_none_right_eq_some, Option.some.injEq] at h
    obtain ⟨⟨-, hpos⟩, rfl⟩ := h
    unfold Notified at N ⊢
    dsimp only
    omega
  | worker i =>
    cases Workers.move_of_step A h with
    | ntfy i hpc => exact N.goto rfl rfl (by simp [hpc, WorkerPc.notified])
    | take i j hpc | taken i j hpc | lock i hpc | store i hpc | incr i hpc | unlock i hpc | post i j hpc | skip i j hpc
    | posted i j hpc => exact N.goto rfl rfl (by simp [hpc, WorkerPc.notified, Workers.syncV])

theorem notified_of_reach {T0 : Nat → Nat} (hr : Trans.Reach (Workers.step A) (Workers.init T0) s) : Notified s :=
  hr.inv (Notified.init T0) fun _ _ _ _ N _ h => N.step h

/-- The `n`-th token is from the last worker. -/
theorem Notified.all (N : Notified s) (hboss : s.boss = n) (i : Fin n) : (s.pc i).notified = true := by
  by_contra hi
  have hlt : ∑ k, (if (s.pc k).notified then 1 else 0) < ∑ _k : Fin n, 1 := by
    refine Finset.sum_lt_sum (fun k _ => ?_) ⟨i, Finset.mem_univ i, ?_⟩
    · split <;> omega
    · rw [if_neg hi]
      exact Nat.one_pos
  have hall : ∑ _k : Fin n, 1 = n := by simp
  unfold Notified at N
  omega

/-! ## What is in `T` -/

section
variable {T : Nat → Nat}

/-- `n` numbers below `n` that are all different leave none out. -/
theorem entries_perm (hT : ∀ p < n, T p < n) : (entries T n).Perm (List.range n) ↔ (entries T n).Nodup := by
  constructor
  · intro hperm
    exact hperm.nodup_iff.2 List.nodup_range
  · intro hnodup
    have hsubset : entries T n ⊆ List.range n := by
      intro v hv
      obtain ⟨p, hp, rfl⟩ := List.mem_map.1 hv
      exact List.mem_range.2 (hT p (List.mem_range.1 hp))
    refine (hnodup.subperm hsubset).perm_of_length_le ?_
    simp [entries]

end

theorem Recorded.entries_eq (R : Recorded s l) {m : Nat} (hm : m ≤ l.length) : entries s.T m = (l.take m).map Fin.val := by
  refine List.ext_getElem (by simp [entries, hm]) fun p hp hp' => ?_
  have hp : p < m := by simpa [entries] using hp
  have hl : p < l.length := by omega
  simpa [entries] using R.T p _ (List.getElem?_eq_getElem hl)

/-- `idx` counts the workers that are behind its increment. -/
theorem Recorded.mem_take (R : Recorded s l) (i : Fin n) : i ∈ l.take s.idx ↔ (s.pc i).counted = true := by
  have hcounted : (s.pc i).counted = true ↔ (s.pc i).recorded = true ∧ s.pc i ≠ .incr := by
    cases s.pc i <;> simp [WorkerPc.counted, WorkerPc.recorded]
  rw [hcounted, ← R.mem]
  by_cases h : ∃ k, s.pc k = .incr
  · obtain ⟨k, hk⟩ := h
    obtain ⟨hlength, hlast⟩ := R.last k hk
    have hl : l = l.take s.idx ++ [k] := by
      conv_lhs => rw [← List.take_of_length_le hlength.ge, List.take_add_one, hlast]
      rfl
    have hnodup : (l.take s.idx ++ [k]).Nodup := hl ▸ R.nodup
    have hk' : k ∉ l.take s.idx := fun hmem => List.disjoint_of_nodup_append hnodup hmem (List.mem_singleton.2 rfl)
    constructor
    · intro hi
      refine ⟨List.mem_of_mem_take hi, fun hpc => hk' ?_⟩
      obtain rfl : k = i := Option.some.inj (hlast.symm.trans (R.last i hpc).2)
      exact hi
    · rintro ⟨hi, hpc⟩
      rw [hl, List.mem_append, List.mem_singleton] at hi
      exact hi.resolve_right fun e => hpc (e ▸ hk)
  · have hall : l.take s.idx = l := List.take_of_length_le (R.idx fun k hk => h ⟨k, hk⟩).ge
    rw [hall]
    exact ⟨fun hi => ⟨hi, fun hpc => h ⟨i, hpc⟩⟩, fun hi => hi.1⟩

/-- When the boss has all its tokens the list is complete. -/
theorem Recorded.complete (R : Recorded s l) (N : Notified s) (hboss : s.boss = n) :
    s.idx = n ∧ l.length = n ∧ ∀ i, i ∈ l := by
  have hpc := N.all hboss
  have hmem : ∀ i, i ∈ l := by
    intro i
    have hi := hpc i
    rw [R.mem]
    cases h : s.pc i <;> rw [h] at hi <;> first | rfl | cases hi
  have hlength : l.length = n := by
    have huniv : l.toFinset = Finset.univ := Finset.eq_univ_iff_forall.2 fun i => List.mem_toFinset.2 (hmem i)
    rw [← List.toFinset_card_of_nodup R.nodup, huniv, Finset.card_univ, Fintype.card_fin]
  refine ⟨?_, hlength, hmem⟩
  rw [R.idx fun i hi => ?_, hlength]
  have hi' := hpc i
  rw [hi] at hi'
  cases hi'

theorem Recorded.perm (R : Recorded s l) (N : Notified s) (hboss : s.boss = n) : (entries s.T n).Perm (List.range n) := by
  obtain ⟨-, hlength, -⟩ := R.complete N hboss
  have hentries : entries s.T n = l.map Fin.val := by
    rw [R.entries_eq hlength.ge, List.take_of_length_le hlength.le]
  refine (entries_perm fun p hp => ?_).2 ?_
  · have hmem : s.T p ∈ entries s.T n := List.mem_map.2 ⟨p, List.mem_range.2 hp, rfl⟩
    rw [hentries] at hmem
    obtain ⟨i, -, hi⟩ := List.mem_map.1 hmem
    rw [← hi]
    exact i.isLt
  · rw [hentries]
    exact R.nodup.map Fin.val_injective

/-- **Every worker is recorded once, before the boss reads**: in every reachable state the entries counted are of different
workers, outside of the critical section of those that have left it, and behind its `n`-th `P(ntfy)` the boss finds a
permutation. -/
theorem recorded_once (A : Fin n → Fin n → Int) (T0 : Nat → Nat)
    (hr : Trans.Reach (Workers.step A) (Workers.init T0) s) :
    (entries s.T s.idx).Nodup ∧
    (∀ v, v ∈ entries s.T s.idx ↔ ∃ i, (s.pc i).counted = true ∧ i.val = v) ∧
    ((∀ i, (s.pc i).inCS = false) → ∀ v, v ∈ entries s.T s.idx ↔ ∃ i, (s.pc i).left = true ∧ i.val = v) ∧
    (s.boss = n → s.idx = n ∧ (entries s.T n).Perm (List.range n)) := by
  obtain ⟨-, l, R, -⟩ := exists_recorded hr
  have hentries := R.entries_eq R.idx_le
  have hmem : ∀ v, v ∈ entries s.T s.idx ↔ ∃ i, (s.pc i).counted = true ∧ i.val = v := by
    intro v
    rw [hentries, List.mem_map]
    simp only [R.mem_take]
  have hnodup : (entries s.T s.idx).Nodup := by
    rw [hentries]
    exact (R.nodup.sublist (List.take_sublist _ _)).map Fin.val_injective
  refine ⟨hnodup, hmem, fun hcs v => ?_, fun hboss => ?_⟩
  · rw [hmem]
    refine exists_congr fun i => and_congr_left fun _ => ?_
    have hi := hcs i
    cases h : s.pc i <;> rw [h] at hi <;> simp [WorkerPc.counted, WorkerPc.left, WorkerPc.inCS] at hi ⊢
  · have N := notified_of_reach hr
    exact ⟨(R.complete N hboss).1, R.perm N hboss⟩

/-- The workers of the path `0 → 1`, one after the other. -/
theorem recorded_once_path : ∃ s : Workers 2, Trans.Reach (Workers.step (path 2)) (Workers.init fun _ => 0) s ∧
    s.boss = 2 ∧ s.idx = 2 ∧ (entries s.T 2).Perm (List.range 2) := by
  obtain ⟨s, hr, hs⟩ := Trans.exists_reach_of_run (Workers.step (path 2)) (Workers.init fun _ => 0)
    (List.replicate 9 (.worker 0) ++ .boss :: List.replicate 7 (.worker 1) ++ [.boss]) (fun s => s.boss == 2) (by decide)
  have hboss : s.boss = 2 := by simpa using hs
  exact ⟨s, hr, hboss, (recorded_once (path 2) (fun _ => 0) hr).2.2.2 hboss⟩

end

/-! ## The check -/

section
variable {n : Nat} {A : Nat → Int} {T : Nat → Nat}

end

end OsLab.A5
