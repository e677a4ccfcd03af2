import Mathlib.Algebra.BigOperators.Group.List.Basic
import Mathlib.Algebra.Order.Ring.Int
import Mathlib.Data.List.Induction
import Mathlib.Data.Set.Basic

/-!
# Schedules on one server

A server takes one job after the other and does each to its end. A job is there from `release` on, takes `dur` and
has the class `rank`, the smallest first. `Legal t₀ log rest` says that the server, free from `t₀` on, has served
`log` by the rules and that `rest` are the jobs it may still serve: no job starts before it is there, no two
overlap, nobody is passed over for a lower class, and the server is idle only while no job is there.

`Legal.serve` is the step: what has to hold when the next job starts.
-/

namespace Schedule

structure Slot (J : Type*) where
  job : J
  start : Int
deriving DecidableEq, Repr

variable {J : Type*} {release dur : J → Int} {rank : J → Nat} {t₀ t : Int} {log : List (Slot J)} {rest rest' : Set J}

def Slot.stop (dur : J → Int) (a : Slot J) : Int := a.start + dur a.job

/-- When the server is free again. -/
def freeAt (dur : J → Int) (t₀ : Int) (log : List (Slot J)) : Int := (log.getLast?.map (Slot.stop dur)).getD t₀

@[simp] theorem freeAt_nil (dur : J → Int) (t₀ : Int) : freeAt dur t₀ [] = t₀ := rfl

@[simp] theorem freeAt_concat (dur : J → Int) (t₀ : Int) (log : List (Slot J)) (a : Slot J) :
    freeAt dur t₀ (log ++ [a]) = a.stop dur := by
  simp [freeAt]

structure Legal (release dur : J → Int) (rank : J → Nat) (t₀ : Int) (log : List (Slot J)) (rest : Set J) : Prop where
  released : ∀ a ∈ log, t₀ ≤ a.start ∧ release a.job ≤ a.start
  disjoint : log.Pairwise fun a b => a.stop dur ≤ b.start
  priority : log.Pairwise fun a b => rank b.job < rank a.job → a.start < release b.job
  passed : ∀ a ∈ log, ∀ j ∈ rest, rank j < rank a.job → a.start < release j
  busy : ∀ done a todo, log = done ++ a :: todo → freeAt dur t₀ done < a.start →
    ∀ j, j ∈ rest ∨ (∃ b ∈ a :: todo, b.job = j) → a.start ≤ release j

namespace Legal

theorem nil (release dur : J → Int) (rank : J → Nat) (t₀ : Int) (rest : Set J) :
    Legal release dur rank t₀ [] rest where
  released _ h := absurd h List.not_mem_nil
  disjoint := .nil
  priority := .nil
  passed _ h := absurd h List.not_mem_nil
  busy _ _ _ h := absurd h (by simp)

/-- Some jobs will not be served. -/
theorem mono (L : Legal release dur rank t₀ log rest) (h : rest' ⊆ rest) : Legal release dur rank t₀ log rest' where
  released := L.released
  disjoint := L.disjoint
  priority := L.priority
  passed a ha j hj := L.passed a ha j (h hj)
  busy done a todo heq hidle j hj := L.busy done a todo heq hidle j (hj.imp (fun hj => h hj) id)

theorem stop_le (L : Legal release dur rank t₀ log rest) (hdur : ∀ a ∈ log, 0 ≤ dur a.job) :
    ∀ a ∈ log, a.stop dur ≤ freeAt dur t₀ log := by
  intro a ha
  rcases List.eq_nil_or_concat log with rfl | ⟨init, last, rfl⟩
  · exact absurd ha List.not_mem_nil
  · rw [List.concat_eq_append] at *
    rw [freeAt_concat]
    rcases List.mem_append.1 ha with hinit | hlast
    · have hle := (List.pairwise_append.1 L.disjoint).2.2 a hinit last (by simp)
      have hpos := hdur last (by simp)
      exact hle.trans (by rw [Slot.stop]; omega)
    · rw [List.mem_singleton.1 hlast]

/-- The server is busy as long as all jobs together take. -/
theorem sum_le_freeAt (L : Legal release dur rank t₀ log rest) : t₀ + (log.map fun a => dur a.job).sum ≤ freeAt dur t₀ log := by
  have hreleased : ∀ a ∈ log, t₀ ≤ a.start := fun a ha => (L.released a ha).1
  have hdisjoint := L.disjoint
  clear L
  induction log using List.reverseRecOn with
  | nil => simp
  | append_singleton log a ih =>
    have hle := ih (fun b hb => hreleased b (List.mem_append_left _ hb)) (List.pairwise_append.1 hdisjoint).1
    have hstart : freeAt dur t₀ log ≤ a.start := by
      rcases List.eq_nil_or_concat log with rfl | ⟨init, last, rfl⟩
      · exact hreleased a (by simp)
      · rw [List.concat_eq_append] at hdisjoint ⊢
        rw [freeAt_concat]
        exact (List.pairwise_append.1 hdisjoint).2.2 last (by simp) a (by simp)
    rw [freeAt_concat, List.map_append, List.sum_append, List.map_singleton, List.sum_singleton, Slot.stop]
    omega

/-- **The next job starts** at `t`, when the server is free and the job is there. Of those that are left nobody
of a higher class is there, and if the server was idle before nobody was there before `t`. -/
theorem serve (L : Legal release dur rank t₀ log rest) (hdur : ∀ a ∈ log, 0 ≤ dur a.job) {j : J} (hj : j ∈ rest)
    (hrest : rest' ⊆ rest) (ht₀ : t₀ ≤ t) (hfree : freeAt dur t₀ log ≤ t) (hrelease : release j ≤ t)
    (hrank : ∀ l ∈ rest', rank l < rank j → t < release l)
    (hidle : freeAt dur t₀ log < t → ∀ l ∈ rest, t ≤ release l) :
    Legal release dur rank t₀ (log ++ [⟨j, t⟩]) rest' where
  released a ha := by
    rcases List.mem_append.1 ha with ha | ha
    · exact L.released a ha
    · obtain rfl := List.mem_singleton.1 ha
      exact ⟨ht₀, hrelease⟩
  disjoint := by
    refine List.pairwise_append.2 ⟨L.disjoint, List.pairwise_singleton _ _, fun a ha b hb => ?_⟩
    obtain rfl := List.mem_singleton.1 hb
    exact (L.stop_le hdur a ha).trans hfree
  priority := by
    refine List.pairwise_append.2 ⟨L.priority, List.pairwise_singleton _ _, fun a ha b hb => ?_⟩
    obtain rfl := List.mem_singleton.1 hb
    exact L.passed a ha j hj
  passed a ha l hl := by
    rcases List.mem_append.1 ha with ha | ha
    · exact L.passed a ha l (hrest hl)
    · obtain rfl := List.mem_singleton.1 ha
      exact hrank l hl
  busy done a todo heq hgap l hl := by
    rcases List.eq_nil_or_concat todo with rfl | ⟨todo, last, rfl⟩
    · -- `a` is the new job
      obtain ⟨rfl, hlast⟩ := List.append_inj' heq rfl
      obtain rfl := (List.cons.inj hlast).1
      rcases hl with hl | ⟨b, hb, rfl⟩
      · exact hidle hgap l (hrest hl)
      · obtain rfl := List.mem_singleton.1 hb
        exact hidle hgap j hj
    · rw [List.concat_eq_append, ← List.cons_append, ← List.append_assoc] at heq
      obtain ⟨rfl, hlast⟩ := List.append_inj' heq rfl
      obtain rfl := (List.cons.inj hlast).1
      refine L.busy done a todo rfl hgap l ?_
      rcases hl with hl | ⟨b, hb, rfl⟩
      · exact .inl (hrest hl)
      · rw [List.concat_eq_append, ← List.cons_append] at hb
        rcases List.mem_append.1 hb with hb | hb
        · exact .inr ⟨b, hb, rfl⟩
        · obtain rfl := List.mem_singleton.1 hb
          exact .inl hj

end Legal

end Schedule
