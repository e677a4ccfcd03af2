import Mathlib.Algebra.BigOperators.Group.Finset.Basic

/-!
# Sums with one term for each thread

When one thread moves, one term of such a sum changes. `update_eq_some` is the case split of the proofs about the thread
that moves and the others. `perm_flatMap` puts the lists of the threads together.
-/

namespace Tally

variable {ι κ α : Type*} [DecidableEq ι]

/-- What a function says after an update: the new value, or the old one elsewhere. -/
theorem update_eq_some {x : ι → Option α} {i j : ι} {a b : α} :
    Function.update x i (some a) j = some b ↔ j = i ∧ a = b ∨ j ≠ i ∧ x j = some b := by
  by_cases hj : j = i
  · subst hj
    simp
  · simp [hj]

/-- Changing one value changes one term of a sum; `g` says where the terms look. -/
theorem sum_update_of_mem [DecidableEq κ] (f : κ → α → ℕ) (x : ι → α) (g : κ → ι) {s : Finset κ} (hg : Set.InjOn g s)
    {k : κ} (hk : k ∈ s) (a : α) :
    ∑ l ∈ s, f l (Function.update x (g k) a (g l)) + f k (x (g k)) = ∑ l ∈ s, f l (x (g l)) + f k a := by
  have hrest : ∑ l ∈ s.erase k, f l (Function.update x (g k) a (g l)) = ∑ l ∈ s.erase k, f l (x (g l)) := by
    refine Finset.sum_congr rfl fun l hl => ?_
    obtain ⟨hne, hl⟩ := Finset.mem_erase.1 hl
    rw [Function.update_of_ne fun h => hne (hg hl hk h)]
  rw [← Finset.add_sum_erase _ _ hk, ← Finset.add_sum_erase _ (fun l => f l (x (g l))) hk, Function.update_self, hrest]
  omega

theorem sum_update [Fintype ι] (f : ι → α → ℕ) (x : ι → α) (i : ι) (a : α) :
    ∑ j, f j (Function.update x i a j) + f i (x i) = ∑ j, f j (x j) + f i a :=
  sum_update_of_mem f x id Function.injective_id.injOn (Finset.mem_univ i) a

/-- One term of the sum is another one. -/
theorem sum_of_eq_elsewhere [Fintype ι] {g g' : ι → ℕ} {i : ι} (h : ∀ j, j ≠ i → g' j = g j) :
    ∑ j, g' j + g i = ∑ j, g j + g' i := by
  have hg : g' = Function.update g i (g' i) := by
    funext j
    by_cases hj : j = i
    · rw [hj, Function.update_self]
    · rw [Function.update_of_ne hj, h j hj]
  have hsum := sum_update (fun _ a => a) g i (g' i)
  rwa [← hg] at hsum

/-- A list is made up of what belongs to each key. -/
theorem perm_flatMap {f : α → ι} {g : ι → List α} {ks : List ι} {l : List α} (hks : ks.Nodup) (hl : ∀ a ∈ l, f a ∈ ks)
    (h : ∀ k ∈ ks, l.filter (fun a => f a = k) = g k) : l.Perm (ks.flatMap g) := by
  induction ks generalizing l with
  | nil =>
    rw [List.eq_nil_iff_forall_not_mem.2 fun a ha => List.not_mem_nil (hl a ha)]
    exact .refl _
  | cons k ks ih =>
    rw [List.nodup_cons] at hks
    have hrest : (l.filter fun a => ¬ f a = k).Perm (ks.flatMap g) := by
      refine ih hks.2 (fun a ha => ?_) fun j hj => ?_
      · obtain ⟨ha, hne⟩ := List.mem_filter.1 ha
        exact (List.mem_cons.1 (hl a ha)).resolve_left (by simpa using hne)
      · have hne : j ≠ k := fun e => hks.1 (e ▸ hj)
        rw [← h j (List.mem_cons_of_mem _ hj), List.filter_filter]
        refine List.filter_congr fun a _ => ?_
        by_cases ha : f a = j
        · simp [ha, hne]
        · simp [ha]
    rw [List.flatMap_cons, ← h k List.mem_cons_self]
    refine (List.filter_append_perm (fun a => decide (f a = k)) l).symm.trans (List.Perm.append_left _ ?_)
    simpa using hrest

end Tally
