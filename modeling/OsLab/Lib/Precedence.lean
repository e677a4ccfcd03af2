import Mathlib.Algebra.BigOperators.Group.Finset.Basic
import Mathlib.Algebra.Order.BigOperators.Group.Finset
import Mathlib.Combinatorics.Enumerative.DoubleCounting
import Mathlib.Data.Fintype.Card
import Mathlib.Logic.Relation

/-!
# Precedence relations on a finite type

`r j i` says that `j` comes before `i`. The sets that contain the predecessors of their members are
the `Initial` ones; `Initial.induction` builds them up one element at a time. `cut_add_indegree` counts
the pairs that leave such a set. Where an element needs a token for each predecessor and leaves one for
each successor, `Servable` are the sets that can be served one after another from the tokens left, whoever
they were meant for. `Ordered r l` says that the list `l` respects `r` and misses no
predecessor.
-/

open Finset

namespace Precedence

variable {ι : Type*} (r : ι → ι → Prop)

def Acyclic : Prop := ∀ i, ¬ Relation.TransGen r i i

/-- `S` contains the predecessors of its members. -/
def Initial (S : Finset ι) : Prop := ∀ j i, r j i → i ∈ S → j ∈ S

variable {r} {S : Finset ι}

theorem acyclic_of_lt (f : ι → ℕ) (h : ∀ i j, r i j → f i < f j) : Acyclic r := by
  have hlt : ∀ i j, Relation.TransGen r i j → f i < f j := by
    intro i j hij
    induction hij with
    | single hj => exact h _ _ hj
    | tail _ hj ih => exact ih.trans (h _ _ hj)
  exact fun i hi => (hlt i i hi).false

/-- Every nonempty set has a member that precedes none of its members. -/
theorem Acyclic.exists_last [Finite ι] (h : Acyclic r) (hS : S.Nonempty) : ∃ i ∈ S, ∀ k ∈ S, ¬ r i k := by
  have : Std.Irrefl (Relation.TransGen (Function.swap r)) := ⟨fun i hi => h i (Relation.transGen_swap.1 hi)⟩
  have hwf := Finite.wellFounded_of_trans_of_irrefl (Relation.TransGen (Function.swap r))
  obtain ⟨i, hi, hlast⟩ := hwf.has_min (S : Set ι) hS
  exact ⟨i, hi, fun k hk hik => hlast k hk (.single hik)⟩

section
variable [DecidableEq ι]

theorem Initial.erase_last (hS : Initial r S) {i : ι} (hlast : ∀ k ∈ S, ¬ r i k) : Initial r (S.erase i) := by
  intro j k hjk hk
  rw [mem_erase] at hk ⊢
  exact ⟨fun e => hlast k hk.2 (e ▸ hjk), hS j k hjk hk.2⟩

/-- **Induction along an acyclic relation**: every initial set is reached from the empty one by adding
elements whose predecessors are in already. -/
theorem Initial.induction [Finite ι] (h : Acyclic r) {p : Finset ι → Prop} (empty : p ∅)
    (insert : ∀ S i, Initial r S → i ∉ S → (∀ j, r j i → j ∈ S) → p S → p (insert i S)) (S : Finset ι)
    (hS : Initial r S) : p S := by
  induction S using Finset.strongInduction with
  | H S ih =>
    rcases S.eq_empty_or_nonempty with rfl | hne
    · exact empty
    · obtain ⟨i, hi, hlast⟩ := h.exists_last hne
      have hE := hS.erase_last hlast
      rw [← insert_erase hi]
      refine insert _ i hE (notMem_erase i S) (fun j hj => ?_) (ih _ (erase_ssubset hi) hE)
      exact mem_erase.2 ⟨fun e => hlast i hi (e ▸ hj), hS j i hj hi⟩

end

/-! ## Counting -/

variable (r) [Fintype ι] [DecidableEq ι] [DecidableRel r]

def indegree (i : ι) : ℕ := (univ.filter (r · i)).card

def outdegree (i : ι) : ℕ := (univ.filter (r i)).card

/-- The number of pairs that leave `S`. -/
def cut (S : Finset ι) : ℕ := ∑ i ∈ S, (univ.filter fun k => r i k ∧ k ∉ S).card

variable {r}

omit [DecidableEq ι] in
/-- The pairs inside an initial set, counted at either end. -/
theorem Initial.sum_indegree (hS : Initial r S) : ∑ k ∈ S, indegree r k = ∑ i ∈ S, (S.filter (r i)).card := by
  have hin : ∀ k ∈ S, indegree r k = (S.filter (r · k)).card := by
    intro k hk
    rw [indegree]
    congr 1
    ext j
    simp only [mem_filter, mem_univ, true_and]
    exact ⟨fun hj => ⟨hS j k hj hk, hj⟩, fun hj => hj.2⟩
  rw [sum_congr rfl hin]
  exact (sum_card_bipartiteAbove_eq_sum_card_bipartiteBelow r).symm

/-- The pairs that start in an initial set end in it or leave it. -/
theorem Initial.cut_add_indegree (hS : Initial r S) :
    cut r S + ∑ i ∈ S, indegree r i = ∑ i ∈ S, outdegree r i := by
  rw [hS.sum_indegree, cut, ← sum_add_distrib]
  refine sum_congr rfl fun i _ => ?_
  rw [outdegree, ← card_union_of_disjoint]
  · congr 1
    ext k
    simp only [mem_union, mem_filter, mem_univ, true_and]
    tauto
  · refine disjoint_left.2 fun k hk hk' => ?_
    rw [mem_filter] at hk hk'
    exact hk.2.2 hk'.1

/-- Everything that precedes `i` is in `S`, so the pairs into `i` are among those that leave `S`. -/
theorem indegree_le_cut {i : ι} (hi : i ∉ S) (hpred : ∀ j, r j i → j ∈ S) : indegree r i ≤ cut r S := by
  have hset : univ.filter (r · i) = S.filter (r · i) := by
    ext j
    simp only [mem_filter, mem_univ, true_and]
    exact ⟨fun hj => ⟨hpred j hj, hj⟩, fun hj => hj.2⟩
  rw [indegree, hset, card_filter, cut]
  refine sum_le_sum fun j _ => ?_
  split
  · rename_i hj
    exact card_pos.2 ⟨i, by simp [hj, hi]⟩
  · exact Nat.zero_le _

omit [DecidableEq ι] in
theorem sum_indegree_eq_sum_outdegree : ∑ i, indegree r i = ∑ i, outdegree r i :=
  (sum_card_bipartiteAbove_eq_sum_card_bipartiteBelow r).symm

/-! ## Sets served from a common pool of tokens -/

variable (r)

/-- The sets that can be served one element after the other: `i` finds the tokens it needs among those that the
elements before it have left. -/
inductive Servable : Finset ι → Prop
  | empty : Servable ∅
  | insert {S : Finset ι} {i : ι} : Servable S → i ∉ S →
      ∑ k ∈ insert i S, indegree r k ≤ ∑ k ∈ S, outdegree r k → Servable (insert i S)

variable {r}

/-- Initial sets are served with the tokens meant for them. -/
theorem Initial.servable (h : Acyclic r) (S : Finset ι) (hS : Initial r S) : Servable r S := by
  refine Initial.induction h .empty (fun S i hS hi hpred ih => .insert ih hi ?_) S hS
  have hcut := hS.cut_add_indegree
  have hle := indegree_le_cut hi hpred
  rw [sum_insert hi]
  omega

/-! ## Ordered lists -/

variable (r)

omit [Fintype ι] [DecidableEq ι] [DecidableRel r]

/-- Every entry of `l` comes after all its predecessors. -/
def Ordered (l : List ι) : Prop := ∀ (p : ℕ) (i : ι), l[p]? = some i → ∀ j, r j i → ∃ q < p, l[q]? = some j

variable {r}

theorem Ordered.nil : Ordered r [] := fun p i h => by simp at h

theorem Ordered.concat {l : List ι} {i : ι} (h : Ordered r l) (hi : ∀ j, r j i → j ∈ l) :
    Ordered r (l ++ [i]) := by
  intro p k hk j hj
  rcases Nat.lt_or_ge p l.length with hp | hp
  · rw [List.getElem?_append_left hp] at hk
    obtain ⟨q, hq, hjq⟩ := h p k hk j hj
    exact ⟨q, hq, by rw [List.getElem?_append_left (by omega)]; exact hjq⟩
  · rw [List.getElem?_append_right hp, List.getElem?_singleton] at hk
    split at hk <;> cases hk
    obtain ⟨q, hq⟩ := List.mem_iff_getElem?.1 (hi j hj)
    have hlt : q < l.length := (List.getElem?_eq_some_iff.1 hq).1
    exact ⟨q, by omega, by rw [List.getElem?_append_left hlt]; exact hq⟩

theorem Ordered.mem {l : List ι} (h : Ordered r l) {i j : ι} (hi : i ∈ l) (hj : r j i) : j ∈ l := by
  obtain ⟨p, hp⟩ := List.mem_iff_getElem?.1 hi
  obtain ⟨q, -, hq⟩ := h p i hp j hj
  exact List.mem_of_getElem? hq

end Precedence
