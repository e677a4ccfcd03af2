import Mathlib.Algebra.BigOperators.Group.Finset.Basic
import Mathlib.Data.Finset.Max
import Mathlib.Dynamics.PeriodicPts.Defs

/-!
# Rooted trees as parent functions

A tree is given by the parent of every node; the root is its own parent and every node climbs to it.
`ofRank` makes a tree of a parent function that goes down in some rank. `leafSum v i` is the sum of `v` over the leaves
at or below `i`. `leafSum_eq_sum_children` is the equation by which a bottom-up computation of these sums is correct.
-/

open Finset

structure ParentTree (ι : Type*) where
  parent : ι → ι
  root : ι
  parent_root : parent root = root
  reaches : ∀ i, ∃ k, parent^[k] i = root

namespace ParentTree

variable {ι : Type*} (t : ParentTree ι)

/-- The parents of all nodes but the root have a smaller rank. -/
def ofRank (parent : ι → ι) (root : ι) (hroot : parent root = root) (rank : ι → ℕ)
    (hrank : ∀ i, i ≠ root → rank (parent i) < rank i) : ParentTree ι where
  parent := parent
  root := root
  parent_root := hroot
  reaches i := by
    induction hr : rank i using Nat.strong_induction_on generalizing i with
    | _ r ih =>
      by_cases hi : i = root
      · exact ⟨0, hi⟩
      · obtain ⟨k, hk⟩ := ih _ (hr ▸ hrank i hi) (parent i) rfl
        exact ⟨k + 1, hk⟩

/-- `j` is at or below `i`. -/
def Desc (i j : ι) : Prop := ∃ k, t.parent^[k] j = i

/-- `i` has no children. -/
def IsLeaf (i : ι) : Prop := ∀ j, t.parent j = i → j = i

theorem iterate_root (k : ℕ) : t.parent^[k] t.root = t.root := Function.iterate_fixed t.parent_root k

/-- The only node that climbs back to itself is the root. -/
theorem eq_root_of_cycle {i : ι} {m : ℕ} (hm : 0 < m) (h : t.parent^[m] i = i) : i = t.root := by
  obtain ⟨k, hk⟩ := t.reaches i
  have hp : Function.IsPeriodicPt t.parent (m * k) i := Function.IsPeriodicPt.mul_const h k
  have hmk : m * k = (m * k - k) + k := by
    have := Nat.le_mul_of_pos_left k hm
    omega
  calc i = t.parent^[m * k] i := hp.eq.symm
    _ = t.parent^[m * k - k] (t.parent^[k] i) := by rw [← Function.iterate_add_apply, ← hmk]
    _ = t.root := by rw [hk, t.iterate_root]

theorem eq_root_of_parent {i : ι} (h : t.parent i = i) : i = t.root := t.eq_root_of_cycle one_pos h

/-- Two children of one node with a common node at or below them are the same child. -/
theorem eq_of_common_desc {i c c' j : ι} (hc : t.parent c = i) (hc' : t.parent c' = i) (hi : c' ≠ i)
    {k k' : ℕ} (hk : t.parent^[k] j = c) (hk' : t.parent^[k'] j = c') (hle : k ≤ k') : c = c' := by
  rcases Nat.eq_or_lt_of_le hle with rfl | hlt
  · exact hk.symm.trans hk'
  · -- otherwise `i` is on a cycle through `c'`, so both are the root
    have hup : t.parent^[k' - k] c = c' := by
      rw [← hk, ← Function.iterate_add_apply, ← hk']; congr 2; omega
    have hcyc : t.parent^[k' - k] i = i := by
      rw [← hc, ← Function.iterate_succ_apply, Function.iterate_succ_apply', hup, hc', hc]
    have hroot : i = t.root := t.eq_root_of_cycle (by omega) hcyc
    obtain ⟨d, hd⟩ : ∃ d, k' - k = d + 1 := ⟨k' - k - 1, by omega⟩
    rw [hd, Function.iterate_succ_apply, hc, hroot, t.iterate_root] at hup
    exact absurd (hup.symm.trans hroot.symm) hi

/-- A node strictly below `i` is at or below a child of `i`. -/
theorem exists_child_of_desc {i j : ι} (h : t.Desc i j) (hj : j ≠ i) :
    ∃ c, t.parent c = i ∧ c ≠ i ∧ t.Desc c j := by
  classical
  -- the child is the last node on the way up that is not `i` yet
  obtain ⟨d, hd⟩ : ∃ d, Nat.find h = d + 1 := by
    refine ⟨Nat.find h - 1, ?_⟩
    have : Nat.find h ≠ 0 := fun h0 => hj ((Nat.find_eq_zero h).1 h0)
    omega
  have hspec := Nat.find_spec h
  rw [hd, Function.iterate_succ_apply'] at hspec
  exact ⟨_, hspec, Nat.find_min h (by omega), d, rfl⟩

theorem Desc.of_child {i c j : ι} (hc : t.parent c = i) (h : t.Desc c j) : t.Desc i j := by
  obtain ⟨k, hk⟩ := h
  exact ⟨k + 1, by rw [Function.iterate_succ_apply', hk, hc]⟩

variable [Fintype ι] [DecidableEq ι]

def children (i : ι) : Finset ι := univ.filter fun j => t.parent j = i ∧ j ≠ i

instance : DecidablePred t.IsLeaf := fun i => inferInstanceAs (Decidable (∀ j, t.parent j = i → j = i))

def leaves : Finset ι := univ.filter t.IsLeaf

@[simp] theorem mem_children {i j : ι} : j ∈ t.children i ↔ t.parent j = i ∧ j ≠ i := by simp [children]

@[simp] theorem mem_leaves {i : ι} : i ∈ t.leaves ↔ t.IsLeaf i := by simp [leaves]

theorem isLeaf_iff_children {i : ι} : t.IsLeaf i ↔ (t.children i).card = 0 := by
  rw [Finset.card_eq_zero, Finset.eq_empty_iff_forall_notMem]
  refine ⟨fun h j hj => ?_, fun h j hj => ?_⟩
  · rw [mem_children] at hj
    exact hj.2 (h j hj.1)
  · by_contra hne
    exact h j (t.mem_children.2 ⟨hj, hne⟩)

open Classical in
/-- The leaves at or below `i`. -/
noncomputable def leavesBelow (i : ι) : Finset ι := t.leaves.filter (t.Desc i)

theorem mem_leavesBelow {i j : ι} : j ∈ t.leavesBelow i ↔ t.IsLeaf j ∧ t.Desc i j := by
  simp [leavesBelow]

theorem leavesBelow_leaf {i : ι} (h : t.IsLeaf i) : t.leavesBelow i = {i} := by
  ext j
  rw [mem_leavesBelow, mem_singleton]
  constructor
  · rintro ⟨-, hd⟩
    by_contra hj
    obtain ⟨c, hc, hne, -⟩ := t.exists_child_of_desc hd hj
    exact hne (h c hc)
  · rintro rfl
    exact ⟨h, 0, rfl⟩

theorem leavesBelow_root : t.leavesBelow t.root = t.leaves := by
  ext j
  rw [mem_leavesBelow, mem_leaves]
  exact and_iff_left (t.reaches j)

theorem leavesBelow_internal {i : ι} (h : ¬ t.IsLeaf i) :
    t.leavesBelow i = (t.children i).biUnion t.leavesBelow := by
  ext j
  simp only [mem_leavesBelow, mem_biUnion, mem_children]
  constructor
  · rintro ⟨hl, hd⟩
    have hj : j ≠ i := by rintro rfl; exact h hl
    obtain ⟨c, hc, hne, hdc⟩ := t.exists_child_of_desc hd hj
    exact ⟨c, ⟨hc, hne⟩, hl, hdc⟩
  · rintro ⟨c, ⟨hc, -⟩, hl, hd⟩
    exact ⟨hl, hd.of_child t hc⟩

theorem leavesBelow_disjoint (i : ι) : (t.children i : Set ι).PairwiseDisjoint t.leavesBelow := by
  intro c hc c' hc' hne
  rw [mem_coe, mem_children] at hc hc'
  refine disjoint_left.2 fun j hj hj' => hne ?_
  rw [mem_leavesBelow] at hj hj'
  obtain ⟨-, k, hk⟩ := hj
  obtain ⟨-, k', hk'⟩ := hj'
  rcases Nat.le_total k k' with hle | hle
  · exact t.eq_of_common_desc hc.1 hc'.1 hc'.2 hk hk' hle
  · exact (t.eq_of_common_desc hc'.1 hc.1 hc.2 hk' hk hle).symm

/-- **Induction from the leaves up.** -/
theorem forall_of_children {p : ι → Prop} (h : ∀ i, (∀ c ∈ t.children i, p c) → p i) (i : ι) : p i := by
  classical
  by_contra hi
  -- a deepest node without `p`
  obtain ⟨j, hj, hmax⟩ := (univ.filter fun j => ¬ p j).exists_max_image (fun j => Nat.find (t.reaches j))
    ⟨i, mem_filter.2 ⟨mem_univ i, hi⟩⟩
  refine (mem_filter.1 hj).2 (h j fun c hc => ?_)
  by_contra hpc
  have hle := hmax c (mem_filter.2 ⟨mem_univ c, hpc⟩)
  obtain ⟨hcj, hne⟩ := t.mem_children.1 hc
  have hspec := Nat.find_spec (t.reaches c)
  cases hk : Nat.find (t.reaches c) with
  | zero =>
    rw [hk] at hspec
    obtain rfl : c = t.root := hspec
    exact hne (t.parent_root.symm.trans hcj)
  | succ k =>
    rw [hk, Function.iterate_succ_apply, hcj] at hspec
    have := Nat.find_min' (t.reaches j) hspec
    omega

/-! ## Sums over the leaves -/

variable {M : Type*} [AddCommMonoid M] (v : ι → M)

/-- The sum of `v` over the leaves at or below `i`. -/
noncomputable def leafSum (i : ι) : M := ∑ j ∈ t.leavesBelow i, v j

theorem leafSum_leaf {i : ι} (h : t.IsLeaf i) : t.leafSum v i = v i := by
  rw [leafSum, t.leavesBelow_leaf h, sum_singleton]

theorem leafSum_root : t.leafSum v t.root = ∑ j ∈ t.leaves, v j := by
  rw [leafSum, t.leavesBelow_root]

/-- **The sum of an internal node is the sum of its children's sums.** -/
theorem leafSum_eq_sum_children {i : ι} (h : ¬ t.IsLeaf i) :
    t.leafSum v i = ∑ c ∈ t.children i, t.leafSum v c := by
  rw [leafSum, t.leavesBelow_internal h, sum_biUnion (t.leavesBelow_disjoint i)]
  rfl

end ParentTree
