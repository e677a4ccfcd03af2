import Mathlib.Data.Fintype.EquivFin
import Mathlib.Logic.Relation
import Mathlib.Order.WellFounded

/-!
# The tree unfolded from an acyclic child function

A node may be below several others, so that the children form a graph; unfolded from one of its nodes, an acyclic one
gives a finite tree. `preorder` lists its nodes with their depths, `forest_drop` is the rule for a traversal that
keeps the children it has still to visit.
-/

/-- Every way down ends. -/
structure Unfold (α : Type*) where
  children : α → List α
  wf : WellFounded fun c p => c ∈ children p

namespace Unfold

variable {α : Type*}

/-- **A graph with finitely many parents and no cycle** is well founded. -/
theorem wellFounded_of_acyclic {children : α → List α} {s : Set α} (hs : s.Finite)
    (hparents : ∀ p, children p ≠ [] → p ∈ s) (hacyclic : ∀ p, ¬ Relation.TransGen (fun c p => c ∈ children p) p p) :
    WellFounded fun c p => c ∈ children p := by
  have hfinite : Finite s := hs
  let below : s → s → Prop := fun c p => Relation.TransGen (fun c p => c ∈ children p) c.1 p.1
  have htrans : IsTrans s below := ⟨fun _ _ _ => Relation.TransGen.trans⟩
  have hirrefl : Std.Irrefl below := ⟨fun p => hacyclic p.1⟩
  have hwf : WellFounded below := Finite.wellFounded_of_trans_of_irrefl below
  have hleaf : ∀ p, p ∉ s → Acc (fun c p => c ∈ children p) p := by
    intro p hp
    refine ⟨p, fun c hc => absurd (hparents p fun h => ?_) hp⟩
    rw [h] at hc
    cases hc
  have hparent : ∀ p : s, Acc (fun c p => c ∈ children p) p.1 := by
    intro p
    induction p using hwf.induction with
    | _ p ih =>
      refine ⟨p.1, fun c hc => ?_⟩
      by_cases hcs : c ∈ s
      · exact ih ⟨c, hcs⟩ (.single hc)
      · exact hleaf c hcs
  refine ⟨fun p => ?_⟩
  by_cases hp : p ∈ s
  · exact hparent ⟨p, hp⟩
  · exact hleaf p hp

variable (t : Unfold α)

/-- The nodes of the tree below `x`, each before its children, with their depths; `x` is at depth `k`. -/
def preorder (k : ℕ) (x : α) : List (ℕ × α) :=
  (k, x) :: (t.children x).attach.flatMap fun c => preorder (k + 1) c.1
termination_by t.wf.wrap x
decreasing_by exact c.2

/-- The trees of the children from the `i`-th on. -/
def forest (k : ℕ) (x : α) (i : ℕ) : List (ℕ × α) := ((t.children x).drop i).flatMap (t.preorder k)

theorem preorder_eq (k : ℕ) (x : α) : t.preorder k x = (k, x) :: t.forest (k + 1) x 0 := by
  rw [preorder, forest, List.drop_zero]
  conv_rhs => rw [← List.attach_map_subtype_val (t.children x), List.flatMap_map]

variable {t}

theorem forest_drop {k i : ℕ} {x c : α} (h : (t.children x)[i]? = some c) :
    t.forest k x i = t.preorder k c ++ t.forest k x (i + 1) := by
  obtain ⟨hi, rfl⟩ := List.getElem?_eq_some_iff.1 h
  rw [forest, List.drop_eq_getElem_cons hi, List.flatMap_cons, forest]

theorem forest_end {k i : ℕ} {x : α} (h : (t.children x).length ≤ i) : t.forest k x i = [] := by
  rw [forest, List.drop_eq_nil_of_le h, List.flatMap_nil]

end Unfold
