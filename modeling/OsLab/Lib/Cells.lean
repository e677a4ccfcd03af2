import Mathlib.Data.Finset.Insert
import Mathlib.Data.Nat.Notation
import Mathlib.Data.Set.Insert
import Mathlib.Logic.Function.Basic

/-!
# Arrays that are filled once

An array as it comes from the allocation has cells of which nothing is known. `Cells` keeps for each of them what has been
stored last and how often. `Filled` says that some of them have been stored to once and the others never; `Filled.store` is
its only rule: a store to a cell of the others.
-/

structure Cells (κ α : Type*) where
  room : Finset κ
  val : κ → Option α
  stores : κ → ℕ

namespace Cells

variable {κ α : Type*} [DecidableEq κ]

def alloc (room : Finset κ) : Cells κ α := ⟨room, fun _ => none, fun _ => 0⟩

/-- `none` outside of the array. -/
def store (c : Cells κ α) (k : κ) (v : α) : Option (Cells κ α) :=
  if k ∈ c.room then
    some { c with val := Function.update c.val k (some v), stores := Function.update c.stores k (c.stores k + 1) }
  else none

/-- The cells in `S` have been stored to, each of them once and with a value as `R` wants it. -/
structure Filled (room : Finset κ) (R : κ → α → Prop) (S : Set κ) (c : Cells κ α) : Prop where
  room : c.room = room
  once : ∀ k ∈ S, c.stores k = 1 ∧ ∃ v, c.val k = some v ∧ R k v
  fresh : ∀ k, k ∉ S → c.stores k = 0

variable {room : Finset κ} {R : κ → α → Prop} {S : Set κ} {c : Cells κ α}

omit [DecidableEq κ] in
theorem filled_alloc (room : Finset κ) (R : κ → α → Prop) : Filled room R ∅ (alloc room) :=
  ⟨rfl, fun _ hk => hk.elim, fun _ _ => rfl⟩

theorem Filled.store (F : Filled room R S c) {k : κ} {v : α} (hroom : k ∈ room) (hk : k ∉ S) (hv : R k v) :
    ∃ c', c.store k v = some c' ∧ Filled room R (insert k S) c' := by
  refine ⟨_, if_pos (F.room ▸ hroom), F.room, fun l hl => ?_, fun l hl => ?_⟩
  · dsimp only
    rcases Set.mem_insert_iff.1 hl with rfl | hl
    · rw [Function.update_self, Function.update_self, F.fresh l hk]
      exact ⟨rfl, v, rfl, hv⟩
    · have hne : l ≠ k := fun h => hk (h ▸ hl)
      rw [Function.update_of_ne hne, Function.update_of_ne hne]
      exact F.once l hl
  · have hl := not_or.1 fun h => hl (Set.mem_insert_iff.2 h)
    exact (Function.update_of_ne hl.1 _ _).trans (F.fresh l hl.2)

end Cells
