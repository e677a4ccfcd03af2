import Mathlib.Data.List.Basic
import OsLab.Lib.Loop

/-!
# The shuffle of Fisher and Yates

`draw i` decides what changes places with entry `i`. Whatever is drawn, no access is outside the array and its entries
are the old ones in another order: `exists_shuffle`. Shuffled from `0, ..., n - 1`, each number below `n` is at exactly one
index below `n`.
-/

namespace Shuffle

variable {α : Type*}

/-- `t = a[i]; a[i] = a[j]; a[j] = t`; `none` outside of the array. -/
def swap (i j : ℕ) (a : List α) : Option (List α) := a[i]?.bind fun t => a[j]?.map fun u => (a.set i u).set j t

/-- Entry `i` changes places with one of the entries from `i` on. -/
def shuffle (n : ℕ) (draw : ℕ → ℕ) : List α → Option (List α) :=
  Loop.upTo 0 n fun i => swap i (i + draw i % (n - i))

theorem exists_swap {i j : ℕ} {a : List α} (hi : i < a.length) (hj : j < a.length) :
    ∃ b, swap i j a = some b ∧ b.Perm a := by
  refine ⟨(a.set i a[j]).set j a[i], ?_, List.set_set_perm hi hj⟩
  rw [swap, List.getElem?_eq_getElem hi, List.getElem?_eq_getElem hj]
  rfl

/-- **A shuffle permutes**, whatever is drawn. -/
theorem exists_shuffle {n : ℕ} (draw : ℕ → ℕ) {a : List α} (hn : a.length = n) :
    ∃ b, shuffle n draw a = some b ∧ b.Perm a := by
  refine Loop.upTo_rule (I := fun _ b => List.Perm b a) (Nat.zero_le n) (fun i b _ hi hb => ?_) (List.Perm.refl a)
  have hlength : b.length = n := hb.length_eq.trans hn
  have hdraw : draw i % (n - i) < n - i := Nat.mod_lt _ (by omega)
  obtain ⟨c, hc, hperm⟩ := exists_swap (show i < b.length by omega) (show i + draw i % (n - i) < b.length by omega)
  exact ⟨c, hc, hperm.trans hb⟩

/-! ## The numbers below `n` in some order -/

section
variable {n a b v : ℕ} {l : List ℕ}

theorem exists_entry (h : l.Perm (List.range n)) (ha : a < n) : ∃ v, l[a]? = some v :=
  ⟨_, List.getElem?_eq_getElem (by rw [h.length_eq, List.length_range]; exact ha)⟩

theorem exists_index (h : l.Perm (List.range n)) (hv : v < n) : ∃ a : ℕ, l[a]? = some v :=
  List.mem_iff_getElem?.1 (h.mem_iff.2 (List.mem_range.2 hv))

theorem index_lt (h : l.Perm (List.range n)) (ha : l[a]? = some v) : a < n := by
  rw [← List.length_range (n := n), ← h.length_eq]
  exact (List.getElem?_eq_some_iff.1 ha).1

theorem entry_lt (h : l.Perm (List.range n)) (ha : l[a]? = some v) : v < n :=
  List.mem_range.1 (h.mem_iff.1 (List.mem_of_getElem? ha))

theorem index_inj (h : l.Perm (List.range n)) (ha : l[a]? = some v) (hb : l[b]? = some v) : a = b := by
  have hnodup : l.Nodup := h.nodup_iff.2 List.nodup_range
  exact (List.getElem?_inj (List.getElem?_eq_some_iff.1 ha).1 hnodup).1 (ha.trans hb.symm)

end

end Shuffle
