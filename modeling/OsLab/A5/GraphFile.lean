import OsLab.A5.Boss
import OsLab.A5.Gengraph
import OsLab.Lib.Scan

/-!
# From the random graph to the sorted one (A5/gengraph.c, A5/boss.c)

| here | there |
| --- | --- |
| `Gengraph.entry`, `.printed` | the `printf`s (gengraph.c:29-33) |
| `readEntry`, `readGraph`     | the `fscanf`s (boss.c:26, :30-34); `A₀`, `n₀` is what the memory holds before |
| `verdict`                    | what the boss prints behind its `n` `P(ntfy)` (:80-96) |

The two programs agree on the file: the boss reads the numbers of the matrix row by row where gengraph has printed them so,
and neither the blank behind the last number of a row nor the newline keeps `%d` from going on. The workers have the matrix
in shared memory and never write to it.
-/

namespace OsLab.A5

open CString (decimal)
open Function (update)
open Scan (Spells scanInto)

/-! ## What gengraph prints -/

namespace Gengraph

/-- `"%d "`. -/
def entry (s : Graph) (i j : Nat) : List Char := decimal ((s.A.val (i, j)).getD 0) ++ [' ']

def printed (n : Nat) (s : Graph) : List Char :=
  decimal n ++ '\n' :: (List.range n).flatMap fun i => (List.range n).flatMap (entry s i) ++ ['\n']

end Gengraph

/-! ## What the boss reads -/

/-- The shared memory and what is left of the file. -/
structure Reading where
  A : Nat → Int
  rest : List Char

/-- `fscanf(fp, "%d", &A[i*n+j])`. -/
def readEntry (n i j : Nat) (r : Reading) : Reading :=
  let (x, rest) := scanInto (r.A (i * n + j)) r.rest
  ⟨update r.A (i * n + j) x, rest⟩

def readRow (n i : Nat) : Reading → Option Reading := Loop.upTo 0 n fun j r => some (readEntry n i j r)

section
variable {n i j : Nat} {a : Nat → Nat → Int} {r : Reading}

/-- The entries before row `i`, column `j` are those of `a`, and the others are still in the file. -/
structure Has (n : Nat) (a : Nat → Nat → Int) (i j : Nat) (r : Reading) : Prop where
  stored : ∀ u v, u < i ∨ u = i ∧ v < j → v < n → r.A (u * n + v) = a u v
  left : Spells ((List.range' j (n - j)).map (a i) ++
    (List.range' (i + 1) (n - (i + 1))).flatMap fun u => (List.range n).map (a u)) r.rest

theorem Has.entry (H : Has n a i j r) (hj : j < n) : Has n a i (j + 1) (readEntry n i j r) := by
  have hleft := H.left
  have hsplit : List.range' j (n - j) = j :: List.range' (j + 1) (n - (j + 1)) := by
    rw [show n - j = n - (j + 1) + 1 by omega, List.range'_succ]
  rw [hsplit, List.map_cons, List.cons_append] at hleft
  obtain ⟨rest, hscan, hrest⟩ := hleft.scanInto (r.A (i * n + j))
  refine ⟨fun u v huv hv => ?_, ?_⟩
  · rw [readEntry, hscan]
    by_cases hnew : u * n + v = i * n + j
    · -- no two entries have the same index
      have hu : u = i := by
        rcases huv with hlt | ⟨rfl, -⟩
        · have hrow : (u + 1) * n ≤ i * n := Nat.mul_le_mul_right n hlt
          rw [Nat.succ_mul] at hrow
          omega
        · rfl
      subst hu
      obtain rfl : v = j := by omega
      exact Function.update_self _ _ _
    · dsimp only
      rw [Function.update_of_ne hnew]
      refine H.stored u v ?_ hv
      rcases huv with hlt | ⟨rfl, hlt⟩
      · exact .inl hlt
      · refine .inr ⟨rfl, ?_⟩
        have hne : v ≠ j := by
          rintro rfl
          exact hnew rfl
        omega
  · rw [readEntry, hscan]
    exact hrest

/-- The rows before `i` are those of `a`. -/
structure Rows (n : Nat) (a : Nat → Nat → Int) (i : Nat) (r : Reading) : Prop where
  stored : ∀ u v, u < i → v < n → r.A (u * n + v) = a u v
  left : Spells ((List.range' i (n - i)).flatMap fun u => (List.range n).map (a u)) r.rest

theorem Rows.row (H : Rows n a i r) (hi : i < n) : ∃ r', readRow n i r = some r' ∧ Rows n a (i + 1) r' := by
  have hleft := H.left
  have hsplit : List.range' i (n - i) = i :: List.range' (i + 1) (n - (i + 1)) := by
    rw [show n - i = n - (i + 1) + 1 by omega, List.range'_succ]
  rw [hsplit, List.flatMap_cons, List.range_eq_range'] at hleft
  have hstart : Has n a i 0 r := by
    refine ⟨fun u v huv hv => ?_, ?_⟩
    · rcases huv with hlt | ⟨-, h0⟩
      · exact H.stored u v hlt hv
      · exact absurd h0 (Nat.not_lt_zero v)
    · rw [Nat.sub_zero, List.range_eq_range']
      exact hleft
  obtain ⟨r', hr', H'⟩ : ∃ r', readRow n i r = some r' ∧ Has n a i n r' := by
    refine Loop.upTo_rule (I := fun j r => Has n a i j r) (Nat.zero_le n) ?_ hstart
    intro j r _ hj H'
    exact ⟨_, rfl, H'.entry hj⟩
  refine ⟨r', hr', fun u v hu hv => ?_, ?_⟩
  · rcases Nat.lt_succ_iff_lt_or_eq.1 hu with hlt | rfl
    · exact H'.stored u v (.inl hlt) hv
    · exact H'.stored u v (.inr ⟨rfl, hv⟩) hv
  · have hrest := H'.left
    rw [Nat.sub_self] at hrest
    exact hrest

end

/-- What gengraph prints spells it out. -/
theorem Gengraph.printed_spells {n : Nat} (hn : n < 2 ^ 31) {s : Gengraph.Graph}
    (h01 : ∀ i j : Fin n, s.matrix n i j = 0 ∨ s.matrix n i j = 1) :
    Spells (n :: (List.range n).flatMap fun u => (List.range n).map fun v => (s.A.val (u, v)).getD 0)
      (Gengraph.printed n s) := by
  have hrow : ∀ u ∈ List.range n, Spells ((List.range n).map fun v => (s.A.val (u, v)).getD 0)
      ((List.range n).flatMap (Gengraph.entry s u) ++ ['\n']) := by
    intro u hu
    have hentries : Spells ((List.range n).flatMap fun v => [(s.A.val (u, v)).getD 0])
        ((List.range n).flatMap (Gengraph.entry s u)) := by
      apply Spells.flatMap
      intro v hv
      have hvalue := h01 ⟨u, List.mem_range.1 hu⟩ ⟨v, List.mem_range.1 hv⟩
      rw [Gengraph.Graph.matrix] at hvalue
      dsimp only at hvalue
      refine .number ?_ ?_ (by decide) .nil
      · omega
      · omega
    rw [← List.map_eq_flatMap] at hentries
    have hend := hentries.append (Spells.nil.blank (show CString.isSpace '\n' by decide))
    rwa [List.append_nil] at hend
  exact .number (by omega) (by omega) (by decide) (Spells.flatMap hrow)

end OsLab.A5
