import Mathlib.Data.Finset.Prod
import OsLab.A5.Worker
import OsLab.Lib.Cells
import OsLab.Lib.Shuffle

/-!
# The random graph (A5/gengraph.c)

| here | there |
| --- | --- |
| `rand k`               | what the call of `rand()` returns that `k` calls have been made before |
| `edge r`               | `(double)r / (double)RAND_MAX <= p` (:25), for whatever `p` |
| `Shuffle.shuffle`      | the loop that shuffles `PERM` (:17-20) |
| `Graph.A`              | `A`, of `n` rows with `n` entries each (:14-15) |
| `pair`, `row`, `fill`  | the bodies of the loops that fill it (:21-28), and the loops |

The diagonal is written at `i`, the other entries through `PERM`. `Done` are the entries written so far; a pair of different
vertices is written when the first of the two in `PERM` has its turn, which is also what an edge has to go away from.
-/

namespace OsLab.A5.Gengraph

/-- The `n * n` entries (:14-15). -/
def cells (n : Nat) : Finset (Nat × Nat) := Finset.range n ×ˢ Finset.range n

/-- `A`, and how often `rand` has been called. -/
structure Graph where
  A : Cells (Nat × Nat) Int
  calls : Nat

/-- The body of the inner loop (:24-27). -/
def pair (PERM : List Nat) (rand : Nat → Nat) (edge : Nat → Bool) (i j : Nat) (s : Graph) : Option Graph :=
  PERM[i]?.bind fun u => PERM[j]?.bind fun v =>
    (s.A.store (u, v) (if edge (rand s.calls) then 1 else 0)).bind fun A =>
      (A.store (v, u) 0).map fun A => ⟨A, s.calls + 1⟩

/-- The body of the outer loop (:22-28). -/
def row (n : Nat) (PERM : List Nat) (rand : Nat → Nat) (edge : Nat → Bool) (i : Nat) (s : Graph) : Option Graph :=
  (s.A.store (i, i) 0).bind fun A => Loop.upTo (i + 1) n (pair PERM rand edge i) { s with A := A }

def fill (n : Nat) (PERM : List Nat) (rand : Nat → Nat) (edge : Nat → Bool) : Graph → Option Graph :=
  Loop.upTo 0 n (row n PERM rand edge)

/-- `PERM` and the graph when it is printed; `none` would be an access outside of one of the arrays. -/
def gengraph (n : Nat) (rand : Nat → Nat) (edge : Nat → Bool) : Option (List Nat × Graph) :=
  (Shuffle.shuffle n rand (List.range n)).bind fun PERM =>
    (fill n PERM rand edge ⟨.alloc (cells n), n⟩).map fun s => (PERM, s)

/-! ## Which entries have been written -/

/-- The entry of the vertices at `a` and `b` in `PERM`. -/
def At (PERM : List Nat) (a b : Nat) (k : Nat × Nat) : Prop := PERM[a]? = some k.1 ∧ PERM[b]? = some k.2

/-- The first `d` entries of the diagonal, and the pairs that have had their turn before `i`, `j`. -/
def Done (PERM : List Nat) (d i j : Nat) : Set (Nat × Nat) :=
  {k | k.1 = k.2 ∧ k.1 < d ∨ ∃ a b, a < b ∧ (a < i ∨ a = i ∧ b < j) ∧ (At PERM a b k ∨ At PERM b a k)}

/-- 0 or 1, and 1 only from an earlier vertex of `PERM` to a later one. -/
def Entry (PERM : List Nat) (k : Nat × Nat) (x : Int) : Prop :=
  x = 0 ∨ x = 1 ∧ ∃ a b, a < b ∧ At PERM a b k

section
variable {n d i j u v : Nat} {PERM : List Nat} {rand : Nat → Nat} {edge : Nat → Bool} {s : Graph}

/-- What the inner loop writes has not been written before. -/
theorem not_done (hperm : PERM.Perm (List.range n)) (hij : i < j) (hu : PERM[i]? = some u) (hv : PERM[j]? = some v) :
    (u, v) ∉ Done PERM d i j ∧ (v, u) ∉ Done PERM d i j ∧ u ≠ v := by
  have hne : u ≠ v := by
    rintro rfl
    exact absurd (Shuffle.index_inj hperm hu hv) (by omega)
  have hpair : ∀ a b, a < b → (a < i ∨ a = i ∧ b < j) →
      ¬ ((PERM[a]? = some u ∨ PERM[b]? = some u) ∧ (PERM[a]? = some v ∨ PERM[b]? = some v)) := by
    rintro a b hab hturn ⟨ha | ha, hb | hb⟩ <;>
      have hai := Shuffle.index_inj hperm ha hu <;> have hbj := Shuffle.index_inj hperm hb hv <;> omega
  refine ⟨?_, ?_, hne⟩
  · rintro (⟨h, -⟩ | ⟨a, b, hab, hturn, ⟨ha, hb⟩ | ⟨hb, ha⟩⟩)
    · exact hne h
    · exact hpair a b hab hturn ⟨.inl ha, .inr hb⟩
    · exact hpair a b hab hturn ⟨.inr hb, .inl ha⟩
  · rintro (⟨h, -⟩ | ⟨a, b, hab, hturn, ⟨ha, hb⟩ | ⟨hb, ha⟩⟩)
    · exact hne h.symm
    · exact hpair a b hab hturn ⟨.inr hb, .inl ha⟩
    · exact hpair a b hab hturn ⟨.inl ha, .inr hb⟩

theorem done_pair (hij : i < j) (hu : PERM[i]? = some u) (hv : PERM[j]? = some v) :
    insert (v, u) (insert (u, v) (Done PERM d i j)) = Done PERM d i (j + 1) := by
  ext k
  rw [Set.mem_insert_iff, Set.mem_insert_iff]
  constructor
  · rintro (rfl | rfl | hdiag | ⟨a, b, hab, hturn, hk⟩)
    · exact .inr ⟨i, j, hij, .inr ⟨rfl, by omega⟩, .inr ⟨hv, hu⟩⟩
    · exact .inr ⟨i, j, hij, .inr ⟨rfl, by omega⟩, .inl ⟨hu, hv⟩⟩
    · exact .inl hdiag
    · exact .inr ⟨a, b, hab, by omega, hk⟩
  · rintro (hdiag | ⟨a, b, hab, hturn, hk⟩)
    · exact .inr (.inr (.inl hdiag))
    · by_cases hold : a < i ∨ a = i ∧ b < j
      · exact .inr (.inr (.inr ⟨a, b, hab, hold, hk⟩))
      · obtain ⟨rfl, rfl⟩ : a = i ∧ b = j := by omega
        rcases hk with ⟨h1, h2⟩ | ⟨h2, h1⟩
        · exact .inr (.inl (Prod.ext (Option.some.inj (h1.symm.trans hu)) (Option.some.inj (h2.symm.trans hv))))
        · exact .inl (Prod.ext (Option.some.inj (h2.symm.trans hv)) (Option.some.inj (h1.symm.trans hu)))

theorem done_diagonal (i : Nat) : insert (i, i) (Done PERM i i 0) = Done PERM (i + 1) i (i + 1) := by
  ext ⟨u, v⟩
  rw [Set.mem_insert_iff, Prod.mk.injEq]
  constructor
  · rintro (⟨rfl, rfl⟩ | ⟨(rfl : u = v), hu⟩ | ⟨a, b, hab, hturn, hk⟩)
    · exact .inl ⟨rfl, Nat.lt_succ_self _⟩
    · exact .inl ⟨rfl, Nat.lt_succ_of_lt hu⟩
    · exact .inr ⟨a, b, hab, by omega, hk⟩
  · rintro (⟨(rfl : u = v), hu⟩ | ⟨a, b, hab, hturn, hk⟩)
    · rcases Nat.lt_succ_iff_lt_or_eq.1 hu with hlt | rfl
      · exact .inr (.inl ⟨rfl, hlt⟩)
      · exact .inl ⟨rfl, rfl⟩
    · exact .inr (.inr ⟨a, b, hab, by omega, hk⟩)

/-- Behind the inner loop. -/
theorem done_row (hperm : PERM.Perm (List.range n)) (i : Nat) : Done PERM d i n = Done PERM d (i + 1) 0 := by
  ext k
  constructor
  · rintro (hdiag | ⟨a, b, hab, hturn, hk⟩)
    · exact .inl hdiag
    · exact .inr ⟨a, b, hab, by omega, hk⟩
  · rintro (hdiag | ⟨a, b, hab, hturn, hk⟩)
    · exact .inl hdiag
    · have hb : b < n := by
        rcases hk with ⟨-, hb⟩ | ⟨hb, -⟩
        · exact Shuffle.index_lt hperm hb
        · exact Shuffle.index_lt hperm hb
      exact .inr ⟨a, b, hab, by omega, hk⟩

/-- Behind both loops every entry has been written. -/
theorem done_all (hperm : PERM.Perm (List.range n)) (hu : u < n) (hv : v < n) : (u, v) ∈ Done PERM n n 0 := by
  obtain ⟨a, ha⟩ := Shuffle.exists_index hperm hu
  obtain ⟨b, hb⟩ := Shuffle.exists_index hperm hv
  have han := Shuffle.index_lt hperm ha
  have hbn := Shuffle.index_lt hperm hb
  rcases Nat.lt_trichotomy a b with hlt | rfl | hlt
  · exact .inr ⟨a, b, hlt, .inl han, .inl ⟨ha, hb⟩⟩
  · exact .inl ⟨Option.some.inj (ha.symm.trans hb), hu⟩
  · exact .inr ⟨b, a, hlt, .inl hbn, .inr ⟨ha, hb⟩⟩

/-! ## The loops -/

theorem mem_cells : (u, v) ∈ cells n ↔ u < n ∧ v < n := by
  rw [cells, Finset.mem_product, Finset.mem_range, Finset.mem_range]

theorem pair_filled (hperm : PERM.Perm (List.range n)) (rand : Nat → Nat) (edge : Nat → Bool) (hij : i < j) (hj : j < n)
    (F : s.A.Filled (cells n) (Entry PERM) (Done PERM d i j)) :
    ∃ s', pair PERM rand edge i j s = some s' ∧ s'.A.Filled (cells n) (Entry PERM) (Done PERM d i (j + 1)) := by
  obtain ⟨u, hu⟩ := Shuffle.exists_entry hperm (show i < n by omega)
  obtain ⟨v, hv⟩ := Shuffle.exists_entry hperm hj
  have hun := Shuffle.entry_lt hperm hu
  have hvn := Shuffle.entry_lt hperm hv
  obtain ⟨huv, hvu, hne⟩ := not_done (d := d) hperm hij hu hv
  have hdrawn : Entry PERM (u, v) (if edge (rand s.calls) then 1 else 0) := by
    split
    · exact .inr ⟨rfl, i, j, hij, hu, hv⟩
    · exact .inl rfl
  obtain ⟨A, hA, F⟩ := F.store (mem_cells.2 ⟨hun, hvn⟩) huv hdrawn
  have hback : (v, u) ∉ insert (u, v) (Done PERM d i j) := by
    rw [Set.mem_insert_iff, Prod.mk.injEq]
    exact fun h => h.elim (fun h => hne h.2) hvu
  obtain ⟨A', hA', F⟩ := F.store (mem_cells.2 ⟨hvn, hun⟩) hback (.inl rfl)
  refine ⟨⟨A', s.calls + 1⟩, ?_, done_pair hij hu hv ▸ F⟩
  rw [pair, hu, Option.bind_some, hv, Option.bind_some, hA, Option.bind_some, hA', Option.map_some]

theorem row_filled (hperm : PERM.Perm (List.range n)) (rand : Nat → Nat) (edge : Nat → Bool) (hi : i < n)
    (F : s.A.Filled (cells n) (Entry PERM) (Done PERM i i 0)) :
    ∃ s', row n PERM rand edge i s = some s' ∧ s'.A.Filled (cells n) (Entry PERM) (Done PERM (i + 1) (i + 1) 0) := by
  have hfresh : (i, i) ∉ Done PERM i i 0 := by
    rintro (⟨-, h⟩ | ⟨a, b, hab, -, ⟨ha, hb⟩ | ⟨hb, ha⟩⟩)
    · exact Nat.lt_irrefl i h
    · exact absurd (Shuffle.index_inj hperm ha hb) (by omega)
    · exact absurd (Shuffle.index_inj hperm ha hb) (by omega)
  obtain ⟨A, hA, F⟩ := F.store (mem_cells.2 ⟨hi, hi⟩) hfresh (.inl rfl)
  rw [done_diagonal] at F
  have hloop : ∃ s', Loop.upTo (i + 1) n (pair PERM rand edge i) { s with A := A } = some s' ∧
      s'.A.Filled (cells n) (Entry PERM) (Done PERM (i + 1) i n) := by
    refine Loop.upTo_rule (I := fun j (s : Graph) => s.A.Filled (cells n) (Entry PERM) (Done PERM (i + 1) i j)) hi ?_ F
    intro j s hij hj F
    exact pair_filled hperm rand edge hij hj F
  obtain ⟨s', hs', F⟩ := hloop
  refine ⟨s', ?_, done_row hperm i ▸ F⟩
  rw [row, hA, Option.bind_some, hs']

theorem fill_filled (hperm : PERM.Perm (List.range n)) (rand : Nat → Nat) (edge : Nat → Bool) (calls : Nat) :
    ∃ s, fill n PERM rand edge ⟨.alloc (cells n), calls⟩ = some s ∧
      s.A.Filled (cells n) (Entry PERM) (Done PERM n n 0) := by
  have hnothing : Done PERM 0 0 0 = ∅ := by
    ext k
    refine iff_of_false ?_ (Set.notMem_empty k)
    rintro (⟨-, h⟩ | ⟨a, b, -, hturn, -⟩) <;> omega
  refine Loop.upTo_rule (I := fun i (s : Graph) => s.A.Filled (cells n) (Entry PERM) (Done PERM i i 0)) (Nat.zero_le n)
    (fun i s _ hi F => row_filled hperm rand edge hi F) ?_
  rw [hnothing]
  exact Cells.filled_alloc _ _

end

/-- The matrix that is printed. -/
def Graph.matrix (n : Nat) (s : Graph) : Fin n → Fin n → Int := fun i j => (s.A.val (i, j)).getD 0

/-- **A complete matrix without cycles**, whatever is drawn: `PERM` is a permutation, every entry is written once, with 0 or
1, and the diagonal with 0, and no vertex can be reached from itself. -/
theorem gengraph_acyclic (n : Nat) (rand : Nat → Nat) (edge : Nat → Bool) :
    ∃ PERM s, gengraph n rand edge = some (PERM, s) ∧ PERM.Perm (List.range n) ∧
      (∀ i j : Fin n, s.A.stores (i, j) = 1 ∧ s.A.val (i, j) = some (s.matrix n i j) ∧
        (s.matrix n i j = 0 ∨ s.matrix n i j = 1)) ∧
      (∀ i, s.matrix n i i = 0) ∧ Precedence.Acyclic (Edge (s.matrix n)) := by
  obtain ⟨PERM, hshuffle, hperm⟩ := Shuffle.exists_shuffle rand (List.length_range (n := n))
  obtain ⟨s, hs, F⟩ := fill_filled hperm rand edge n
  have hentry : ∀ i j : Fin n, s.A.stores (i, j) = 1 ∧ s.A.val (i, j) = some (s.matrix n i j) ∧
      Entry PERM (i, j) (s.matrix n i j) := by
    intro i j
    obtain ⟨honce, x, hx, hR⟩ := F.once (i, j) (done_all hperm i.isLt j.isLt)
    have hmatrix : s.matrix n i j = x := by rw [Graph.matrix, hx, Option.getD_some]
    exact ⟨honce, by rw [hx, hmatrix], hmatrix ▸ hR⟩
  -- an edge goes to a later place in `PERM`
  choose place hplace using fun i : Fin n => Shuffle.exists_index hperm i.isLt
  have hlater : ∀ i j, Edge (s.matrix n) i j → place i < place j := by
    intro i j hij
    obtain ⟨-, -, h0 | ⟨-, a, b, hab, ha, hb⟩⟩ := hentry i j
    · rw [Edge, h0] at hij
      cases hij
    · rwa [Shuffle.index_inj hperm (hplace i) ha, Shuffle.index_inj hperm (hplace j) hb]
  have hacyclic := Precedence.acyclic_of_lt place hlater
  have h01 : ∀ i j, s.matrix n i j = 0 ∨ s.matrix n i j = 1 := by
    intro i j
    obtain ⟨-, -, h0 | ⟨h1, -⟩⟩ := hentry i j
    · exact .inl h0
    · exact .inr h1
  refine ⟨PERM, s, ?_, hperm, fun i j => ⟨(hentry i j).1, (hentry i j).2.1, h01 i j⟩, fun i => ?_, hacyclic⟩
  · rw [gengraph, hshuffle, Option.bind_some, hs, Option.map_some]
  · exact (h01 i i).resolve_right fun h => (hlater i i h).false

end OsLab.A5.Gengraph
