import OsLab.Lib.Cells
import OsLab.Lib.ParentTree
import OsLab.Lib.Shuffle

/-!
# The random tree (A7/gentree.c)

| here | there |
| --- | --- |
| `rand k`            | what the call of `rand()` returns that `k` calls have been made before |
| `Shuffle.shuffle`   | the loop that shuffles `PERM` (:14-17) |
| `Gen`               | `P`, `nextchild`, `nextparent` and `remaining` |
| `start`             | :19-21 |
| `drawn`, `addChild`, `turn` | `t` (:23-26), the body of the `for` loop (:28-31), the body of the `while` loop |

A node of `PERM` gets its children when `nextparent` is there, and they are the next ones of `PERM`. A turn may have none,
but not when `nextparent` has caught up with `nextchild`, so `nextparent` never gets ahead: it is what makes the `while` loop
end, and why a node comes behind its parent in `PERM`.
-/

namespace OsLab.A7.Gentree

structure Gen where
  P : Cells Nat Nat
  nextchild : Nat
  nextparent : Nat
  remaining : Int
  calls : Nat

section
variable (n : Nat) (PERM : List Nat) (rand : Nat → Nat)

def start : Option Gen :=
  PERM[0]?.bind fun root => ((Cells.alloc (Finset.range n)).store root root).map fun P => ⟨P, 0, 0, n - 1, n⟩

/-- The number of children of this turn. -/
def drawn (s : Gen) : Int :=
  let r : Int := rand s.calls
  if 5 < s.remaining then
    if s.nextchild = s.nextparent then 1 + r.tmod 5 else r.tmod 5
  else
    if s.nextchild = s.nextparent then 1 + r.tmod s.remaining else r.tmod s.remaining

def addChild (s : Gen) : Option Gen :=
  PERM[s.nextchild + 1]?.bind fun child => PERM[s.nextparent]?.bind fun parent =>
    (s.P.store child parent).map fun P => { s with P := P, nextchild := s.nextchild + 1 }

def turn (s : Gen) : Option Gen :=
  let t := drawn rand s
  (Loop.upTo 0 t.toNat (fun _ => addChild PERM) { s with remaining := s.remaining - t, calls := s.calls + 1 }).map
    fun s => { s with nextparent := s.nextparent + 1 }

/-- `PERM` and the state when the file is written; `none` would be an access outside of one of the arrays, or that the
`while` loop has not come to its end. -/
def gentree (fuel : Nat) : Option (List Nat × Gen) :=
  (Shuffle.shuffle n rand (List.range n)).bind fun PERM => (start n PERM).bind fun s =>
    (Loop.repeatWhile (fun s => decide (0 < s.remaining)) (turn PERM rand) fuel s).map fun s => (PERM, s)

end

/-! ## The invariant -/

/-- The parent comes first in `PERM`; the first of all is its own parent. -/
def Climbs (PERM : List Nat) (child parent : Nat) : Prop :=
  ∃ q p : Nat, PERM[q]? = some child ∧ PERM[p]? = some parent ∧ (p < q ∨ p = 0 ∧ q = 0)

/-- The nodes up to `nextchild`. -/
def Placed (PERM : List Nat) (c : Nat) : Set Nat := {i | ∃ q ≤ c, PERM[q]? = some i}

/-- `due` is what is left of `t`. -/
structure GenInv (n : Nat) (PERM : List Nat) (due : Nat) (s : Gen) : Prop where
  filled : s.P.Filled (Finset.range n) (Climbs PERM) (Placed PERM s.nextchild)
  caught : s.nextparent ≤ s.nextchild
  left : 0 ≤ s.remaining
  total : (s.nextchild : Int) + due + s.remaining = n - 1

section
variable {n due : Nat} {PERM : List Nat} {s : Gen}

theorem placed_succ {c i : Nat} (hi : PERM[c + 1]? = some i) : insert i (Placed PERM c) = Placed PERM (c + 1) := by
  ext j
  rw [Set.mem_insert_iff]
  constructor
  · rintro (rfl | ⟨q, hq, hj⟩)
    · exact ⟨c + 1, Nat.le_refl _, hi⟩
    · exact ⟨q, Nat.le_succ_of_le hq, hj⟩
  · rintro ⟨q, hq, hj⟩
    rcases Nat.le_succ_iff.1 hq with hq | rfl
    · exact .inr ⟨q, hq, hj⟩
    · exact .inl (Option.some.inj (hj.symm.trans hi))

theorem GenInv.start (hperm : PERM.Perm (List.range n)) (hn : 0 < n) : ∃ s, start n PERM = some s ∧ GenInv n PERM 0 s := by
  obtain ⟨root, hroot⟩ := Shuffle.exists_entry hperm hn
  obtain ⟨P, hP, F⟩ := (Cells.filled_alloc (Finset.range n) (Climbs PERM)).store
    (Finset.mem_range.2 (Shuffle.entry_lt hperm hroot)) (Set.notMem_empty root) ⟨0, 0, hroot, hroot, .inr ⟨rfl, rfl⟩⟩
  have hplaced : insert root ∅ = Placed PERM 0 := by
    ext i
    rw [Set.mem_insert_iff]
    constructor
    · rintro (rfl | h)
      · exact ⟨0, Nat.le_refl 0, hroot⟩
      · exact h.elim
    · rintro ⟨q, hq, hi⟩
      obtain rfl := Nat.le_zero.1 hq
      exact .inl (Option.some.inj (hi.symm.trans hroot))
  refine ⟨⟨P, 0, 0, n - 1, n⟩, ?_, hplaced ▸ F, Nat.le_refl 0, ?_, ?_⟩
  · rw [Gentree.start, hroot, Option.bind_some, hP, Option.map_some]
  · dsimp only
    omega
  · dsimp only
    omega

theorem GenInv.addChild (hperm : PERM.Perm (List.range n)) (G : GenInv n PERM (due + 1) s) :
    ∃ s', addChild PERM s = some s' ∧ GenInv n PERM due s' ∧ s'.nextparent = s.nextparent ∧
      s'.nextchild = s.nextchild + 1 := by
  have hle := G.caught
  have hleft := G.left
  have htotal := G.total
  obtain ⟨child, hchild⟩ := Shuffle.exists_entry hperm (show s.nextchild + 1 < n by omega)
  obtain ⟨parent, hparent⟩ := Shuffle.exists_entry hperm (show s.nextparent < n by omega)
  have hnew : child ∉ Placed PERM s.nextchild := by
    rintro ⟨q, hq, hi⟩
    have hindex := Shuffle.index_inj hperm hi hchild
    omega
  obtain ⟨P, hP, F⟩ := G.filled.store (Finset.mem_range.2 (Shuffle.entry_lt hperm hchild)) hnew
    ⟨_, _, hchild, hparent, .inl (Nat.lt_succ_of_le hle)⟩
  refine ⟨{ s with P := P, nextchild := s.nextchild + 1 }, ?_, ⟨placed_succ hchild ▸ F, ?_, hleft, ?_⟩, rfl, rfl⟩
  · rw [Gentree.addChild, hchild, Option.bind_some, hparent, Option.bind_some, hP, Option.map_some]
  · exact Nat.le_succ_of_le hle
  · dsimp only
    omega

/-- At least one child if there is no other node that could have some, and never more than there are left. -/
theorem drawn_le (rand : Nat → Nat) (h : 0 < s.remaining) :
    0 ≤ drawn rand s ∧ drawn rand s ≤ s.remaining ∧ (s.nextchild = s.nextparent → 1 ≤ drawn rand s) := by
  have hr : (0 : Int) ≤ rand s.calls := Int.natCast_nonneg _
  have h5 := Int.tmod_nonneg 5 hr
  have h5' := Int.tmod_lt_of_pos (rand s.calls : Int) (show (0 : Int) < 5 by decide)
  have hrem := Int.tmod_nonneg s.remaining hr
  have hrem' := Int.tmod_lt_of_pos (rand s.calls : Int) h
  unfold drawn
  dsimp only
  split_ifs <;> omega

/-- A turn: all accesses are in range, and `nextparent` goes on by one. -/
theorem GenInv.turn (hperm : PERM.Perm (List.range n)) (rand : Nat → Nat) (G : GenInv n PERM 0 s) (h : 0 < s.remaining) :
    ∃ s', turn PERM rand s = some s' ∧ GenInv n PERM 0 s' ∧ s'.nextparent = s.nextparent + 1 := by
  obtain ⟨hnonneg, hle, hone⟩ := drawn_le rand h
  have htotal := G.total
  have hcaught := G.caught
  obtain ⟨t, ht⟩ := Int.eq_ofNat_of_zero_le hnonneg
  have hrest : GenInv n PERM t { s with remaining := s.remaining - drawn rand s, calls := s.calls + 1 } :=
    ⟨G.filled, G.caught, by dsimp only; omega, by dsimp only; omega⟩
  have hloop : ∃ s', Loop.upTo 0 t (fun _ => Gentree.addChild PERM)
        { s with remaining := s.remaining - drawn rand s, calls := s.calls + 1 } = some s' ∧
      GenInv n PERM (t - t) s' ∧ s'.nextparent = s.nextparent ∧ s'.nextchild = s.nextchild + t := by
    refine Loop.upTo_rule
      (I := fun i s' => GenInv n PERM (t - i) s' ∧ s'.nextparent = s.nextparent ∧ s'.nextchild = s.nextchild + i)
      (Nat.zero_le t) ?_ ⟨hrest, rfl, rfl⟩
    rintro i s' - hi ⟨G', hparent, hchild⟩
    have hdue : t - i = t - (i + 1) + 1 := by omega
    rw [hdue] at G'
    obtain ⟨s'', hs'', G'', hparent', hchild'⟩ := G'.addChild hperm
    exact ⟨s'', hs'', G'', hparent'.trans hparent, by omega⟩
  obtain ⟨s', hs', G', hparent, hchild⟩ := hloop
  rw [Nat.sub_self] at G'
  refine ⟨{ s' with nextparent := s'.nextparent + 1 }, ?_, ⟨G'.filled, ?_, G'.left, G'.total⟩, ?_⟩
  · rw [Gentree.turn]
    simp only [ht, Int.toNat_natCast] at hs' ⊢
    rw [hs', Option.map_some]
  · dsimp only
    by_cases hsame : s.nextchild = s.nextparent
    · have := hone hsame
      omega
    · omega
  · dsimp only
    rw [hparent]

/-- The `while` loop comes to its end, after at most `n` turns, and every node has been placed. -/
theorem GenInv.loop (hperm : PERM.Perm (List.range n)) (rand : Nat → Nat) (G : GenInv n PERM 0 s) :
    ∃ s', (∀ fuel, n - s.nextparent ≤ fuel →
        Loop.repeatWhile (fun s => decide (0 < s.remaining)) (Gentree.turn PERM rand) fuel s = some s') ∧
      s'.P.Filled (Finset.range n) (Climbs PERM) (Placed PERM (n - 1)) := by
  obtain ⟨s', G', hend, hrun⟩ : ∃ s', GenInv n PERM 0 s' ∧ decide (0 < s'.remaining) = false ∧
      ∀ fuel, n - s.nextparent ≤ fuel →
        Loop.repeatWhile (fun s => decide (0 < s.remaining)) (Gentree.turn PERM rand) fuel s = some s' := by
    refine Loop.repeatWhile_rule (GenInv n PERM 0) (fun s => n - s.nextparent) (fun s G h => ?_) G
    have h := of_decide_eq_true h
    have htotal := G.total
    have hcaught := G.caught
    obtain ⟨s', hs', G', hparent⟩ := G.turn hperm rand h
    exact ⟨s', hs', G', by omega⟩
  have hend := of_decide_eq_false hend
  have htotal := G'.total
  have hleft := G'.left
  have hlast : s'.nextchild = n - 1 := by omega
  exact ⟨s', hrun, hlast ▸ G'.filled⟩

end

/-- **Always a rooted tree**, whatever is drawn: the loop ends with all accesses in range, `PERM` is a permutation, every
`P[i]` is assigned once, just one node is its own parent, and all others climb to it. -/
theorem gentree_rooted {n : Nat} (hn : 0 < n) (rand : Nat → Nat) :
    ∃ PERM s, (∀ fuel, n ≤ fuel → gentree n rand fuel = some (PERM, s)) ∧ PERM.Perm (List.range n) ∧
      (∀ i : Fin n, s.P.stores i = 1) ∧
      ∃ t : ParentTree (Fin n), (∀ i : Fin n, s.P.val i = some (t.parent i).val) ∧ (∃! i, t.parent i = i) ∧
        ∀ i, ∃ k, t.parent^[k] i = t.root := by
  obtain ⟨PERM, hshuffle, hperm⟩ := Shuffle.exists_shuffle rand (List.length_range (n := n))
  obtain ⟨s₀, hstart, G⟩ := GenInv.start hperm hn
  obtain ⟨s, hloop, F⟩ := G.loop hperm rand
  -- the place of a node in `PERM` is its rank
  choose rank hrank using fun i : Fin n => Shuffle.exists_index hperm i.isLt
  have hcell : ∀ i : Fin n, s.P.stores i = 1 ∧ ∃ p : Fin n, s.P.val i = some p.val ∧
      (rank p < rank i ∨ rank p = 0 ∧ rank i = 0) := by
    intro i
    have hlt := Shuffle.index_lt hperm (hrank i)
    obtain ⟨honce, v, hv, q, p, hq, hp, hpq⟩ := F.once i ⟨rank i, by omega, hrank i⟩
    have hp' := hrank ⟨v, Shuffle.entry_lt hperm hp⟩
    refine ⟨honce, ⟨v, Shuffle.entry_lt hperm hp⟩, hv, ?_⟩
    rwa [Shuffle.index_inj hperm hp' hp, Shuffle.index_inj hperm (hrank i) hq]
  choose parent hval hparent using fun i => (hcell i).2
  obtain ⟨root, hroot⟩ : ∃ root : Fin n, rank root = 0 := by
    obtain ⟨r, hr⟩ := Shuffle.exists_entry hperm hn
    exact ⟨⟨r, Shuffle.entry_lt hperm hr⟩, Shuffle.index_inj hperm (hrank _) hr⟩
  have honly : ∀ i, rank i = 0 → i = root := by
    intro i hi
    have hentry := hrank i
    rw [hi, ← hroot, hrank root] at hentry
    exact Fin.ext (Option.some.inj hentry).symm
  have hself : parent root = root := by
    refine honly _ ?_
    have := hparent root
    omega
  have hclimb : ∀ i, i ≠ root → rank (parent i) < rank i := by
    intro i hi
    exact (hparent i).resolve_right fun h => hi (honly i h.2)
  let t := ParentTree.ofRank parent root hself rank hclimb
  refine ⟨PERM, s, fun fuel hfuel => ?_, hperm, fun i => (hcell i).1, t, hval,
    ⟨root, hself, fun i hi => t.eq_root_of_parent hi⟩, t.reaches⟩
  rw [gentree, hshuffle, Option.bind_some, hstart, Option.bind_some, hloop fuel (by omega), Option.map_some]

theorem gentree_rooted_three : 0 < 3 ∧ ∃ PERM s, (∀ fuel, 3 ≤ fuel → gentree 3 (fun _ => 0) fuel = some (PERM, s)) ∧
    PERM.Perm (List.range 3) ∧ (∀ i : Fin 3, s.P.stores i = 1) ∧
    ∃ t : ParentTree (Fin 3), (∀ i : Fin 3, s.P.val i = some (t.parent i).val) ∧ (∃! i, t.parent i = i) ∧
      ∀ i, ∃ k, t.parent^[k] i = t.root := ⟨by decide, gentree_rooted (by decide) _⟩

end OsLab.A7.Gentree
