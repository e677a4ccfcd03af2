import OsLab.A7.Gentree
import OsLab.A7.TreeEnd
import OsLab.Lib.Scan

/-!
# From the random tree to its sums (A7/gentree.c, A7/computesum.c)

| here | there |
| --- | --- |
| `Gentree.line`, `.printed` | the `fprintf`s (gentree.c:38-39) |
| `readLines`                | the `fscanf`s of the loop (computesum.c:58-60); `none`: a line about no node of the tree |
| `readFile`                 | `n` (:54) and the lines |

`a` and `b` are fresh in every round of the loop, so that a line that cannot be read finds whatever they hold, `a₀` and `b₀`
here; `n` is a zeroed global. The arrays of computesum have `entries` entries, which is what limits `n`.
-/

namespace OsLab.A7

open CString (decimal)
open Scan (Spells scanInt scanInto)

variable {n : Nat}

namespace Gentree

/-- `"%d %d\n"`. -/
def line (s : Gen) (i : Nat) : List Char :=
  decimal i ++ ' ' :: (decimal ((s.P.val i).getD 0 : Nat) ++ ['\n'])

def printed (n : Nat) (s : Gen) : List Char := decimal n ++ '\n' :: (List.range n).flatMap (line s)

end Gentree

/-- `k` lines are still to be read. -/
def readLines (n : Nat) (a₀ b₀ : Int) : Nat → List Char → Option (List (Fin n × Fin n))
  | 0, _ => some []
  | k + 1, s =>
    let (a, s') := scanInto a₀ s
    -- the second conversion is not tried when the first one fails
    let (b, s'') := if (scanInt s).1.isSome then scanInto b₀ s' else (b₀, s')
    if h : (0 ≤ a ∧ a.toNat < n) ∧ 0 ≤ b ∧ b.toNat < n then
      (readLines n a₀ b₀ k s'').map fun lines => (⟨a.toNat, h.1.2⟩, ⟨b.toNat, h.2.2⟩) :: lines
    else none

def readFile (a₀ b₀ : Int) (contents : List Char) : Option (Σ n, List (Fin n × Fin n)) :=
  let (n, rest) := scanInto 0 contents
  (readLines n.toNat a₀ b₀ n.toNat rest).map fun lines => ⟨n.toNat, lines⟩

/-! ## The lines are read back -/

theorem readLines_spells (a₀ b₀ : Int) {lines : List (Fin n × Fin n)} {s : List Char}
    (h : Spells (lines.flatMap fun l => [(l.1 : Int), (l.2 : Int)]) s) :
    readLines n a₀ b₀ lines.length s = some lines := by
  induction lines generalizing s with
  | nil => rfl
  | cons l lines ih =>
    obtain ⟨s', ha, h'⟩ := h.scanInt
    obtain ⟨s'', hb, h''⟩ := h'.scanInto b₀
    have hnodes : (0 ≤ (l.1 : Int) ∧ (l.1 : Int).toNat < n) ∧ 0 ≤ (l.2 : Int) ∧ (l.2 : Int).toNat < n := by
      have h1 := l.1.isLt
      have h2 := l.2.isLt
      omega
    rw [List.length_cons, readLines, scanInto, ha]
    dsimp only [Option.isSome_some, Option.getD_some]
    rw [if_pos rfl, hb]
    dsimp only
    rw [dif_pos hnodes, ih h'', Option.map_some]
    rfl

theorem readFile_spells (a₀ b₀ : Int) {lines : List (Fin n × Fin n)} (hlength : lines.length = n) {s : List Char}
    (h : Spells (n :: lines.flatMap fun l => [(l.1 : Int), (l.2 : Int)]) s) :
    readFile a₀ b₀ s = some ⟨n, lines⟩ := by
  obtain ⟨rest, hn, hrest⟩ := h.scanInto 0
  have hlines := readLines_spells a₀ b₀ hrest
  rw [hlength] at hlines
  rw [readFile, hn]
  dsimp only
  rw [Int.toNat_natCast, hlines, Option.map_some]

/-- What gentree prints of a tree spells out its lines. -/
theorem Gentree.printed_spells {t : ParentTree (Fin n)} {s : Gentree.Gen}
    (hP : ∀ i : Fin n, s.P.val i = some (t.parent i).val) (hn : n ≤ 100) :
    Spells (n :: (List.ofFn fun a => (a, t.parent a)).flatMap fun l => [(l.1 : Int), (l.2 : Int)])
      (Gentree.printed n s) := by
  have hline : ∀ i : Fin n, Spells [(i : Int), (t.parent i : Int)] (Gentree.line s i) := by
    intro i
    have hi := i.isLt
    have hparent := (t.parent i).isLt
    rw [Gentree.line, hP, Option.getD_some]
    refine .number ?_ ?_ (by decide) (.number ?_ ?_ (by decide) .nil) <;> omega
  have hall : Spells ((List.finRange n).flatMap fun i : Fin n => [(i : Int), (t.parent i : Int)])
      ((List.finRange n).flatMap fun i : Fin n => Gentree.line s i) := Spells.flatMap fun i _ => hline i
  have hnumbers : (List.ofFn fun a => (a, t.parent a)).flatMap (fun l => [(l.1 : Int), (l.2 : Int)]) =
      (List.finRange n).flatMap fun i : Fin n => [(i : Int), (t.parent i : Int)] := by
    rw [List.ofFn_eq_map, List.flatMap_map]
  have htext : (List.range n).flatMap (Gentree.line s) =
      (List.finRange n).flatMap fun i : Fin n => Gentree.line s i := by
    rw [← List.map_coe_finRange_eq_range, List.flatMap_map]
  rw [Gentree.printed, hnumbers, htext]
  exact .number (by omega) (by omega) (by decide) hall

/-! ## The tree that is drawn -/

/-- A parent array filled like this belongs to a tree: nodes climb to the front of `PERM`. -/
theorem Gentree.exists_tree {PERM : List Nat} (hperm : PERM.Perm (List.range n)) (hpos : 0 < n) {s : Gentree.Gen}
    (F : s.P.Filled (Finset.range n) (Gentree.Climbs PERM) (Gentree.Placed PERM (n - 1))) :
    ∃ t : ParentTree (Fin n), ∀ i : Fin n, s.P.val i = some (t.parent i).val := by
  choose rank hrank using fun i : Fin n => Shuffle.exists_index hperm i.isLt
  have hcell : ∀ i : Fin n, ∃ p : Fin n, s.P.val i = some p.val ∧ (rank p < rank i ∨ rank p = 0 ∧ rank i = 0) := by
    intro i
    have hlt := Shuffle.index_lt hperm (hrank i)
    obtain ⟨-, v, hv, q, p, hq, hp, hpq⟩ := F.once i ⟨rank i, by omega, hrank i⟩
    have hp' := hrank ⟨v, Shuffle.entry_lt hperm hp⟩
    refine ⟨⟨v, Shuffle.entry_lt hperm hp⟩, hv, ?_⟩
    rwa [Shuffle.index_inj hperm hp' hp, Shuffle.index_inj hperm (hrank i) hq]
  choose parent hval hparent using hcell
  obtain ⟨r, hr⟩ := Shuffle.exists_entry hperm hpos
  let root : Fin n := ⟨r, Shuffle.entry_lt hperm hr⟩
  have honly : ∀ i, rank i = 0 → i = root := by
    intro i hi
    have hentry := hrank i
    rw [hi, hr] at hentry
    exact Fin.ext (Option.some.inj hentry).symm
  have hzero : rank root = 0 := Shuffle.index_inj hperm (hrank root) hr
  have hself : parent root = root := by
    refine honly _ ?_
    have hup := hparent root
    omega
  have hclimb : ∀ i, i ≠ root → rank (parent i) < rank i := by
    intro i hi
    exact (hparent i).resolve_right fun h => hi (honly i h.2)
  exact ⟨ParentTree.ofRank parent root hself rank hclimb, hval⟩

/-- **A random tree is summed as it has been drawn**, whatever `rand` returns: computesum reads the lines of a tree that its
arrays hold back from gentree's file, and every run on them comes to its end, where each node has printed its lines, the root
maybe not all of them, with the sums of that tree. -/
theorem drawn_tree_summed {M : Type} [AddCommMonoid M] (hpos : 0 < n) (hn : n ≤ entries) (rand : Nat → Nat) (a₀ b₀ : Int)
    (input : Fin n → M) :
    ∃ PERM g t lines tr, (∀ fuel, n ≤ fuel → Gentree.gentree n rand fuel = some (PERM, g)) ∧
      (∀ i : Fin n, g.P.val i = some (t.parent i).val) ∧
      readFile a₀ b₀ (Gentree.printed n g) = some ⟨n, lines⟩ ∧ readTree lines = some tr ∧
      ∀ (as : List (TreeActor n)) (s : TreeRun n M), Trans.run (TreeRun.step tr input) (.init tr) as = some s →
        as.length ≤ 5 * n ^ 2 + 31 * n + 10 ∧ ((∀ a, s.step tr input a = none) → TreeRun.Ended t input s) := by
  obtain ⟨PERM, hshuffle, hperm⟩ := Shuffle.exists_shuffle rand (List.length_range (n := n))
  obtain ⟨s₀, hstart, G⟩ := Gentree.GenInv.start hperm hpos
  obtain ⟨g, hloop, F⟩ := G.loop hperm rand
  obtain ⟨t, hP⟩ := Gentree.exists_tree hperm hpos F
  obtain ⟨tr, htr⟩ := exists_readTree hn (List.ofFn fun a => (a, t.parent a))
  refine ⟨PERM, g, t, List.ofFn fun a => (a, t.parent a), tr, fun fuel hfuel => ?_, hP, ?_, htr, fun as s hrun => ?_⟩
  · rw [Gentree.gentree, hshuffle, Option.bind_some, hstart, Option.bind_some, hloop fuel (by omega), Option.map_some]
  · exact readFile_spells a₀ b₀ List.length_ofFn (Gentree.printed_spells hP hn)
  · exact TreeRun.ends_of_describes (readTree_describes t (List.Perm.refl _) htr) hrun

/-- Three nodes, with sums that wrap. -/
theorem drawn_tree_summed_three : (0 < 3 ∧ 3 ≤ entries) ∧
    ∃ PERM g t lines tr, (∀ fuel, 3 ≤ fuel → Gentree.gentree 3 (fun _ => 0) fuel = some (PERM, g)) ∧
      (∀ i : Fin 3, g.P.val i = some (t.parent i).val) ∧
      readFile (-1) 7 (Gentree.printed 3 g) = some ⟨3, lines⟩ ∧ readTree lines = some tr ∧
      ∀ (as : List (TreeActor 3)) (s : TreeRun 3 Int),
        Trans.run (TreeRun.step tr fun i => (i.val : Int)) (.init tr) as = some s →
        as.length ≤ 148 ∧ ((∀ a, s.step tr (fun i => (i.val : Int)) a = none) →
          TreeRun.Ended t (fun i => (i.val : Int)) s) :=
  ⟨by decide, drawn_tree_summed (by decide) (by decide) (fun _ => 0) (-1) 7 fun i => (i.val : Int)⟩

end OsLab.A7
