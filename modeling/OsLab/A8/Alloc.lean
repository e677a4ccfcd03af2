import Mathlib.Algebra.BigOperators.Fin
import Mathlib.Algebra.Order.BigOperators.Group.Finset
import Mathlib.Tactic.Ring
import OsLab.A8.Lru

/-!
# The initial frame allocation (A8/master.c:169-191)

| here | there |
| --- | --- |
| `share`      | what process `i` is to get: `page_frames` (:178), at most one for each of its pages |
| `start`      | `frame_num` when the loop comes to the process |
| `allocFirst` | the memory and `frame_num` behind the first `n` processes |

The frames are handed out in ascending order. The quotients are rounded down, so together they stay within the list
(`sum_share_le`) and the loop does not reach its end marker.
-/

namespace OsLab.A8

namespace Mmu

variable {k f : Nat} {mi : Fin k → Nat} {i : Fin k}

/-- The part of the `f` frames that is due to process `i`. -/
def share (f : Nat) (mi : Fin k → Nat) (i : Fin k) : Nat := min (mi i) (mi i * f / ∑ i, mi i)

/-- The shares of the first `n` processes. -/
def start (f : Nat) (mi : Fin k → Nat) (n : Nat) : Nat := ∑ i : Fin k with i.val < n, share f mi i

/-- The outer loop (master.c:177) over the first `n` processes. -/
def allocFirst (f : Nat) (mi : Fin k → Nat) (n : Nat) : Mmu k × Int :=
  ((List.finRange k).take n).foldl (fun a i => allocPages i (pageFrames f mi i) (List.range (mi i)) 0 a) (build f mi, 0)

theorem init_eq (f : Nat) (mi : Fin k → Nat) : init f mi = (allocFirst f mi k).1 := by
  rw [allocFirst, List.take_of_length_le (List.length_finRange).le]
  rfl

theorem allocFirst_succ (f : Nat) (mi : Fin k → Nat) (i : Fin k) :
    allocFirst f mi (i + 1) = allocPages i (pageFrames f mi i) (List.range (mi i)) 0 (allocFirst f mi i) := by
  have hlt : i.val < (List.finRange k).length := by rw [List.length_finRange]; exact i.isLt
  rw [allocFirst, List.take_succ_eq_append_getElem hlt, List.foldl_append, List.getElem_finRange]
  rfl

/-! ## The shares -/

theorem start_succ (i : Fin k) : start f mi (i + 1) = start f mi i + share f mi i := by
  have hfilter : (Finset.univ.filter fun i' : Fin k => i'.val < i + 1) =
      insert i (Finset.univ.filter fun i' : Fin k => i'.val < i) := by
    ext i'
    simp only [Finset.mem_filter, Finset.mem_univ, true_and, Finset.mem_insert, Fin.ext_iff]
    omega
  rw [start, hfilter, Finset.sum_insert (by simp), start, Nat.add_comm]

theorem start_last : start f mi k = ∑ i, share f mi i := by
  unfold start
  exact Finset.sum_congr (Finset.filter_true_of_mem fun i _ => i.isLt) fun _ _ => rfl

theorem start_mono {n n' : Nat} (h : n ≤ n') : start f mi n ≤ start f mi n' := by
  apply Finset.sum_le_sum_of_subset
  intro i hi
  rw [Finset.mem_filter] at hi ⊢
  exact ⟨hi.1, by omega⟩

/-- What is due to all processes is at most what there is, and at most what they can use. -/
theorem sum_share_le (f : Nat) (mi : Fin k → Nat) : ∑ i, share f mi i ≤ min f (∑ i, mi i) := by
  apply le_min
  · have hquot : ∑ i, share f mi i ≤ ∑ i, mi i * f / ∑ i, mi i := Finset.sum_le_sum fun i _ => min_le_right _ _
    apply hquot.trans
    rcases Nat.eq_zero_or_pos (∑ i, mi i) with hzero | hpos
    · simp [hzero]
    · apply Nat.le_of_mul_le_mul_left _ hpos
      rw [Finset.mul_sum, Finset.sum_mul]
      exact Finset.sum_le_sum fun i _ => Nat.mul_div_le _ _
  · exact Finset.sum_le_sum fun i _ => min_le_left _ _

/-- The quotient does not wrap. -/
theorem pageFrames_eq (h : (mi i * f : Nat) ≤ intMax) : pageFrames f mi i = ((mi i * f / ∑ i, mi i : Nat) : Int) := by
  have hprod : (mi i : Int) * f = ((mi i * f : Nat) : Int) := by push_cast; rfl
  rw [pageFrames, hprod, int32_eq (by omega) h, Int.tdiv_eq_ediv_of_nonneg (by omega), Fin.sum_univ_def]
  rfl

/-! ## The loops -/

/-- Pages `j, ..., j + c - 1` of process `i` get the next `c` frames. -/
structure Gives (i : Fin k) (j c : Nat) (a a' : Mmu k × Int) : Prop where
  frameNum : a'.2 = a.2 + c
  frame : ∀ i' j', (a'.1.entry i' j').frame =
    if i' = i ∧ j ≤ j' ∧ j' < j + c then a.2 + (j' - j : Nat) else (a.1.entry i' j').frame
  SM2 : ∀ g, a'.1.SM2 g = if a.2 ≤ g ∧ g < a.2 + c then 0 else a.1.SM2 g

/-- By induction on the pages that are left. -/
theorem allocPages_gives (i : Fin k) (q n j count : Nat) (a : Mmu k × Int) (hcount : count ≤ q) :
    Gives i j (min n (q - count)) a (allocPages i q (List.range' j n) count a) := by
  induction n generalizing j count a with
  | zero =>
    rw [Nat.zero_min, List.range'_zero]
    exact ⟨by simp [allocPages], fun i' j' => (if_neg (by omega)).symm, fun g => (if_neg (by omega)).symm⟩
  | succ n ih =>
    obtain ⟨s, fn⟩ := a
    rw [List.range'_succ, allocPages]
    split
    · next hall =>
      rw [show min (n + 1) (q - count) = 0 by omega]
      exact ⟨by simp, fun i' j' => (if_neg (by omega)).symm, fun g => (if_neg (by omega)).symm⟩
    · next hmore =>
      obtain ⟨hnum, hframe, hSM2⟩ := ih (j + 1) (count + 1)
        ((s.setSM2 fn 0).modEntry i j ({ · with frame := fn, validBit := 1 }), fn + 1) (by omega)
      rw [show min (n + 1) (q - count) = min n (q - (count + 1)) + 1 by omega]
      push_cast at hnum hframe hSM2
      refine ⟨by rw [hnum]; push_cast; ring, fun i' j' => ?_, fun g => ?_⟩
      · rw [hframe, entry_modEntry, entry_setSM2, entry_setSM2]
        by_cases hij : i' = i ∧ j' = j
        · obtain ⟨rfl, rfl⟩ := hij
          rw [if_neg (by omega), if_pos ⟨rfl, rfl⟩, if_pos ⟨rfl, by omega⟩]
          simp
        · rw [if_neg hij]
          by_cases hlater : i' = i ∧ j + 1 ≤ j' ∧ j' < j + 1 + min n (q - (count + 1))
          · rw [if_pos hlater, if_pos ⟨hlater.1, by omega⟩]
            omega
          · rw [if_neg hlater, if_neg]
            rintro ⟨rfl, hj⟩
            exact hlater ⟨rfl, by have := fun e => hij ⟨rfl, e⟩; omega⟩
      · rw [hSM2, SM2_modEntry, SM2_setSM2]
        by_cases hg : g = fn
        · subst hg
          rw [if_neg (by omega), Function.update_self, if_pos (by omega)]
        · rw [Function.update_of_ne hg]
          exact if_congr (by omega) rfl rfl

/-- The first `m` rounds for process `i`. -/
theorem allocRounds_gives (h : (mi i * f : Nat) ≤ intMax) {m : Nat} (hm : m ≤ mi i) (a : Mmu k × Int) :
    Gives i 0 (min m (share f mi i)) a (allocPages i (pageFrames f mi i) (List.range m) 0 a) := by
  have hg := allocPages_gives i (mi i * f / ∑ i, mi i) m 0 0 a (Nat.zero_le _)
  rw [← List.range_eq_range', ← pageFrames_eq h] at hg
  have hcap : min m (share f mi i) = min m (mi i * f / ∑ i, mi i) := by
    unfold share
    rw [← min_assoc, min_eq_left hm]
  rw [hcap]
  exact hg

/-- The memory behind the first `n` processes. -/
structure Allotted (f : Nat) (mi : Fin k → Nat) (n : Nat) (a : Mmu k × Int) : Prop where
  frameNum : a.2 = start f mi n
  frame : ∀ i j, (a.1.entry i j).frame = if i.val < n ∧ j < share f mi i then ((start f mi i + j : Nat) : Int) else -1
  SM2 : ∀ g : Int, 0 ≤ g → a.1.SM2 g = if g < start f mi n then 0 else if g < f then 1 else -1

theorem Allotted.zero (f : Nat) (mi : Fin k → Nat) : Allotted f mi 0 (allocFirst f mi 0) := by
  have hstart : start f mi 0 = 0 := by simp [start]
  refine ⟨by rw [hstart]; rfl, fun i j => (if_neg (by omega)).symm, fun g hg => ?_⟩
  rw [hstart, if_neg (by simpa using hg)]
  rfl

/-- By induction on the number of processes served. -/
theorem allotted (h : ∀ i, (mi i * f : Nat) ≤ intMax) {n : Nat} (hn : n ≤ k) : Allotted f mi n (allocFirst f mi n) := by
  induction n with
  | zero => exact .zero f mi
  | succ n ih =>
    have A := ih (by omega)
    have hshare : min (mi ⟨n, hn⟩) (share f mi ⟨n, hn⟩) = share f mi ⟨n, hn⟩ := min_eq_right (min_le_left _ _)
    have hgives := allocRounds_gives (h ⟨n, hn⟩) le_rfl (allocFirst f mi n)
    rw [hshare] at hgives
    have hsucc : allocFirst f mi (n + 1) = _ := allocFirst_succ f mi ⟨n, hn⟩
    have hstart : start f mi (n + 1) = start f mi n + share f mi ⟨n, hn⟩ := start_succ ⟨n, hn⟩
    rw [hsucc]
    refine ⟨?_, fun i j => ?_, fun g hg => ?_⟩
    · rw [hgives.frameNum, A.frameNum, hstart]
      push_cast
      rfl
    · rw [hgives.frame, A.frame, A.frameNum]
      by_cases hi : i = ⟨n, hn⟩
      · subst hi
        by_cases hj : j < share f mi ⟨n, hn⟩
        · rw [if_pos ⟨rfl, by omega, by omega⟩, if_pos ⟨by simp, hj⟩]
          simp
        · rw [if_neg (by omega), if_neg (by omega), if_neg (by omega)]
      · have hval : i.val ≠ n := fun e => hi (Fin.ext e)
        rw [if_neg fun e => hi e.1]
        exact if_congr (by omega) rfl rfl
    · rw [hgives.SM2, A.SM2 g hg, A.frameNum, hstart]
      push_cast
      split_ifs <;> omega

theorem resident_init (h : ∀ i, (mi i * f : Nat) ≤ intMax) (i : Fin k) (p : Nat) :
    ((init f mi).entry i p).frame ≠ -1 ↔ p < share f mi i := by
  have hi := i.isLt
  rw [init_eq, (allotted h le_rfl).frame]
  split <;> omega

end Mmu

/-- **The initial allocation is proportional and fits**: the pages `0, 1, ...` of a process hold as many frames as are due
to it, the frames given are `0, ..., F - 1`, each to one page and no other marked, and the end marker is there after
every round of the loops. -/
theorem initial_allocation {k : Nat} (f : Nat) (mi : Fin k → Nat) (h : ∀ i, (mi i * f : Nat) ≤ intMax) :
    (∀ i j, ((Mmu.init f mi).entry i j).frame =
      if j < Mmu.share f mi i then ((Mmu.start f mi i + j : Nat) : Int) else -1) ∧
    Mmu.start f mi k = ∑ i, Mmu.share f mi i ∧ Mmu.start f mi k ≤ min f (∑ i, mi i) ∧
    (∀ g, g < Mmu.start f mi k → ∃! x : Fin k × Nat, ((Mmu.init f mi).entry x.1 x.2).frame = g) ∧
    (∀ g : Int, 0 ≤ g → (Mmu.init f mi).SM2 g = if g < Mmu.start f mi k then 0 else if g < f then 1 else -1) ∧
    (∀ (i : Fin k) (m : Nat), m ≤ mi i →
      (Mmu.allocPages i (Mmu.pageFrames f mi i) (List.range m) 0 (Mmu.allocFirst f mi i)).1.SM2 f = -1) := by
  have A := Mmu.allotted h le_rfl
  rw [← Mmu.start_last]
  have hfit := Mmu.sum_share_le f mi
  rw [← Mmu.start_last] at hfit
  refine ⟨fun i j => ?_, rfl, hfit, fun g hg => ?_, fun g hg => ?_, fun i m hm => ?_⟩
  · rw [Mmu.init_eq, A.frame]
    exact if_congr (and_iff_right i.isLt) rfl rfl
  · apply (MmuInv.init f mi).owns.exists_unique_owner (g := (g : Int)) (by omega) (by omega)
    rw [Mmu.init_eq, A.SM2 g (by omega), if_pos (by omega)]
  · rw [Mmu.init_eq, A.SM2 g hg]
  · have B := Mmu.allotted h i.isLt.le
    have hstart : Mmu.start f mi (i + 1) = _ := Mmu.start_succ i
    have hmono : Mmu.start f mi (i + 1) ≤ Mmu.start f mi k := Mmu.start_mono i.isLt
    rw [(Mmu.allocRounds_gives (h i) hm _).SM2, B.frameNum, if_neg (by omega), B.SM2 f (by omega),
      if_neg (by omega), if_neg (by omega)]

/-- Three processes and five frames: the shares 2*5/6, 1*5/6 and 3*5/6 leave two frames free. -/
theorem initial_allocation_three : Mmu.start 5 ![2, 1, 3] 3 = 3 ∧ (Mmu.init 5 ![2, 1, 3]).SM2 2 = 0 ∧
    (Mmu.init 5 ![2, 1, 3]).SM2 5 = -1 := by
  obtain ⟨-, -, -, -, hSM2, -⟩ := initial_allocation 5 ![2, 1, 3] (by decide)
  have hstart : Mmu.start 5 ![2, 1, 3] 3 = 3 := by decide
  rw [hSM2 2 (by omega), hSM2 5 (by omega), hstart]
  decide

end OsLab.A8
