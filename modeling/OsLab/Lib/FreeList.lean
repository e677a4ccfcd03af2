import Mathlib.Algebra.Order.Ring.Int
import Mathlib.Data.Finset.Card
import Mathlib.Data.Finset.Range
import Mathlib.Data.Int.Notation
import Mathlib.Data.Nat.Notation
import Mathlib.Logic.Function.Basic

/-!
# Cells with owners and a free list

`n` cells `0, ..., n - 1` are owned by slots of a type `α`; `own a = -1` says that slot `a` owns none.
The free list `cell` has 1 for a free and 0 for an owned cell and ends with the marker -1 at index
`n`. `Owns` says that the two views agree and no cell has two owners. Its three operations are
`acquire`, `release` and `transfer`; `exists_freeScan` is what the unbounded search for a free cell
relies on.
-/

open Function (update)

structure Owns {α : Type*} (n : ℕ) (own : α → ℤ) (cell : ℤ → ℤ) : Prop where
  endMark : cell n = -1
  zeroOne : ∀ g : ℤ, 0 ≤ g → g < n → cell g = 0 ∨ cell g = 1
  range : ∀ a, own a ≠ -1 → 0 ≤ own a ∧ own a < n ∧ cell (own a) = 0
  owner : ∀ g : ℤ, 0 ≤ g → g < n → cell g = 0 → ∃ a, own a = g
  inj : ∀ a b, own a = own b → own a ≠ -1 → a = b

namespace Owns

variable {α : Type*} {n : ℕ} {own own' : α → ℤ} {cell : ℤ → ℤ}

/-- Nothing is owned and every cell is free. -/
theorem empty (α : Type*) (n : ℕ) : Owns n (fun _ : α => -1) (fun g => if g < n then 1 else -1) := by
  refine ⟨by simp, fun g _ hg => .inr (if_pos hg), fun a h => absurd rfl h, fun g _ hg h => ?_, fun a b _ h => absurd rfl h⟩
  simp [hg] at h

theorem range_of_one (h : Owns n own cell) {g : ℤ} (h0 : 0 ≤ g) (hn : g ≤ n) (hg : cell g = 1) : g < n := by
  rcases lt_or_eq_of_le hn with hlt | rfl
  · exact hlt
  · rw [h.endMark] at hg
    omega

/-- A cell with two owners would make them equal. -/
theorem exists_unique_owner (h : Owns n own cell) {g : ℤ} (h0 : 0 ≤ g) (hn : g < n) (hg : cell g = 0) :
    ∃! a, own a = g := by
  obtain ⟨a, ha⟩ := h.owner g h0 hn hg
  exact ⟨a, ha, fun b hb => h.inj b a (hb.trans ha.symm) (by omega)⟩

/-- The free cells and the slots that own one make up the cells. -/
theorem card_free_add (h : Owns n own cell) {slots : Finset α} (hslots : ∀ a, a ∈ slots ↔ own a ≠ -1) :
    ((Finset.range n).filter fun g : ℕ => cell g = 1).card + slots.card = n := by
  have howned : slots.card = ((Finset.range n).filter fun g : ℕ => ¬ cell g = 1).card := by
    refine Finset.card_bij (fun a _ => (own a).toNat) (fun a ha => ?_) (fun a ha b hb hab => ?_) fun g hg => ?_
    · obtain ⟨h0, hn, hcell⟩ := h.range a ((hslots a).1 ha)
      rw [Finset.mem_filter, Finset.mem_range, Int.toNat_of_nonneg h0, hcell]
      exact ⟨by omega, by omega⟩
    · have h0 := (h.range a ((hslots a).1 ha)).1
      have h0' := (h.range b ((hslots b).1 hb)).1
      exact h.inj a b (by omega) ((hslots a).1 ha)
    · obtain ⟨hn, hcell⟩ := Finset.mem_filter.1 hg
      have hn := Finset.mem_range.1 hn
      obtain ⟨a, ha⟩ := h.owner g (by omega) (by omega) ((h.zeroOne g (by omega) (by omega)).resolve_right hcell)
      exact ⟨a, (hslots a).2 (by omega), by rw [ha, Int.toNat_natCast]⟩
  rw [howned, Finset.card_filter_add_card_filter_not, Finset.card_range]

variable [DecidableEq α]

/-- A slot that owns nothing gets a free cell. -/
theorem acquire (h : Owns n own cell) {a : α} {g : ℤ} (ha : own a = -1) (h0 : 0 ≤ g) (hn : g < n) (hg : cell g = 1) :
    Owns n (update own a g) (update cell g 0) where
  endMark := by rw [Function.update_of_ne (by omega)]; exact h.endMark
  zeroOne e he hen := by
    by_cases heg : e = g
    · rw [heg, Function.update_self]; exact .inl rfl
    · rw [Function.update_of_ne heg]; exact h.zeroOne e he hen
  range b hb := by
    by_cases hba : b = a
    · rw [hba, Function.update_self, Function.update_self]; exact ⟨h0, hn, rfl⟩
    · rw [Function.update_of_ne hba] at hb ⊢
      obtain ⟨hb0, hbn, hcell⟩ := h.range b hb
      rw [Function.update_of_ne fun e => by rw [e, hg] at hcell; omega]
      exact ⟨hb0, hbn, hcell⟩
  owner e he hen hcell := by
    by_cases heg : e = g
    · exact ⟨a, by rw [Function.update_self, heg]⟩
    · rw [Function.update_of_ne heg] at hcell
      obtain ⟨b, hb⟩ := h.owner e he hen hcell
      exact ⟨b, by rw [Function.update_of_ne fun hba => by rw [hba, ha] at hb; omega]; exact hb⟩
  inj b c hbc hb := by
    have hnew : ∀ d, own d ≠ g := fun d hd => by
      obtain ⟨-, -, hcell⟩ := h.range d (by omega)
      rw [hd, hg] at hcell; omega
    by_cases hba : b = a <;> by_cases hca : c = a
    · rw [hba, hca]
    · rw [hba, Function.update_self, Function.update_of_ne hca] at hbc
      exact absurd hbc.symm (hnew c)
    · rw [hca, Function.update_self, Function.update_of_ne hba] at hbc
      exact absurd hbc (hnew b)
    · rw [Function.update_of_ne hba] at hbc hb
      rw [Function.update_of_ne hca] at hbc
      exact h.inj b c hbc hb

/-- A slot gives its cell back. -/
theorem release (h : Owns n own cell) {a : α} (ha : own a ≠ -1) :
    Owns n (update own a (-1)) (update cell (own a) 1) where
  endMark := by
    have := h.range a ha
    rw [Function.update_of_ne (by omega)]; exact h.endMark
  zeroOne e he hen := by
    by_cases heg : e = own a
    · rw [heg, Function.update_self]; exact .inr rfl
    · rw [Function.update_of_ne heg]; exact h.zeroOne e he hen
  range b hb := by
    by_cases hba : b = a
    · rw [hba, Function.update_self] at hb; exact absurd rfl hb
    · rw [Function.update_of_ne hba] at hb ⊢
      rw [Function.update_of_ne fun e => hba (h.inj b a e hb)]
      exact h.range b hb
  owner e he hen hcell := by
    by_cases heg : e = own a
    · rw [heg, Function.update_self] at hcell; omega
    · rw [Function.update_of_ne heg] at hcell
      obtain ⟨b, hb⟩ := h.owner e he hen hcell
      exact ⟨b, by rw [Function.update_of_ne fun hba => heg (by rw [← hb, hba])]; exact hb⟩
  inj b c hbc hb := by
    by_cases hba : b = a
    · rw [hba, Function.update_self] at hb; exact absurd rfl hb
    · rw [Function.update_of_ne hba] at hbc hb
      by_cases hca : c = a
      · rw [hca, Function.update_self] at hbc; exact absurd hbc hb
      · rw [Function.update_of_ne hca] at hbc
        exact h.inj b c hbc hb

/-- A slot hands its cell to one that owns nothing. -/
theorem transfer (h : Owns n own cell) {a b : α} (ha : own a = -1) (hb : own b ≠ -1) :
    Owns n (update (update own a (own b)) b (-1)) cell := by
  have hba : a ≠ b := fun e => hb (e ▸ ha)
  obtain ⟨h0, hn, hcell⟩ := h.range b hb
  have hrel := h.release hb
  have hacq := hrel.acquire (a := a) (g := own b) (by rw [Function.update_of_ne hba]; exact ha) h0 hn
    (Function.update_self _ _ _)
  have hcells : update (update cell (own b) 1) (own b) 0 = cell := by
    rw [Function.update_idem, ← hcell, Function.update_eq_self]
  rwa [hcells, Function.update_comm hba.symm] at hacq

end Owns

/-! ## The search for a free cell -/

/-- Walk along the cells from index `i` to the first one that is -1 or 1; `none` when the next `fuel`
cells have neither. -/
def freeScan (cell : ℤ → ℤ) : ℕ → ℕ → Option ℕ
  | 0, _ => none
  | fuel + 1, i => if cell i = -1 ∨ cell i = 1 then some i else freeScan cell fuel (i + 1)

theorem freeScan_le {cell : ℤ → ℤ} {fuel i g : ℕ} (h : freeScan cell fuel i = some g) :
    g < i + fuel ∧ (cell g = -1 ∨ cell g = 1) ∧ ∀ e, i ≤ e → e < g → cell e ≠ -1 ∧ cell e ≠ 1 := by
  induction fuel generalizing i with
  | zero => cases h
  | succ fuel ih =>
    unfold freeScan at h
    split at h
    · cases h
      rename_i hc
      exact ⟨by omega, hc, fun e he heg => by omega⟩
    · rename_i hc
      obtain ⟨hlt, hg, hrest⟩ := ih h
      refine ⟨by omega, hg, fun e he heg => ?_⟩
      rcases Nat.eq_or_lt_of_le he with rfl | hlt
      · exact not_or.1 hc
      · exact hrest e hlt heg

/-- The end marker stops the search. -/
theorem exists_freeScan {cell : ℤ → ℤ} {n i : ℕ} (h : cell n = -1) (hi : i ≤ n) :
    ∃ g ≤ n, freeScan cell (n + 1 - i) i = some g := by
  obtain ⟨d, rfl⟩ : ∃ d, n = i + d := ⟨n - i, by omega⟩
  induction d generalizing i with
  | zero =>
    refine ⟨i, le_rfl, ?_⟩
    rw [show i + 0 + 1 - i = 0 + 1 by omega, freeScan, if_pos (.inl h)]
  | succ d ih =>
    rw [show i + (d + 1) + 1 - i = (d + 1) + 1 by omega, freeScan]
    split
    · exact ⟨i, by omega, rfl⟩
    · obtain ⟨g, hg, hscan⟩ := ih (i := i + 1) (by rw [← h]; congr 1; omega) (by omega)
      rw [show i + 1 + d + 1 - (i + 1) = d + 1 by omega] at hscan
      exact ⟨g, by omega, hscan⟩
