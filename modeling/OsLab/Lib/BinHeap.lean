import Mathlib.Data.Finset.Image
import Mathlib.Data.Finset.Range
import Mathlib.Data.Multiset.MapFold
import Mathlib.Logic.Equiv.Basic
import Mathlib.Order.Basic

/-!
# Binary heaps in an array

The heap is the first `n` cells of `Q : ℕ → α`; the children of cell `i` are `2i + 1` and `2i + 2`. The
loops compare with a test `lt` that need not be an order: `Compares lt key` only asks that its two
answers are right for the order of the keys, so on equal keys it may say anything.

`siftDown`, `siftUp` and `heapify` are the three loops. Each keeps the entries (`contents`) and repairs
the order at one cell: `DownHole` and `UpHole` say where the order may still fail while a loop runs.
-/

open Function (update)

namespace BinHeap

variable {α κ : Type*}

/-- The first `n` cells as a multiset. -/
def contents (Q : ℕ → α) (n : ℕ) : Multiset α := (Multiset.range n).map Q

def swap (Q : ℕ → α) (i j : ℕ) : ℕ → α := update (update Q i (Q j)) j (Q i)

/-- The child of cell `i` to compare with: the left one if it is the only one or tests smaller. -/
def child (lt : α → α → Bool) (n : ℕ) (Q : ℕ → α) (i : ℕ) : ℕ :=
  if 2 * i + 2 = n ∨ lt (Q (2 * i + 1)) (Q (2 * i + 2)) then 2 * i + 1 else 2 * i + 2

theorem child_pos (lt : α → α → Bool) (n : ℕ) (Q : ℕ → α) (i : ℕ) : i < child lt n Q i := by
  unfold child
  split <;> omega

theorem child_parent (lt : α → α → Bool) (n : ℕ) (Q : ℕ → α) (i : ℕ) : (child lt n Q i - 1) / 2 = i := by
  unfold child
  split <;> omega

theorem child_lt (lt : α → α → Bool) {n : ℕ} (Q : ℕ → α) {i : ℕ} (h : ¬ n ≤ 2 * i + 1) : child lt n Q i < n := by
  unfold child
  split <;> omega

/-- Move the entry of cell `i` down until it is below its smaller child. -/
def siftDown (lt : α → α → Bool) (n : ℕ) (Q : ℕ → α) (i : ℕ) : ℕ → α :=
  if n ≤ 2 * i + 1 then Q
  else if lt (Q i) (Q (child lt n Q i)) then Q
  else siftDown lt n (swap Q i (child lt n Q i)) (child lt n Q i)
termination_by n - i
decreasing_by
  have := child_pos lt n Q i
  omega

/-- Move the entry of cell `i` up until it is above its parent. -/
def siftUp (lt : α → α → Bool) (Q : ℕ → α) (i : ℕ) : ℕ → α :=
  if i = 0 then Q
  else if lt (Q ((i - 1) / 2)) (Q i) then Q
  else siftUp lt (swap Q i ((i - 1) / 2)) ((i - 1) / 2)
termination_by i
decreasing_by omega

/-- Sift down from the cells `j - 1, ..., 0`. -/
def heapify (lt : α → α → Bool) (n : ℕ) : ℕ → (ℕ → α) → ℕ → α
  | 0, Q => Q
  | j + 1, Q => heapify lt n j (siftDown lt n Q j)

/-! ## The entries -/

section
variable (Q : ℕ → α) {n i j : ℕ}

theorem swap_apply (x : ℕ) : swap Q i j x = Q (Equiv.swap i j x) := by
  unfold swap
  rw [Equiv.swap_apply_def, Function.update_apply, Function.update_apply]
  by_cases hj : x = j
  · rw [if_pos hj, hj]
    by_cases hi : j = i
    · rw [if_pos hi, hi]
    · rw [if_neg hi, if_pos rfl]
  · rw [if_neg hj, if_neg hj]
    split <;> rfl

theorem contents_swap (hi : i < n) (hj : j < n) : contents (swap Q i j) n = contents Q n := by
  have hperm : (Multiset.range n).map (Equiv.swap i j) = Multiset.range n := by
    have hset : (Finset.range n).map (Equiv.swap i j).toEmbedding = Finset.range n := by
      ext x
      rw [Finset.mem_map_equiv, Equiv.symm_swap, Finset.mem_range, Finset.mem_range, Equiv.swap_apply_def]
      split
      · omega
      · split <;> omega
    exact congrArg Finset.val hset
  calc contents (swap Q i j) n = (Multiset.range n).map (Q ∘ Equiv.swap i j) :=
        Multiset.map_congr rfl fun x _ => swap_apply Q x
    _ = contents Q n := by rw [← Multiset.map_map, hperm, contents]

theorem contents_succ : contents Q (n + 1) = Q n ::ₘ contents Q n := by
  rw [contents, Multiset.range_succ, Multiset.map_cons, contents]

theorem contents_congr {Q' : ℕ → α} (h : ∀ x < n, Q' x = Q x) : contents Q' n = contents Q n :=
  Multiset.map_congr rfl fun x hx => h x (Multiset.mem_range.1 hx)

theorem contents_update (hi : i < n) (a : α) : Q i ::ₘ contents (update Q i a) n = a ::ₘ contents Q n := by
  induction n with
  | zero => omega
  | succ n ih =>
    rw [contents_succ, contents_succ]
    rcases Nat.lt_succ_iff_lt_or_eq.1 hi with hlt | rfl
    · rw [Function.update_of_ne (by omega), Multiset.cons_swap, ih hlt, Multiset.cons_swap]
    · rw [Function.update_self, contents_congr Q fun x hx => Function.update_of_ne (by omega) _ _,
        Multiset.cons_swap]

theorem mem_contents {a : α} : a ∈ contents Q n ↔ ∃ i < n, Q i = a := by
  simp [contents]

end

section
variable (lt : α → α → Bool) (Q : ℕ → α) {n : ℕ}

theorem contents_siftDown (i : ℕ) (hi : i < n) : contents (siftDown lt n Q i) n = contents Q n := by
  fun_induction siftDown lt n Q i with
  | case1 => rfl
  | case2 => rfl
  | case3 Q i hc _ ih => rw [ih (child_lt lt Q hc), contents_swap Q hi (child_lt lt Q hc)]

theorem contents_siftUp (i : ℕ) (hi : i < n) : contents (siftUp lt Q i) n = contents Q n := by
  fun_induction siftUp lt Q i with
  | case1 => rfl
  | case2 => rfl
  | case3 Q i _ _ ih => rw [ih (by omega), contents_swap Q hi (by omega)]

/-- An entry that tests bigger than the root stays below it. -/
theorem siftUp_root (i : ℕ) (hi : 0 < i) (hlt : lt (Q 0) (Q i) = true) : siftUp lt Q i 0 = Q 0 := by
  fun_induction siftUp lt Q i with
  | case1 => omega
  | case2 => rfl
  | case3 Q i _ hup ih =>
    have hp : 0 < (i - 1) / 2 := by
      rcases Nat.eq_zero_or_pos ((i - 1) / 2) with h0 | hp
      · exact absurd hlt (h0 ▸ hup)
      · exact hp
    have hroot : swap Q i ((i - 1) / 2) 0 = Q 0 := by
      rw [swap_apply, Equiv.swap_apply_of_ne_of_ne (by omega) (by omega)]
    have hmoved : swap Q i ((i - 1) / 2) ((i - 1) / 2) = Q i := by rw [swap_apply, Equiv.swap_apply_right]
    rw [ih hp (by rw [hroot, hmoved]; exact hlt), hroot]

theorem contents_heapify (j : ℕ) (hj : j ≤ n) : contents (heapify lt n j Q) n = contents Q n := by
  induction j generalizing Q with
  | zero => rfl
  | succ j ih => rw [heapify, ih _ (by omega), contents_siftDown lt Q j (by omega)]

end

/-! ## The order -/

variable [LinearOrder κ]

/-- The answers of the test are right for the order of the keys. -/
structure Compares (lt : α → α → Bool) (key : α → κ) : Prop where
  le : ∀ a b, lt a b = true → key a ≤ key b
  ge : ∀ a b, lt a b = false → key b ≤ key a

/-- No entry is below its parent. -/
def IsHeap (key : α → κ) (Q : ℕ → α) (n : ℕ) : Prop := ∀ c, 0 < c → c < n → key (Q ((c - 1) / 2)) ≤ key (Q c)

/-- The cells from `j` on are in order, except that cell `i` may be above its children. -/
structure DownHole (key : α → κ) (Q : ℕ → α) (n j i : ℕ) : Prop where
  le : ∀ c, 0 < c → c < n → j ≤ (c - 1) / 2 → (c - 1) / 2 ≠ i → key (Q ((c - 1) / 2)) ≤ key (Q c)
  grand : 0 < i → j ≤ (i - 1) / 2 → ∀ c, 0 < c → c < n → (c - 1) / 2 = i → key (Q ((i - 1) / 2)) ≤ key (Q c)

/-- All cells are in order, except that cell `i` may be below its parent. -/
structure UpHole (key : α → κ) (Q : ℕ → α) (n i : ℕ) : Prop where
  le : ∀ c, 0 < c → c < n → c ≠ i → key (Q ((c - 1) / 2)) ≤ key (Q c)
  grand : 0 < i → ∀ c, 0 < c → c < n → (c - 1) / 2 = i → key (Q ((i - 1) / 2)) ≤ key (Q c)

section
variable {key : α → κ} {lt : α → α → Bool} {Q : ℕ → α} {n j i : ℕ}

/-- The root is minimal. -/
theorem IsHeap.root_le (h : IsHeap key Q n) {i : ℕ} (hi : i < n) : key (Q 0) ≤ key (Q i) := by
  induction i using Nat.strongRecOn with
  | ind i ih =>
    rcases Nat.eq_zero_or_pos i with rfl | hpos
    · exact le_rfl
    · exact (ih ((i - 1) / 2) (by omega) (by omega)).trans (h i hpos hi)

/-- Swapping the hole with its smaller child moves the hole down. -/
theorem DownHole.swap (H : DownHole key Q n j i) {m : ℕ} (hm : 0 < m) (hmn : m < n) (hp : (m - 1) / 2 = i)
    (hmin : ∀ c, 0 < c → c < n → (c - 1) / 2 = i → key (Q m) ≤ key (Q c)) (hle : key (Q m) ≤ key (Q i)) :
    DownHole key (swap Q i m) n j m where
  le c hc hcn hj hne := by
    have him : i ≠ m := by omega
    have hpc : (c - 1) / 2 ≠ m := hne
    by_cases hci : (c - 1) / 2 = i
    · -- the new entry of cell `i` is the smaller child
      rw [hci, swap_apply, swap_apply, Equiv.swap_apply_left]
      by_cases hcm : c = m
      · rw [hcm, Equiv.swap_apply_right]; exact hle
      · rw [Equiv.swap_apply_of_ne_of_ne (by omega) hcm]; exact hmin c hc hcn hci
    · rw [swap_apply, swap_apply, Equiv.swap_apply_of_ne_of_ne hci hpc]
      by_cases hc' : c = i
      · subst hc'
        rw [Equiv.swap_apply_left]
        exact H.grand hc hj m hm hmn hp
      · have hcm : c ≠ m := fun e => hci (e ▸ hp)
        rw [Equiv.swap_apply_of_ne_of_ne hc' hcm]
        exact H.le c hc hcn hj hci
  grand _ hj c hc hcn hcm := by
    rw [hp, swap_apply, swap_apply, Equiv.swap_apply_left, Equiv.swap_apply_of_ne_of_ne (by omega) (by omega), ← hcm]
    exact H.le c hc hcn (by omega) (by omega)

/-- The chosen child is the smaller one. -/
theorem Compares.child_le (h : Compares lt key) (Q : ℕ → α) (i c : ℕ) (hc : 0 < c) (hcn : c < n)
    (hp : (c - 1) / 2 = i) : key (Q (child lt n Q i)) ≤ key (Q c) := by
  have hlr : c = 2 * i + 1 ∨ c = 2 * i + 2 := by omega
  unfold child
  split
  · rename_i hl
    rcases hlr with rfl | rfl
    · exact le_rfl
    · exact h.le _ _ (hl.resolve_left (by omega))
  · rename_i hl
    rw [not_or, Bool.not_eq_true] at hl
    rcases hlr with rfl | rfl
    · exact h.ge _ _ hl.2
    · exact le_rfl

theorem siftDown_order (h : Compares lt key) (H : DownHole key Q n j i) :
    ∀ c, 0 < c → c < n → j ≤ (c - 1) / 2 → key (siftDown lt n Q i ((c - 1) / 2)) ≤ key (siftDown lt n Q i c) := by
  fun_induction siftDown lt n Q i with
  | case1 Q i hleaf => exact fun c hc hcn hj => H.le c hc hcn hj (by omega)
  | case2 Q i hleaf hlt =>
    intro c hc hcn hj
    by_cases hci : (c - 1) / 2 = i
    · rw [hci]
      exact (h.le _ _ hlt).trans (h.child_le Q i c hc hcn hci)
    · exact H.le c hc hcn hj hci
  | case3 Q i hleaf hlt ih =>
    rw [Bool.not_eq_true] at hlt
    have hpos := child_pos lt n Q i
    exact ih (H.swap (by omega) (child_lt lt Q hleaf) (child_parent lt n Q i) (h.child_le Q i) (h.ge _ _ hlt))

/-- Sifting down at `j` extends the ordered part to `j`. -/
theorem heapify_order (h : Compares lt key) (j : ℕ) (Q : ℕ → α)
    (H : ∀ c, 0 < c → c < n → j ≤ (c - 1) / 2 → key (Q ((c - 1) / 2)) ≤ key (Q c)) : IsHeap key (heapify lt n j Q) n := by
  induction j generalizing Q with
  | zero => exact fun c hc hcn => H c hc hcn (Nat.zero_le _)
  | succ j ih =>
    refine ih _ (siftDown_order h ⟨fun c hc hcn hj hne => H c hc hcn (by omega), fun hj hp => ?_⟩)
    omega

/-- **The bottom-up build**: the cells from `n / 2` on have no children. -/
theorem isHeap_heapify (h : Compares lt key) (n : ℕ) (Q : ℕ → α) : IsHeap key (heapify lt n (n / 2) Q) n :=
  heapify_order h _ Q fun c hc hcn hj => by omega

/-- **Replacing the root** of a heap and sifting down gives a heap. -/
theorem isHeap_siftDown (h : Compares lt key) (H : IsHeap key Q n) (a : α) :
    IsHeap key (siftDown lt n (update Q 0 a) 0) n := by
  intro c hc hcn
  refine siftDown_order (j := 0) h ⟨fun c hc hcn _ hne => ?_, fun h0 => absurd h0 (Nat.lt_irrefl 0)⟩ c hc hcn
    (Nat.zero_le _)
  rw [Function.update_of_ne hne, Function.update_of_ne (by omega)]
  exact H c hc hcn

/-- Swapping the hole with its parent moves the hole up. -/
theorem UpHole.swap (H : UpHole key Q n i) (hi : 0 < i) (hin : i < n) (hle : key (Q i) ≤ key (Q ((i - 1) / 2))) :
    UpHole key (swap Q i ((i - 1) / 2)) n ((i - 1) / 2) where
  le c hc hcn hne := by
    have hip : i ≠ (i - 1) / 2 := by omega
    by_cases hci : c = i
    · subst hci
      rw [swap_apply, swap_apply, Equiv.swap_apply_right, Equiv.swap_apply_left]
      exact hle
    · rw [swap_apply, swap_apply, Equiv.swap_apply_of_ne_of_ne hci hne]
      by_cases hpi : (c - 1) / 2 = i
      · -- a child of the old hole is above the old hole's parent
        rw [hpi, Equiv.swap_apply_left]
        exact H.grand hi c hc hcn hpi
      · by_cases hpp : (c - 1) / 2 = (i - 1) / 2
        · have hsib := H.le c hc hcn hci
          rw [hpp] at hsib
          rw [hpp, Equiv.swap_apply_right]
          exact hle.trans hsib
        · rw [Equiv.swap_apply_of_ne_of_ne hpi hpp]
          exact H.le c hc hcn hci
  grand hp c hc hcn hcp := by
    have hup : key (Q (((i - 1) / 2 - 1) / 2)) ≤ key (Q ((i - 1) / 2)) := H.le _ hp (by omega) (by omega)
    rw [swap_apply, swap_apply, Equiv.swap_apply_of_ne_of_ne (by omega) (by omega)]
    by_cases hci : c = i
    · rw [hci, Equiv.swap_apply_left]; exact hup
    · rw [Equiv.swap_apply_of_ne_of_ne hci (by omega)]
      have := H.le c hc hcn hci
      rw [hcp] at this
      exact hup.trans this

theorem siftUp_order (h : Compares lt key) (hin : i < n) (H : UpHole key Q n i) : IsHeap key (siftUp lt Q i) n := by
  fun_induction siftUp lt Q i with
  | case1 Q => exact fun c hc hcn => H.le c hc hcn (by omega)
  | case2 Q i hi hlt =>
    intro c hc hcn
    by_cases hci : c = i
    · rw [hci]; exact h.le _ _ hlt
    · exact H.le c hc hcn hci
  | case3 Q i hi hlt ih =>
    rw [Bool.not_eq_true] at hlt
    exact ih (by omega) (H.swap (by omega) hin (h.ge _ _ hlt))

/-- **Appending an entry** to a heap and sifting it up gives a heap. -/
theorem isHeap_siftUp (h : Compares lt key) (H : IsHeap key Q n) (a : α) :
    IsHeap key (siftUp lt (update Q n a) n) (n + 1) := by
  refine siftUp_order h (Nat.lt_succ_self n) ⟨fun c hc hcn hne => ?_, fun _ c hc hcn hp => by omega⟩
  rw [Function.update_of_ne hne, Function.update_of_ne (by omega)]
  exact H c hc (by omega)

end

end BinHeap
