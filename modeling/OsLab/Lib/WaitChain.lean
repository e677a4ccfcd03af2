import Mathlib.Data.List.Basic
import Mathlib.Logic.Function.Basic

/-!
# Processes that wait for their child

A process that forks and then waits for the child goes on only when the child is gone. So the processes that are left
of one program are a chain, the youngest first: each is the child of the next, and all but the youngest wait.

`P i` is the state of process `i`. `Chain` is kept by a step of the youngest process, by a fork of it (`fork`), and by the
wait of its parent (`collect`).
-/

namespace WaitChain

open Function (update)

variable {α : Type*} {parent : α → Option ℕ} {waits : α → Prop}

/-- `c` are the processes left, the youngest first. -/
inductive Chain (parent : α → Option ℕ) (waits : α → Prop) (P : ℕ → Option α) : List ℕ → Prop
  | root {r : ℕ} {a : α} : P r = some a → parent a = none → Chain parent waits P [r]
  | child {i j : ℕ} {c : List ℕ} {a b : α} : Chain parent waits P (i :: c) → P i = some b → waits b → P j = some a →
      parent a = some i → Chain parent waits P (j :: i :: c)

namespace Chain

variable {P P' : ℕ → Option α} {c : List ℕ} {i j t : ℕ} {a b : α}

theorem congr (h : Chain parent waits P c) (hP : ∀ i ∈ c, P' i = P i) : Chain parent waits P' c := by
  induction h with
  | root hr hparent => exact .root ((hP _ (by simp)).trans hr) hparent
  | child _ hi hw hj hparent ih =>
    exact .child (ih fun k hk => hP k (List.mem_cons_of_mem _ hk)) ((hP _ (by simp)).trans hi) hw
      ((hP _ (by simp)).trans hj) hparent

/-- All but the youngest wait. -/
theorem waits_of_mem (h : Chain parent waits P (t :: c)) (hi : i ∈ c) : ∃ b, P i = some b ∧ waits b := by
  induction c generalizing t with
  | nil => cases hi
  | cons k c ih =>
    cases h with
    | child hc hk hw _ _ =>
      rcases List.mem_cons.1 hi with rfl | hi
      · exact ⟨_, hk, hw⟩
      · exact ih hc hi

/-- The youngest process takes a step. -/
theorem step (h : Chain parent waits P (t :: c)) (ht : P t = some a) (hmem : t ∉ c) (hparent : parent b = parent a) :
    Chain parent waits (update P t (some b)) (t :: c) := by
  cases h with
  | root hr hroot =>
    obtain rfl := Option.some.inj (ht.symm.trans hr)
    exact .root (Function.update_self _ _ _) (hparent.trans hroot)
  | child hc hi hw hj hp =>
    obtain rfl := Option.some.inj (ht.symm.trans hj)
    have hother : ∀ k, k ≠ t → update P t (some b) k = P k := fun k hk => Function.update_of_ne hk _ _
    rw [List.mem_cons, not_or] at hmem
    refine .child (hc.congr fun k hk => hother k ?_) ((hother _ (Ne.symm hmem.1)).trans hi) hw (Function.update_self _ _ _)
      (hparent.trans hp)
    rintro rfl
    rcases List.mem_cons.1 hk with rfl | hk
    · exact hmem.1 rfl
    · exact hmem.2 hk

/-- The youngest process forks, and waits for `j`. -/
theorem fork (h : Chain parent waits P (t :: c)) (ht : P t = some a) (hmem : t ∉ c) (hj : j ∉ t :: c)
    (hparent : parent b = parent a) (hw : waits b) {d : α} (hd : parent d = some t) :
    Chain parent waits (update (update P t (some b)) j (some d)) (j :: t :: c) := by
  have hold : ∀ k ∈ t :: c, update (update P t (some b)) j (some d) k = update P t (some b) k := by
    intro k hk
    refine Function.update_of_ne ?_ _ _
    rintro rfl
    exact hj hk
  refine .child ((h.step ht hmem hparent).congr hold) ((hold t (by simp)).trans (Function.update_self _ _ _)) hw
    (Function.update_self _ _ _) hd

/-- The parent of the youngest process is done with its wait. -/
theorem collect (h : Chain parent waits P (t :: i :: c)) (hi : P i = some a) (hmem : t ∉ i :: c) (hmem' : i ∉ c)
    (hparent : parent b = parent a) {d : α} :
    Chain parent waits (update (update P t (some d)) i (some b)) (i :: c) := by
  cases h with
  | child hc _ _ _ _ =>
    have hold : ∀ k ∈ i :: c, update P t (some d) k = P k := by
      intro k hk
      refine Function.update_of_ne ?_ _ _
      rintro rfl
      exact hmem hk
    exact (hc.congr hold).step ((hold i (by simp)).trans hi) hmem' hparent

/-- The parent of the youngest process is the next of the chain. -/
theorem parent_of_cons (h : Chain parent waits P (t :: i :: c)) (ht : P t = some a) : parent a = some i := by
  cases h with
  | child _ _ _ hj hp => rw [Option.some.inj (ht.symm.trans hj), hp]

theorem parent_of_single (h : Chain parent waits P [t]) (ht : P t = some a) : parent a = none := by
  cases h with
  | root hr hp => rw [Option.some.inj (ht.symm.trans hr), hp]

end Chain

end WaitChain
