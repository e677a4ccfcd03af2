import Mathlib.Algebra.Order.Ring.Int
import Mathlib.Data.Finset.Card
import Mathlib.Data.Finset.Image
import Mathlib.Data.Finset.Range
import Mathlib.Logic.Function.Basic

/-!
# Descriptor tables

A table maps finitely many descriptors, none of them negative, to what they are open on. `add` opens the lowest free
one, and so does `dup`. `redirect_spec` is what `close(fd); dup(src)` comes to when all the descriptors below `fd` are
open: `fd` is then open on what `src` is open on, and the rest stays.
-/

open Function (update)

structure FdTable (α : Type*) where
  get : Int → Option α
  fds : Finset Int
  mem_fds : ∀ {fd}, fd ∈ fds ↔ get fd ≠ none
  nonneg : ∀ {fd}, fd ∈ fds → 0 ≤ fd

namespace FdTable

variable {α : Type*} {t t' : FdTable α} {fd src d : Int} {x : α}

def empty : FdTable α := ⟨fun _ => none, ∅, by simp, by simp⟩

theorem mem_of_get (h : t.get fd = some x) : fd ∈ t.fds := t.mem_fds.2 (by simp [h])

/-- The lowest free descriptor. -/
def low (t : FdTable α) : Int := ((List.range (t.fds.card + 1)).find? fun n : Nat => (n : Int) ∉ t.fds).getD 0

/-- There are more candidates than open descriptors. -/
theorem low_spec (t : FdTable α) : 0 ≤ t.low ∧ t.low ∉ t.fds ∧ ∀ d, 0 ≤ d → d < t.low → d ∈ t.fds := by
  have hfind : ∃ n, (List.range (t.fds.card + 1)).find? (fun n : Nat => (n : Int) ∉ t.fds) = some n := by
    apply Option.isSome_iff_exists.1
    rw [List.find?_isSome]
    by_contra hnone
    have hsub : (Finset.range (t.fds.card + 1)).image (fun n : Nat => (n : Int)) ⊆ t.fds := by
      intro d hd
      obtain ⟨n, hn, rfl⟩ := Finset.mem_image.1 hd
      by_contra hfree
      exact hnone ⟨n, List.mem_range.2 (Finset.mem_range.1 hn), by simpa using hfree⟩
    have hcard := Finset.card_le_card hsub
    rw [Finset.card_image_of_injective _ Nat.cast_injective, Finset.card_range] at hcard
    omega
  obtain ⟨n, hn⟩ := hfind
  have hlow : t.low = n := by rw [low, hn, Option.getD_some]
  obtain ⟨hfree, -, hbelow⟩ := List.find?_range_eq_some.1 hn
  rw [hlow]
  refine ⟨Int.natCast_nonneg n, by simpa using hfree, fun d h0 hd => ?_⟩
  obtain ⟨m, rfl⟩ := Int.eq_ofNat_of_zero_le h0
  simpa using hbelow m (Int.ofNat_lt.1 hd)

theorem low_eq (h0 : 0 ≤ fd) (hfree : fd ∉ t.fds) (hbelow : ∀ d, 0 ≤ d → d < fd → d ∈ t.fds) : t.low = fd := by
  obtain ⟨hlow, hlowFree, hlowBelow⟩ := t.low_spec
  rcases lt_trichotomy t.low fd with h | h | h
  · exact absurd (hbelow _ hlow h) hlowFree
  · exact h
  · exact absurd (hlowBelow _ h0 h) hfree

theorem low_ne (h : t.get fd = some x) : t.low ≠ fd := by
  rintro rfl
  exact t.low_spec.2.1 (mem_of_get h)

theorem lt_low (hopen : ∀ d, 0 ≤ d → d ≤ fd → d ∈ t.fds) : fd < t.low := by
  obtain ⟨hlow, hfree, -⟩ := t.low_spec
  by_contra hle
  exact hfree (hopen _ hlow (by omega))

/-! ## Opening and closing -/

/-- `close(fd)`. -/
def close (t : FdTable α) (fd : Int) : FdTable α where
  get := update t.get fd none
  fds := t.fds.erase fd
  mem_fds {d} := by
    by_cases h : d = fd
    · simp [h]
    · simp [h, t.mem_fds]
  nonneg h := t.nonneg (Finset.mem_of_mem_erase h)

/-- The lowest free descriptor is opened on `x`. -/
def add (t : FdTable α) (x : α) : FdTable α where
  get := update t.get t.low (some x)
  fds := insert t.low t.fds
  mem_fds {d} := by
    by_cases h : d = t.low
    · simp [h]
    · simp [h, t.mem_fds]
  nonneg h := by
    rcases Finset.mem_insert.1 h with rfl | h
    · exact t.low_spec.1
    · exact t.nonneg h

/-- What `dup(fd)` returns, and the table behind it. -/
def dup (t : FdTable α) (fd : Int) : Int × FdTable α :=
  match t.get fd with
  | some x => (t.low, t.add x)
  | none => (-1, t)

@[simp] theorem get_close (t : FdTable α) (fd d : Int) : (t.close fd).get d = if d = fd then none else t.get d :=
  Function.update_apply ..

@[simp] theorem fds_close (t : FdTable α) (fd : Int) : (t.close fd).fds = t.fds.erase fd := rfl

@[simp] theorem get_add (t : FdTable α) (x : α) (d : Int) :
    (t.add x).get d = if d = t.low then some x else t.get d := Function.update_apply ..

@[simp] theorem fds_add (t : FdTable α) (x : α) : (t.add x).fds = insert t.low t.fds := rfl

theorem card_close_le (t : FdTable α) (fd : Int) : (t.close fd).fds.card ≤ t.fds.card := Finset.card_erase_le

theorem mem_add (h : fd ∈ t.fds) (x : α) : fd ∈ (t.add x).fds := Finset.mem_insert_of_mem h

theorem dup_eq (h : t.get src = some x) : t.dup src = (t.low, t.add x) := by rw [dup, h]

/-- What was open before `add` stays so. -/
theorem get_add_of_get (h : t.get fd = some x) (y : α) : (t.add y).get fd = some x := by
  rw [get_add, if_neg (low_ne h).symm, h]

theorem get_add_low (t : FdTable α) (x : α) : (t.add x).get t.low = some x := by rw [get_add, if_pos rfl]

/-! ## Redirection -/

/-- `close(fd); dup(src)`, with every descriptor up to `fd` open. -/
theorem redirect_spec (hbelow : ∀ d, 0 ≤ d → d ≤ fd → d ∈ t.fds) (h0 : 0 ≤ fd) (hsrc : t.get src = some x)
    (hne : src ≠ fd) : ((t.close fd).dup src).1 = fd ∧ ((t.close fd).dup src).2.fds = t.fds ∧
      ∀ d, ((t.close fd).dup src).2.get d = if d = fd then some x else t.get d := by
  have hlow : (t.close fd).low = fd := by
    apply low_eq h0
    · simp
    · intro d hd hlt
      rw [fds_close, Finset.mem_erase]
      exact ⟨by omega, hbelow d hd (by omega)⟩
  have hget : (t.close fd).get src = some x := by rw [get_close, if_neg hne, hsrc]
  rw [dup_eq hget]
  refine ⟨hlow, ?_, fun d => ?_⟩
  · rw [fds_add, hlow, fds_close, Finset.insert_erase (hbelow fd h0 le_rfl)]
  · rw [get_add, hlow, get_close]
    split_ifs <;> rfl

end FdTable
