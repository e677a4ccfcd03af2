import Mathlib.Data.List.Sort
import Mathlib.Order.Defs.LinearOrder

/-!
# A cache with least recently used replacement

A cache of fixed size holds a slot for each of its keys, the least recently used key first. An access of a
key it holds is a hit and moves the key to the end; on a miss the key takes the slot of the first one.
`Ordered` says that the list is in the order of given stamps. `Ordered.hit` and `Ordered.miss` say how
the stamps have to change for this to stay so.
-/

namespace LruCache

variable {α β γ : Type*} [DecidableEq α]

/-- The cache, and the slot of the key on a hit. -/
def access (c : List (α × β)) (a : α) : List (α × β) × Option β :=
  match c.find? fun x => x.1 = a with
  | some x => (c.filter (fun y => y.1 ≠ a) ++ [x], some x.2)
  | none =>
    match c with
    | [] => ([], none)
    | x :: rest => (rest ++ [(a, x.2)], none)

/-- One access after the other; the answers in order. -/
def accesses : List (α × β) → List α → List (α × β) × List (Option β)
  | c, [] => (c, [])
  | c, a :: as => ((accesses (access c a).1 as).1, (access c a).2 :: (accesses (access c a).1 as).2)

theorem accesses_append (c : List (α × β)) (as : List α) (a : α) :
    accesses c (as ++ [a]) = ((access (accesses c as).1 a).1, (accesses c as).2 ++ [(access (accesses c as).1 a).2]) := by
  induction as generalizing c with
  | nil => rfl
  | cons b as ih => simp only [List.cons_append, accesses, ih]

theorem find?_key {c : List (α × β)} {a : α} {x : α × β} (h : c.find? (fun x => x.1 = a) = some x) : x ∈ c ∧ x.1 = a :=
  ⟨List.mem_of_find?_eq_some h, by simpa using List.find?_some h⟩

theorem access_miss {c : List (α × β)} {a : α} {x : α × β} (hno : ∀ y ∈ x :: c, y.1 ≠ a) :
    access (x :: c) a = (c ++ [(a, x.2)], none) := by
  have hfind : (x :: c).find? (fun y => y.1 = a) = none := by
    rw [List.find?_eq_none]
    intro y hy
    simpa using hno y hy
  unfold access
  rw [hfind]

variable [LinearOrder γ]

def Ordered (stamp : α → γ) (c : List (α × β)) : Prop := c.Pairwise fun x y => stamp x.1 < stamp y.1

namespace Ordered

variable {stamp stamp' : α → γ} {c : List (α × β)} {a : α} {x y : α × β}

omit [DecidableEq α] in
/-- A key is held once. -/
theorem unique (h : Ordered stamp c) (hx : x ∈ c) (hy : y ∈ c) (hxy : x.1 = y.1) : x = y := by
  induction c with
  | nil => cases hx
  | cons z c ih =>
    obtain ⟨hz, hc⟩ := List.pairwise_cons.1 h
    rcases List.mem_cons.1 hx with rfl | hx' <;> rcases List.mem_cons.1 hy with rfl | hy'
    · rfl
    · exact absurd (hz y hy') (hxy ▸ lt_irrefl _)
    · exact absurd (hz x hx') (hxy ▸ lt_irrefl _)
    · exact ih hc hx' hy'

theorem access_hit (h : Ordered stamp c) (hx : x ∈ c) (ha : x.1 = a) :
    access c a = (c.filter (fun y => y.1 ≠ a) ++ [x], some x.2) := by
  have hfind : c.find? (fun y => y.1 = a) = some x := by
    have hsome : (c.find? fun y => y.1 = a).isSome := List.find?_isSome.2 ⟨x, hx, decide_eq_true ha⟩
    obtain ⟨y, hy⟩ := Option.isSome_iff_exists.1 hsome
    obtain ⟨hyc, hya⟩ := find?_key hy
    rw [hy, h.unique hyc hx (hya.trans ha.symm)]
  unfold access
  rw [hfind]

/-- On a hit the key is to become the youngest, and the others to stay as they were. -/
theorem hit (h : Ordered stamp c) (ha : x.1 = a) (hkeep : ∀ y ∈ c, y.1 ≠ a → stamp' y.1 = stamp y.1)
    (hlast : ∀ y ∈ c, y.1 ≠ a → stamp' y.1 < stamp' a) : Ordered stamp' (c.filter (fun y => y.1 ≠ a) ++ [x]) := by
  refine List.pairwise_append.2 ⟨?_, List.pairwise_singleton _ _, fun y hy z hz => ?_⟩
  · refine (List.Pairwise.filter _ h).imp_of_mem fun hy hz hlt => ?_
    simp only [List.mem_filter, decide_eq_true_eq] at hy hz
    rwa [hkeep _ hy.1 hy.2, hkeep _ hz.1 hz.2]
  · rw [List.mem_singleton.1 hz, ha]
    simp only [List.mem_filter, decide_eq_true_eq] at hy
    exact hlast y hy.1 hy.2

omit [DecidableEq α] in
/-- On a miss the first key goes. -/
theorem miss (h : Ordered stamp (x :: c)) (ha : y.1 = a) (hkeep : ∀ y ∈ c, stamp' y.1 = stamp y.1)
    (hlast : ∀ y ∈ c, stamp' y.1 < stamp' a) : Ordered stamp' (c ++ [y]) := by
  refine List.pairwise_append.2 ⟨?_, List.pairwise_singleton _ _, fun y hy z hz => ?_⟩
  · refine (List.pairwise_cons.1 h).2.imp_of_mem fun hy hz hlt => ?_
    rwa [hkeep _ hy, hkeep _ hz]
  · rw [List.mem_singleton.1 hz, ha]
    exact hlast y hy

end Ordered

omit [DecidableEq α] in
/-- Keys with stamps of their own can be put in a cache. -/
theorem exists_ordered {stamp : α → γ} (hinj : Function.Injective stamp) (slot : α → β) (as : List α) (hnodup : as.Nodup) :
    ∃ c : List (α × β), Ordered stamp c ∧ ∀ a b, (a, b) ∈ c ↔ a ∈ as ∧ b = slot a := by
  have hperm := List.perm_insertionSort (fun a b => stamp a ≤ stamp b) as
  have hle := List.pairwise_insertionSort (fun a b => stamp a ≤ stamp b) as
  have hlt : (as.insertionSort fun a b => stamp a ≤ stamp b).Pairwise fun a b => stamp a < stamp b :=
    (hle.and (hperm.nodup_iff.2 hnodup)).imp fun h => lt_of_le_of_ne h.1 fun heq => h.2 (hinj heq)
  refine ⟨(as.insertionSort fun a b => stamp a ≤ stamp b).map fun a => (a, slot a), List.pairwise_map.2 hlt, fun a b => ?_⟩
  rw [List.mem_map]
  constructor
  · rintro ⟨a', ha', heq⟩
    cases heq
    exact ⟨hperm.mem_iff.1 ha', rfl⟩
  · rintro ⟨ha, rfl⟩
    exact ⟨a, hperm.mem_iff.2 ha, rfl⟩

end LruCache
