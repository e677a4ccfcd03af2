import Mathlib.Data.Finset.Card
import Mathlib.Data.List.Induction
import OsLab.Lib.LruCache

/-!
# What least recently used replacement costs

Only the keys of a cache matter here, the least recently used first. `touch` is an access; with `room` a miss gets a slot of
its own and nothing is replaced. `misses` counts the misses of a sequence of accesses.

* `touches_sublist`: a cache that holds more goes on holding more, and misses less (`misses_le_of_sublist`). With other
  ways to replace this may fail.
* `misses_le_mul`: with `n` slots there are at most `n` times as many misses as with any other choice of what to replace,
  even one that knows what will come (`Replacing`). The potential of a key that the other one does not hold is its place
  in the list: an access that misses lowers the sum by one at least, and a replacement of the other one raises it by `n` at
  most.
-/

namespace LruCache

variable {α β : Type*} [DecidableEq α]

def keys (c : List (α × β)) : List α := c.map Prod.fst

omit [DecidableEq α] in
@[simp] theorem mem_keys {c : List (α × β)} {a : α} : a ∈ keys c ↔ ∃ b, (a, b) ∈ c := by simp [keys]

/-- The keys behind an access. -/
def touch (ks : List α) (a : α) (room : Bool) : List α :=
  if a ∈ ks then ks.filter (· ≠ a) ++ [a]
  else if room then ks ++ [a]
  else
    match ks with
    | [] => []
    | _ :: ks => ks ++ [a]

def touches (ks : List α) (as : List (α × Bool)) : List α := as.foldl (fun ks x => touch ks x.1 x.2) ks

def misses : List α → List (α × Bool) → Nat
  | _, [] => 0
  | ks, x :: as => (if x.1 ∈ ks then 0 else 1) + misses (touch ks x.1 x.2) as

section
variable {ks : List α} {a k : α}

theorem touch_hit (h : a ∈ ks) (room : Bool) : touch ks a room = ks.filter (· ≠ a) ++ [a] := if_pos h

theorem touch_room (h : a ∉ ks) : touch ks a true = ks ++ [a] := if_neg h

@[simp] theorem touch_nil (a : α) : touch [] a false = [] := rfl

theorem touch_miss (h : a ∉ k :: ks) : touch (k :: ks) a false = ks ++ [a] := if_neg h

end

@[simp] theorem touches_concat (ks : List α) (as : List (α × Bool)) (x : α × Bool) :
    touches ks (as ++ [x]) = touch (touches ks as) x.1 x.2 := by
  simp [touches]

@[simp] theorem misses_concat (ks : List α) (as : List (α × Bool)) (x : α × Bool) :
    misses ks (as ++ [x]) = misses ks as + if x.1 ∈ touches ks as then 0 else 1 := by
  induction as generalizing ks with
  | nil => exact Nat.add_comm _ 0
  | cons y as ih =>
    rw [List.cons_append, misses, ih, misses, Nat.add_assoc]
    rfl

theorem keys_access (c : List (α × β)) (a : α) : keys (access c a).1 = touch (keys c) a false := by
  unfold access
  cases hfind : c.find? fun x => x.1 = a with
  | some x =>
    obtain ⟨hx, rfl⟩ := find?_key hfind
    rw [touch_hit (mem_keys.2 ⟨x.2, hx⟩)]
    simp [keys, List.filter_map, Function.comp_def]
  | none =>
    have hmem : a ∉ keys c := by
      rw [mem_keys]
      rintro ⟨b, hb⟩
      exact absurd (List.find?_eq_none.1 hfind _ hb) (by simp)
    cases c with
    | nil => rfl
    | cons x c =>
      have hkeys : keys (x :: c) = x.1 :: keys c := rfl
      rw [hkeys] at hmem ⊢
      rw [touch_miss hmem]
      simp [keys]

/-! ## A larger cache -/

theorem touch_sublist {ks ls : List α} (h : ks.Sublist ls) (a : α) (room : Bool) :
    (touch ks a false).Sublist (touch ls a room) := by
  by_cases hk : a ∈ ks
  · rw [touch_hit hk, touch_hit (h.subset hk)]
    exact (h.filter _).append_right _
  cases ks with
  | nil => exact List.nil_sublist _
  | cons k ks =>
    have htail : ks.Sublist ls := (List.sublist_cons_self k ks).trans h
    rw [touch_miss hk]
    by_cases hl : a ∈ ls
    · -- a hit of the larger cache only: what it moves to the end the smaller one does not hold
      rw [touch_hit hl]
      have hkeep : ks.filter (· ≠ a) = ks := List.filter_eq_self.2 fun b hb =>
        decide_eq_true fun hba => hk (hba ▸ List.mem_cons_of_mem k hb)
      rw [← hkeep]
      exact (htail.filter _).append_right _
    · cases room with
      | true =>
        rw [touch_room hl]
        exact htail.append_right _
      | false =>
        cases ls with
        | nil => cases h
        | cons l ls =>
          rw [touch_miss hl]
          exact List.Sublist.append_right h.tail _

theorem touches_sublist {ks ls : List α} (h : ks.Sublist ls) (as : List (α × Bool)) :
    (touches ks (as.map fun x => (x.1, false))).Sublist (touches ls as) := by
  induction as using List.reverseRecOn with
  | nil => exact h
  | append_singleton as x ih =>
    rw [List.map_append, List.map_singleton, touches_concat, touches_concat]
    exact touch_sublist ih x.1 x.2

/-- **A larger cache misses less.** -/
theorem misses_le_of_sublist {ks ls : List α} (h : ks.Sublist ls) (as : List (α × Bool)) :
    misses ls as ≤ misses ks (as.map fun x => (x.1, false)) := by
  induction as generalizing ks ls with
  | nil => exact Nat.le_refl 0
  | cons x as ih =>
    have hrest := ih (touch_sublist h x.1 x.2)
    have hmiss : (if x.1 ∈ ls then 0 else 1) ≤ if x.1 ∈ ks then 0 else 1 := by
      by_cases hk : x.1 ∈ ks
      · rw [if_pos (h.subset hk)]
        exact Nat.zero_le _
      · rw [if_neg hk]
        split <;> omega
    exact Nat.add_le_add hmiss hrest

/-! ## Any other replacement -/

/-- With `R` held, the accesses can be served with `n` replacements of one key by another. -/
inductive Replacing : Finset α → List α → Nat → Prop
  | nil (R : Finset α) : Replacing R [] 0
  | hit {R : Finset α} {a : α} {as : List α} {n : Nat} : a ∈ R → Replacing R as n → Replacing R (a :: as) n
  | miss {R : Finset α} {a : α} {as : List α} {n : Nat} (v : α) : a ∉ R → v ∈ R → Replacing (insert a (R.erase v)) as n →
      Replacing R (a :: as) (n + 1)

/-- How many keys `R` does not hold. -/
def absent (R : Finset α) (ks : List α) : Nat := ks.countP fun k => k ∉ R

/-- The places of the keys that `R` does not hold, the first being 1. -/
def potential (R : Finset α) : List α → Nat
  | [] => 0
  | k :: ks => absent R (k :: ks) + potential R ks

section
variable {R R' : Finset α} {ks ls : List α} {a v : α}

theorem potential_sublist (h : ks.Sublist ls) : potential R ks ≤ potential R ls := by
  induction h with
  | slnil => exact Nat.le_refl 0
  | cons l _ ih => exact ih.trans (Nat.le_add_left _ _)
  | cons_cons l h ih => exact Nat.add_le_add (List.Sublist.countP_le (h.cons_cons l)) ih

theorem potential_concat (ha : a ∈ R) (ks : List α) : potential R (ks ++ [a]) = potential R ks := by
  induction ks with
  | nil => simp [potential, absent, ha]
  | cons k ks ih =>
    rw [List.cons_append, potential, ih, potential, absent, absent, ← List.cons_append, List.countP_append]
    simp [ha]

/-- A key given up. -/
theorem absent_replace (h : ∀ k ∈ ks, k ∈ R → k ≠ v → k ∈ R') : absent R' ks ≤ absent R ks + ks.count v := by
  induction ks with
  | nil => exact Nat.le_refl 0
  | cons k ks ih =>
    have hrest := ih fun l hl => h l (List.mem_cons_of_mem k hl)
    have hk := h k List.mem_cons_self
    unfold absent at hrest ⊢
    rw [List.countP_cons, List.countP_cons, List.count_cons]
    by_cases hR' : k ∈ R'
    · simp only [hR', not_true_eq_false, decide_false, Bool.false_eq_true, if_false]
      omega
    by_cases hv : k = v
    · have hone : (if decide (k ∉ R') = true then 1 else 0) ≤ 1 := by split <;> omega
      rw [if_pos (beq_iff_eq.2 hv)]
      omega
    · have hR : k ∉ R := fun hR => hR' (hk hR hv)
      simp only [hR', hR, not_false_eq_true, decide_true, if_true]
      omega

/-- It counts at one place more for each of those before it. -/
theorem potential_replace (hnodup : ks.Nodup) (h : ∀ k ∈ ks, k ∈ R → k ≠ v → k ∈ R') :
    potential R' ks ≤ potential R ks + ks.length := by
  induction ks with
  | nil => exact Nat.le_refl 0
  | cons k ks ih =>
    have hrest := ih (List.nodup_cons.1 hnodup).2 fun l hl => h l (List.mem_cons_of_mem k hl)
    have habsent := absent_replace h
    have hone := List.nodup_iff_count_le_one.1 hnodup v
    rw [potential, potential, List.length_cons]
    omega

/-- Among as many keys as `R` has, one that `R` does not hold if `R` holds another one. -/
theorem absent_pos (hnodup : ks.Nodup) (hcard : R.card = ks.length) (ha : a ∈ R) (hks : a ∉ ks) : 0 < absent R ks := by
  rw [absent, List.countP_pos_iff]
  by_contra hall
  have hsubset : ks.toFinset ⊆ R.erase a := by
    intro k hk
    rw [List.mem_toFinset] at hk
    refine Finset.mem_erase.2 ⟨fun h => hks (h ▸ hk), ?_⟩
    by_contra hR
    exact hall ⟨k, hk, decide_eq_true hR⟩
  have hle := Finset.card_le_card hsubset
  rw [List.toFinset_card_of_nodup hnodup, Finset.card_erase_of_mem ha, hcard] at hle
  have hpos := Finset.card_pos.2 ⟨a, ha⟩
  omega

theorem touch_nodup (h : ks.Nodup) (a : α) : (touch ks a false).Nodup := by
  by_cases ha : a ∈ ks
  · rw [touch_hit ha]
    refine List.nodup_append.2 ⟨h.filter _, List.nodup_singleton a, ?_⟩
    simp
  · cases ks with
    | nil => exact List.nodup_nil
    | cons k ks =>
      rw [touch_miss ha]
      refine List.nodup_append.2 ⟨(List.nodup_cons.1 h).2, List.nodup_singleton a, ?_⟩
      rintro b hb c hc rfl
      rw [List.mem_singleton.1 hc] at hb
      exact ha (List.mem_cons_of_mem k hb)

theorem length_touch (h : ks.Nodup) (a : α) : (touch ks a false).length = ks.length := by
  by_cases ha : a ∈ ks
  · have herase : ks.filter (· ≠ a) = ks.erase a := by
      rw [h.erase_eq_filter]
      exact List.filter_congr fun b _ => by simp [bne, beq_eq_decide]
    have hpos := List.length_pos_of_mem ha
    rw [touch_hit ha, herase, List.length_append, List.length_erase_of_mem ha, List.length_singleton]
    omega
  · cases ks with
    | nil => rfl
    | cons k ks =>
      rw [touch_miss ha]
      simp

/-- An access to a key the other one holds: a miss is paid by the potential. -/
theorem potential_touch (hnodup : ks.Nodup) (hcard : R.card = ks.length) (ha : a ∈ R) :
    potential R (touch ks a false) + (if a ∈ ks then 0 else 1) ≤ potential R ks := by
  by_cases hks : a ∈ ks
  · rw [touch_hit hks, if_pos hks, potential_concat ha, Nat.add_zero]
    exact potential_sublist List.filter_sublist
  · have hpos := absent_pos hnodup hcard ha hks
    rw [if_neg hks]
    cases ks with
    | nil => cases hpos
    | cons k ks =>
      rw [touch_miss hks, potential_concat ha, potential]
      omega

/-- By induction on the accesses, with what the potential was at the start. -/
theorem misses_le_mul_add {as : List α} {n : Nat} (h : Replacing R as n) (hnodup : ks.Nodup) (hcard : R.card = ks.length) :
    misses ks (as.map fun a => (a, false)) ≤ ks.length * n + potential R ks := by
  induction h generalizing ks with
  | nil R => exact Nat.zero_le _
  | @hit R a as n ha _ ih =>
    have hrest := ih (touch_nodup hnodup a) (hcard.trans (length_touch hnodup a).symm)
    have hpay := potential_touch hnodup hcard ha
    rw [length_touch hnodup] at hrest
    rw [List.map_cons, misses]
    dsimp only
    omega
  | @miss R a as n v ha hv _ ih =>
    have hcard' : (insert a (R.erase v)).card = ks.length := by
      have hpos := Finset.card_pos.2 ⟨v, hv⟩
      rw [Finset.card_insert_of_notMem fun h => ha (Finset.mem_of_mem_erase h), Finset.card_erase_of_mem hv]
      omega
    have hrest := ih (touch_nodup hnodup a) (hcard'.trans (length_touch hnodup a).symm)
    have hpay := potential_touch hnodup hcard' (Finset.mem_insert_self a _)
    have hraise : potential (insert a (R.erase v)) ks ≤ potential R ks + ks.length :=
      potential_replace (v := v) hnodup fun k _ hR hne => Finset.mem_insert_of_mem (Finset.mem_erase.2 ⟨hne, hR⟩)
    rw [length_touch hnodup] at hrest
    rw [List.map_cons, misses, Nat.mul_succ]
    dsimp only
    omega

theorem potential_self (hR : ∀ k ∈ ks, k ∈ R) : potential R ks = 0 := by
  induction ks with
  | nil => rfl
  | cons k ks ih =>
    rw [potential, ih fun l hl => hR l (List.mem_cons_of_mem k hl), Nat.add_zero, absent, List.countP_eq_zero]
    intro l hl
    simpa using hR l hl

/-- **At most `n` times as many misses** with `n` slots as with any other choice, from the same keys. -/
theorem misses_le_mul {as : List α} {n : Nat} (h : Replacing ks.toFinset as n) (hnodup : ks.Nodup) :
    misses ks (as.map fun a => (a, false)) ≤ ks.length * n := by
  have hle := misses_le_mul_add h hnodup (List.toFinset_card_of_nodup hnodup)
  rwa [potential_self fun k hk => List.mem_toFinset.2 hk, Nat.add_zero] at hle

end

end LruCache
