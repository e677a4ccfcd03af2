import OsLab.A6.PthreadBarrier

/-!
# A barrier for parties that change (A6/session.c:41-57)

main and the doctor meet another visitor at the barrier each time, so the threads that use it are more than its
count of 3, and one of them can still be on its way out while the next round gathers. `Gathers`: the calls whose round
has not tripped are those in `I`, and they are at most `n`.

`Gathers.step_cases` is all that a caller has to know of a step inside `pthread_barrier_wait`: it changes nothing that
others see, or the thread returns, or it trips the barrier, and then `n` were inside and nobody is any more.
-/

namespace OsLab.A6

open Function (update)

namespace PthreadBarrier

variable {ι : Type} {b b' : PthreadBarrier ι} {n : Nat} {I : Finset ι} {i j : ι}

/-- In a call whose round has not tripped. -/
def inside (b : PthreadBarrier ι) (i : ι) : Prop := b.pc i ≠ none ∧ leaving (b.pc i) = false

instance (b : PthreadBarrier ι) (i : ι) : Decidable (b.inside i) := inferInstanceAs (Decidable (_ ∧ _))

structure Gathers (n : Nat) (I : Finset ι) (b : PthreadBarrier ι) : Prop where
  tripCount : b.tripCount = n
  owner : ∀ i, b.owner = some i ↔ holds (b.pc i) = true
  mem : ∀ i, i ∈ I ↔ b.inside i
  card : I.card ≤ n
  count : (∀ i, b.pc i ≠ some .broadcast) → b.count = (I.filter fun i => arrived (b.pc i)).card
  full : ∀ i, b.pc i = some .reset ∨ b.pc i = some .broadcast → I.card = n ∧ ∀ j ∈ I, arrived (b.pc j) = true
  zero : ∀ i, b.pc i = some .broadcast → b.count = 0

/-- What the others see of a step of thread `i` inside `pthread_barrier_wait`. -/
inductive Passes (n : Nat) (b : PthreadBarrier ι) (i : ι) (b' : PthreadBarrier ι) : Prop
  | on : (∀ j, b'.inside j ↔ b.inside j) → (∀ j, b'.pc j = none ↔ b.pc j = none) → Passes n b i b'
  | out : ¬ b.inside i → b'.pc i = none → (∀ j, j ≠ i → b'.pc j = b.pc j) → Passes n b i b'
  | trip (I : Finset ι) : i ∈ I → I.card = n → (∀ j, j ∈ I ↔ b.inside j) → (∀ j, ¬ b'.inside j) →
      (∀ j, b'.pc j = none ↔ b.pc j = none) → Passes n b i b'

namespace Gathers

theorem init (n : Nat) : Gathers n ∅ (PthreadBarrier.init n : PthreadBarrier ι) where
  tripCount := rfl
  owner i := by simp [PthreadBarrier.init, holds]
  mem i := by simp [PthreadBarrier.init, inside]
  card := Nat.zero_le n
  count _ := rfl
  full i hi := by simp [PthreadBarrier.init] at hi
  zero _ _ := rfl

/-- The mutex excludes. -/
theorem holds_unique (G : Gathers n I b) (hi : holds (b.pc i) = true) (hj : holds (b.pc j) = true) : i = j := by
  have h1 := (G.owner i).2 hi
  have h2 := (G.owner j).2 hj
  exact Option.some.inj (h1.symm.trans h2)

theorem inside_of_arrived (h : arrived (b.pc i) = true) : b.inside i := by
  rcases hp : b.pc i with _ | p
  · simp [hp, arrived] at h
  · cases p <;> simp_all [inside, leaving, arrived]

/-- At a broadcast everybody else inside is blocked. -/
theorem blocked_of_broadcast (G : Gathers n I b) (hpc : b.pc i = some .broadcast) (hj : j ∈ I) (hne : j ≠ i) :
    b.pc j = some .blocked := by
  have harr := (G.full i (.inr hpc)).2 j hj
  have hnot : holds (b.pc j) ≠ true := fun h => hne (G.holds_unique h (by simp [hpc, holds]))
  rcases hp : b.pc j with _ | p
  · simp [hp, arrived] at harr
  · cases p <;> simp_all [arrived, holds]

variable [DecidableEq ι]

/-- A step of thread `i` alone that changes neither who is inside nor who has arrived. -/
theorem setPc (G : Gathers n I b) (q : Option WaitPc) (hpc : b'.pc = update b.pc i q) (htc : b'.tripCount = b.tripCount)
    (hcount : b'.count = b.count) (harr : arrived q = arrived (b.pc i)) (hold : b.pc i ≠ some .broadcast)
    (hreset : q ≠ some .reset) (hbroadcast : q ≠ some .broadcast)
    (hin : (q ≠ none ∧ leaving q = false) ↔ b.inside i)
    (howner : ∀ j, b'.owner = some j ↔ holds (b'.pc j) = true) : Gathers n I b' := by
  have hsame : ∀ j, arrived (b'.pc j) = arrived (b.pc j) := by
    intro j
    by_cases e : j = i
    · simp [e, hpc, harr]
    · simp [e, hpc]
  have hother : ∀ j, b'.pc j = some .reset ∨ b'.pc j = some .broadcast → b'.pc j = b.pc j := by
    intro j hj
    by_cases e : j = i
    · subst e
      simp [hpc, hreset, hbroadcast] at hj
    · simp [hpc, e]
  constructor
  · rw [htc]; exact G.tripCount
  · exact howner
  · intro j
    by_cases e : j = i
    · rw [G.mem, e, ← hin, inside, hpc, Function.update_self]
    · rw [G.mem, inside, inside, hpc, Function.update_of_ne e]
  · exact G.card
  · intro hno
    simp only [hcount, hsame]
    refine G.count fun j => ?_
    by_cases e : j = i
    · exact e ▸ hold
    · simpa [e, hpc] using hno j
  · intro j hj
    simp only [hsame]
    rw [hother j hj] at hj
    exact G.full j hj
  · intro j hj
    rw [hother j (.inr hj)] at hj
    rw [hcount]
    exact G.zero j hj

/-- `++(barrier->count)`: one more has arrived. -/
theorem incr (G : Gathers n I b) (hpc : b.pc i = some .incr) :
    Gathers n I ({ b with count := b.count + 1 }.goto i .test) := by
  have hno : ∀ j, b.pc j ≠ some .reset ∧ b.pc j ≠ some .broadcast := by
    intro j
    constructor
    all_goals
      intro e
      obtain rfl := G.holds_unique (i := i) (j := j) (by simp [hpc, holds]) (by simp [e, holds])
      simp [hpc] at e
  have hi : i ∈ I := (G.mem i).2 (by simp [inside, hpc, leaving])
  have harrived : (I.filter fun j => arrived (({ b with count := b.count + 1 }.goto i .test).pc j)) =
      insert i (I.filter fun j => arrived (b.pc j)) := by
    ext j
    simp only [Finset.mem_filter, Finset.mem_insert, goto_pc]
    by_cases e : j = i
    · simp [e, arrived, hi]
    · simp [e]
  have hnotMem : i ∉ I.filter fun j => arrived (b.pc j) := by
    rw [Finset.mem_filter, hpc]
    simp [arrived]
  have hnew : ∀ j, ({ b with count := b.count + 1 }.goto i .test).pc j ≠ some .reset ∧
      ({ b with count := b.count + 1 }.goto i .test).pc j ≠ some .broadcast := by
    intro j
    by_cases e : j = i
    · simp [e]
    · simpa [e, goto_pc] using hno j
  constructor
  · exact G.tripCount
  · exact Rounds.owner_keep G.owner (by simp [hpc, holds]) rfl rfl
  · intro j
    rw [G.mem, inside, inside, goto_pc]
    by_cases e : j = i
    · simp [e, hpc, leaving]
    · simp [e]
  · exact G.card
  · intro _
    rw [harrived, Finset.card_insert_of_notMem hnotMem, ← G.count fun j => (hno j).2]
    rfl
  · intro j hj
    rcases hj with hj | hj
    · exact absurd hj (hnew j).1
    · exact absurd hj (hnew j).2
  · intro j hj
    exact absurd hj (hnew j).2

/-- The count has reached `tripCount`: `n` are inside, and all of them have arrived. -/
theorem trip (G : Gathers n I b) (hpc : b.pc i = some .test) (hc : b.tripCount ≤ b.count) :
    Gathers n I (b.goto i .reset) := by
  have hno : ∀ j, b.pc j ≠ some .broadcast := by
    intro j e
    obtain rfl := G.holds_unique (i := i) (j := j) (by simp [hpc, holds]) (by simp [e, holds])
    simp [hpc] at e
  have hle := Finset.card_filter_le I fun j => arrived (b.pc j)
  have hcard := G.card
  rw [G.tripCount, G.count hno] at hc
  have hall : ∀ j ∈ I, arrived (b.pc j) = true := by
    have heq := Finset.eq_of_subset_of_card_le (Finset.filter_subset (fun j => arrived (b.pc j)) I) (hcard.trans hc)
    exact Finset.filter_eq_self.1 heq
  have hsame : ∀ j, arrived ((b.goto i .reset).pc j) = arrived (b.pc j) := by
    intro j
    rw [goto_pc]
    by_cases e : j = i
    · simp [e, hpc, arrived]
    · simp [e]
  constructor
  · exact G.tripCount
  · exact Rounds.owner_keep G.owner (by simp [hpc, holds]) rfl rfl
  · intro j
    rw [G.mem, inside, inside, goto_pc]
    by_cases e : j = i
    · simp [e, hpc, leaving]
    · simp [e]
  · exact G.card
  · intro _
    simp only [hsame]
    exact G.count hno
  · intro j _
    simp only [hsame]
    exact ⟨by omega, hall⟩
  · intro j hj
    rw [goto_pc] at hj
    split_ifs at hj
    · cases hj
    · exact absurd hj (hno j)

theorem reset (G : Gathers n I b) (hpc : b.pc i = some .reset) :
    Gathers n I ({ b with count := 0 }.goto i .broadcast) := by
  have hsame : ∀ j, arrived (({ b with count := 0 }.goto i .broadcast).pc j) = arrived (b.pc j) := by
    intro j
    rw [goto_pc]
    by_cases e : j = i
    · simp [e, hpc, arrived]
    · simp [e]
  constructor
  · exact G.tripCount
  · exact Rounds.owner_keep G.owner (by simp [hpc, holds]) rfl rfl
  · intro j
    rw [G.mem, inside, inside, goto_pc]
    by_cases e : j = i
    · simp [e, hpc, leaving]
    · simp [e]
  · exact G.card
  · intro hno
    exact absurd (goto_pc_same _ _ _) (hno i)
  · intro _ _
    simp only [hsame]
    exact G.full i (.inl hpc)
  · intro _ _
    rfl

/-- The broadcast ends the round: everybody inside is on the way out of it. -/
theorem broadcast (G : Gathers n I b) (hpc : b.pc i = some .broadcast) :
    Gathers n ∅ (b.wakeAll.goto i .unlockTrip) ∧ ∀ j, (b.wakeAll.goto i .unlockTrip).pc j = none ↔ b.pc j = none := by
  have hnew : ∀ j, (b.wakeAll.goto i .unlockTrip).pc j =
      if j = i then some .unlockTrip else if b.pc j = some .blocked then some .relock else b.pc j := by
    intro j
    by_cases e : j = i
    · simp [e]
    · simp [e, goto_pc, wakeAll]
  have hout : ∀ j, ¬ (b.wakeAll.goto i .unlockTrip).inside j := by
    intro j hin
    rw [inside, hnew] at hin
    split_ifs at hin with e hblocked
    · simp [leaving] at hin
    · simp [leaving] at hin
    · exact hblocked (G.blocked_of_broadcast hpc ((G.mem j).2 hin) e)
  have harr : ∀ j, arrived ((b.wakeAll.goto i .unlockTrip).pc j) = false := by
    intro j
    by_contra h
    exact hout j (inside_of_arrived (by simpa using h))
  refine ⟨⟨G.tripCount, ?_, ?_, ?_, ?_, ?_, ?_⟩, ?_⟩
  · intro j
    have h := G.owner j
    rw [hnew]
    by_cases e : j = i
    · simpa [e, goto, wakeAll, hpc, holds] using G.owner i
    · rw [if_neg e]
      split_ifs with hblocked
      · simpa [goto, wakeAll, hblocked, holds] using h
      · exact h
  · intro j
    simp [hout]
  · simp
  · intro _
    rw [Finset.filter_empty, Finset.card_empty]
    exact G.zero i hpc
  · intro j hj
    have h := harr j
    rcases hj with hj | hj <;> rw [hj] at h <;> cases h
  · intro j hj
    have h := harr j
    rw [hj] at h
    cases h
  · intro j
    rw [hnew]
    by_cases e : j = i
    · simp [e, hpc]
    · rw [if_neg e]
      split_ifs with hblocked
      · simp [hblocked]
      · rfl

/-- A call enters while less than `n` are inside. -/
theorem enter (G : Gathers n I b) (hlt : I.card < n) (h : b.step (.enter i) = some b') :
    Gathers n (insert i I) b' ∧ b.pc i = none ∧ b'.inside i ∧ ∀ j, j ≠ i → b'.pc j = b.pc j := by
  cases move_of_step h with
  | enter _ hpc =>
    have hi : i ∉ I := fun hi => ((G.mem i).1 hi).1 hpc
    have hsame : ∀ j, j ≠ i → ({ b with entered := update b.entered i (b.entered i + 1) }.goto i .lock).pc j = b.pc j := by
      intro j hj
      simp [goto_pc, hj]
    have hin : ({ b with entered := update b.entered i (b.entered i + 1) }.goto i .lock).inside i := by
      simp [inside, leaving]
    have hother : ∀ j, ({ b with entered := update b.entered i (b.entered i + 1) }.goto i .lock).pc j = some .reset ∨
        ({ b with entered := update b.entered i (b.entered i + 1) }.goto i .lock).pc j = some .broadcast → j ≠ i := by
      rintro j hj rfl
      simp at hj
    refine ⟨⟨G.tripCount, ?_, ?_, ?_, ?_, ?_, ?_⟩, hpc, hin, hsame⟩
    · exact Rounds.owner_keep G.owner (by simp [hpc, holds]) rfl rfl
    · intro j
      rw [Finset.mem_insert, G.mem]
      by_cases e : j = i
      · simp [e, hin]
      · rw [inside, inside, hsame j e]
        simp [e]
    · rw [Finset.card_insert_of_notMem hi]
      exact hlt
    · intro hno
      have hcount : b.count = (I.filter fun j => arrived (b.pc j)).card := by
        refine G.count fun j hj => ?_
        have e : j ≠ i := by
          rintro rfl
          rw [hpc] at hj
          cases hj
        exact hno j ((hsame j e).trans hj)
      rw [Finset.filter_insert, if_neg (by simp [arrived])]
      refine hcount.trans (congrArg _ (Finset.filter_congr fun j hj => ?_))
      rw [hsame j fun e => hi (e ▸ hj)]
    · intro j hj
      have e := hother j hj
      rw [hsame j e] at hj
      have hfull := G.full j hj
      omega
    · intro j hj
      rw [hsame j (hother j (.inr hj))] at hj
      exact G.zero j hj

/-- Who is inside only depends on where the threads are. -/
theorem passes_on {b' : PthreadBarrier ι} {q : WaitPc} (hpc : b'.pc = update b.pc i (some q)) (hold : b.pc i ≠ none)
    (hin : leaving (some q) = leaving (b.pc i)) : Passes n b i b' := by
  refine .on (fun j => ?_) fun j => ?_
  · by_cases e : j = i
    · simp [inside, hpc, e, hin, hold]
    · simp [inside, hpc, e]
  · by_cases e : j = i
    · simp [hpc, e, hold]
    · simp [hpc, e]

theorem step_cases (G : Gathers n I b) (h : b.step (.step i) = some b') : (∃ I', Gathers n I' b') ∧ Passes n b i b' := by
  cases move_of_step h with
  | lock _ hpc ho =>
    exact ⟨⟨I, G.setPc (some .incr) rfl rfl rfl (by simp [hpc, arrived]) (by simp [hpc]) (by simp) (by simp)
      (by simp [inside, hpc, leaving]) (Rounds.owner_acquire G.owner ho (by simp [holds]) rfl rfl)⟩,
      passes_on rfl (by simp [hpc]) (by simp [hpc, leaving])⟩
  | incr _ hpc => exact ⟨⟨I, G.incr hpc⟩, passes_on rfl (by simp [hpc]) (by simp [hpc, leaving])⟩
  | trip _ hpc hc => exact ⟨⟨I, G.trip hpc hc⟩, passes_on rfl (by simp [hpc]) (by simp [hpc, leaving])⟩
  | noTrip _ hpc hc =>
    exact ⟨⟨I, G.setPc (some .wait) rfl rfl rfl (by simp [hpc, arrived]) (by simp [hpc]) (by simp) (by simp)
      (by simp [inside, hpc, leaving]) (Rounds.owner_keep G.owner (by simp [hpc, holds]) rfl rfl)⟩,
      passes_on rfl (by simp [hpc]) (by simp [hpc, leaving])⟩
  | reset _ hpc => exact ⟨⟨I, G.reset hpc⟩, passes_on rfl (by simp [hpc]) (by simp [hpc, leaving])⟩
  | broadcast _ hpc =>
    obtain ⟨G', hnone⟩ := G.broadcast hpc
    have hi : i ∈ I := (G.mem i).2 (by simp [inside, hpc, leaving])
    refine ⟨⟨∅, G'⟩, .trip I hi (G.full i (.inr hpc)).1 G.mem (fun j hin => ?_) hnone⟩
    exact absurd ((G'.mem j).2 hin) (Finset.notMem_empty j)
  | wait _ hpc =>
    exact ⟨⟨I, G.setPc (some .blocked) rfl rfl rfl (by simp [hpc, arrived]) (by simp [hpc]) (by simp) (by simp)
      (by simp [inside, hpc, leaving]) (Rounds.owner_release G.owner (by simp [hpc, holds]) (by simp [holds]) rfl rfl)⟩,
      passes_on rfl (by simp [hpc]) (by simp [hpc, leaving])⟩
  | relock _ hpc ho =>
    exact ⟨⟨I, G.setPc (some .unlock) rfl rfl rfl (by simp [hpc, arrived]) (by simp [hpc]) (by simp) (by simp)
      (by simp [inside, hpc, leaving]) (Rounds.owner_acquire G.owner ho (by simp [holds]) rfl rfl)⟩,
      passes_on rfl (by simp [hpc]) (by simp [hpc, leaving])⟩
  | ret _ hpc =>
    have hout : ¬ b.inside i := by rcases hpc with hpc | hpc <;> simp [inside, hpc, leaving]
    have hheld : holds (b.pc i) = true := by rcases hpc with hpc | hpc <;> simp [hpc, holds]
    refine ⟨⟨I, G.setPc none rfl rfl rfl ?_ ?_ (by simp) (by simp) (by simp [hout])
      (Rounds.owner_release G.owner hheld (by simp [holds]) rfl rfl)⟩, .out hout (by simp [ret]) fun j hj => by simp [ret, hj]⟩
    all_goals rcases hpc with hpc | hpc <;> simp [hpc, arrived]

end Gathers

end PthreadBarrier

end OsLab.A6
