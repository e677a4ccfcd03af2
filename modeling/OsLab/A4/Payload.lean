import OsLab.A4.Prodcons

/-!
# Address first, payload second (A4/prodcons_21CS30009.c:84-86)

The producer stores the recipient in `M[0]` before the item in `M[1]`. A consumer that finds its
number between the two stores adds the item of the production before. `Intact`: the values consumer
`i` adds are the items made for it, in order, and the checksums agree at the end.

`reachIf_itemStored_iff`: the runs in which no consumer reads `M[1]` in that window (or finds there,
by chance, the item that is about to be stored) are exactly those in which the values are intact.
-/

namespace OsLab.A4

open Trans (Reach ReachIf)

variable {n : Nat} {draws : List (Production n)} {s s' : Prodcons n}

/-- A consumer adds `M[1]` only when it holds the item that goes with its number. -/
def ItemStored (s : Prodcons n) : Proc n → Prop
  | .producer => True
  | .consumer i => s.cpc i = .add → ∀ p, s.ppc = .payload p → s.m1 = p.item

structure Intact (draws : List (Production n)) (s : Prodcons n) : Prop where
  /-- The `j`-th value consumer `i` adds is the `j`-th item made for `i`. -/
  values : ∀ i, Prodcons.items i s.took <+: Prodcons.items i draws
  sums : s.ppc = .stop ∨ s.m0 = -1 → ∀ i, s.checksum i = s.consChecksum i

namespace Prodcons

theorem items_prefix (i : Fin n) {l l' : List (Production n)} (h : l <+: l') : items i l <+: items i l' :=
  (h.filter _).map _

theorem length_items (i : Fin n) (l : List (Production n)) : (items i l).length = (l.map (·.consumer)).count i := by
  induction l with
  | nil => rfl
  | cons p l ih => by_cases h : p.consumer = i <;> simp_all [items]

/-- Two prefixes of one list with the same length. -/
theorem prefix_unique {α : Type*} {l₁ l₂ l : List α} (h₁ : l₁ <+: l) (h₂ : l₂ <+: l) (hlen : l₁.length = l₂.length) :
    l₁ = l₂ :=
  (List.prefix_of_prefix_length_le h₁ h₂ hlen.le).eq_of_length hlen

/-- In front of `checksum += M[1]` the last production is the consumer's own and the earlier ones are
consumed. -/
theorem Turn.at_add (T : Turn s) {i : Fin n} (hpc : s.cpc i = .add) :
    ∃ l p, s.sent = l ++ [p] ∧ p.consumer = i ∧ s.took.map (·.consumer) = l.map (·.consumer) := by
  obtain ⟨l, p, hl, hpi, hlen⟩ := T.held i (T.body i (.inl hpc))
  refine ⟨l, p, hl, hpi, ?_⟩
  have hord : s.took.map (·.consumer) <+: s.sent.map (·.consumer) := T.order
  refine prefix_unique hord (by rw [hl, List.map_append]; exact List.prefix_append _ _) ?_
  simp only [hpc, hl, reduceCtorEq, if_false, List.length_append, List.length_singleton] at hlen
  simpa using hlen

/-- A step that adds nothing keeps what was taken. -/
theorem took_of_step {a : Proc n} (h : s.step a = some s') :
    s'.took = s.took ∨ ∃ i, a = .consumer i ∧ s.cpc i = .add ∧ s'.took = s.took ++ [⟨s.m1, i⟩] := by
  cases move_of_step h with
  | add i hpc => exact .inr ⟨i, rfl, hpc, rfl⟩
  | tally p hpc =>
    rcases nextRound_cases { s with
        consItemc := Function.update s.consItemc p.consumer (s.consItemc p.consumer + 1)
        consChecksum := Function.update s.consChecksum p.consumer (s.consChecksum p.consumer + s.m1) }
      with ⟨-, he⟩ | ⟨q, todo, -, he⟩ <;> exact .inl (by rw [he])
  | _ => exact .inl rfl

/-- With `ItemStored` what is added is the production itself. -/
theorem took_prefix (h : ReachIf step ItemStored (Prodcons.init draws) s) : s.took <+: draws := by
  refine h.inv (I := fun s => s.took <+: draws) ?_ fun s a s' hr hI hok hs => ?_
  · rcases draws with _ | ⟨p, todo⟩ <;> simp [Prodcons.init, nextRound]
  · obtain ⟨T, B⟩ := inv_of_reach hr.reach
    rcases took_of_step hs with he | ⟨i, rfl, hpc, he⟩
    · rw [he]; exact hI
    · obtain ⟨l, p, hl, hpi, hmap⟩ := T.at_add hpc
      have hm1 : s.m1 = p.item := by
        by_cases hp : s.ppc = .payload p
        · exact hok hpc p hp
        · exact B.written l p hl hp
      have hsent : l ++ [p] <+: draws := by rw [← hl, ← B.left]; exact List.prefix_append _ _
      have hlen : s.took.length = l.length := by simpa using congrArg List.length hmap
      have htook : s.took = l := prefix_unique hI ((List.prefix_append _ _).trans hsent) hlen
      rw [he, htook, hm1, ← hpi]
      exact hsent

/-- Who reads in the window and still adds the right value found it there. -/
theorem itemStored_of_values (hr : Reach step (Prodcons.init draws) s) {a : Proc n} (hs : s.step a = some s')
    (hv : ∀ i, items i s'.took <+: items i draws) : ItemStored s a := by
  obtain ⟨T, B⟩ := inv_of_reach hr
  rcases a with _ | i
  · trivial
  · intro hpc p hp
    obtain ⟨l, q, hl, hqi, hmap⟩ := T.at_add hpc
    obtain ⟨l', hl'⟩ := B.flight p (.inl hp)
    obtain ⟨rfl, hqp⟩ := List.append_inj' (hl.symm.trans hl') rfl
    obtain rfl : q = p := by simpa using hqp
    have htook : s'.took = s.took ++ [⟨s.m1, i⟩] := by
      rcases took_of_step hs with he | ⟨j, hj, -, he⟩
      · simp only [step, consumer, hpc, Option.some.injEq] at hs
        exact absurd (congrArg List.length (hs ▸ he)) (by simp)
      · cases hj; exact he
    have h1 : items i s.took ++ [s.m1] <+: items i draws := by
      simpa [htook, items_append, items_singleton] using hv i
    have h2 : items i l ++ [q.item] <+: items i draws := by
      have : l ++ [q] <+: draws := by rw [← hl, ← B.left]; exact List.prefix_append _ _
      simpa [items_append, items_singleton, hqi] using items_prefix i this
    have heq := prefix_unique h1 h2 (by simp [length_items, hmap])
    simpa using (List.append_inj' heq rfl).2

theorem Books.sums (B : Books draws s) (T : Turn s) (htook : s.took <+: draws) (h : s.ppc = .stop ∨ s.m0 = -1)
    (i : Fin n) : s.checksum i = s.consChecksum i := by
  obtain ⟨hmap, htal⟩ := B.stopped T h
  have hlen : s.took.length = draws.length := by simpa using congrArg List.length hmap
  rw [B.checksum, B.consChecksum, htal, htook.eq_of_length hlen]

end Prodcons

/-- **When values are delivered intact**: exactly in the runs in which no consumer reads `M[1]` between
the two stores of its production and finds another value there. -/
theorem reachIf_itemStored_iff (draws : List (Production n)) (s : Prodcons n) :
    ReachIf Prodcons.step ItemStored (Prodcons.init draws) s ↔
      Reach Prodcons.step (Prodcons.init draws) s ∧ Intact draws s := by
  constructor
  · intro h
    obtain ⟨T, B⟩ := Prodcons.inv_of_reach h.reach
    have htook := Prodcons.took_prefix h
    exact ⟨h.reach, fun i => Prodcons.items_prefix i htook, B.sums T htook⟩
  · rintro ⟨h, hI⟩
    have hv := hI.values
    clear hI
    induction h with
    | refl => exact .refl
    | tail hr ha hs ih =>
      refine .tail (ih fun i => (Prodcons.items_prefix i ?_).trans (hv i)) (Prodcons.itemStored_of_values hr hs hv) hs
      rcases Prodcons.took_of_step hs with he | ⟨j, -, -, he⟩ <;> rw [he]
      exact List.prefix_append _ _

/-- One consumer, one item: it adds the 0 the segment was created with. -/
theorem stale_item :
    ¬ ∀ n : Nat, 1 ≤ n → ∀ (draws : List (Production n)) (s : Prodcons n),
      Reach Prodcons.step (Prodcons.init draws) s → Intact draws s := by
  intro hall
  obtain ⟨s, hs, hp⟩ := Trans.exists_reach_of_run Prodcons.step (Prodcons.init [(⟨150, 0⟩ : Production 1)])
    (List.replicate 2 .producer ++ List.replicate 4 (.consumer 0) ++ List.replicate 4 .producer)
    (fun s => s.m0 == -1 && s.checksum 0 == 0 && s.consChecksum 0 == 150) (by decide)
  simp only [Bool.and_eq_true, beq_iff_eq] at hp
  have := (hall 1 le_rfl _ s hs).sums (.inr hp.1.1) 0
  omega

end OsLab.A4
