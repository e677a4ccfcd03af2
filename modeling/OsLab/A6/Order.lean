import OsLab.A6.Session

/-!
# The order within a class (A6/session.c)

All waiting visitors of a class block on one condition variable and share one flag (:182, :213, :242), and
`pthread_cond_signal` wakes any one of them. Nothing in `session.c` makes it the one that came first. The visitors of a
class are served in the order of their ids when the one that waits longest is woken each time (`Fair`), and in a run to
the end of `main` only then: whoever is passed over is served later (`Overtaken`).
-/

namespace OsLab.A6

open Function (update)

namespace Chamber

variable {s s' t : Chamber} {i : Nat} {k : Kind} {v w : Visitor} {next : Event} {arrivals : List Event}

/-- Those of one class were served in the order of their ids. -/
def InOrder (s : Chamber) : Prop :=
  s.served.Pairwise fun x y => kindOf x.visitor.event.type = kindOf y.visitor.event.type → x.visitor.id < y.visitor.id

instance (s : Chamber) : Decidable s.InOrder := inferInstanceAs (Decidable (s.served.Pairwise _))

/-- If somebody is served in this step it is the one of its class who waits longest. -/
def Fair (s : Chamber) (i : Nat) : Prop := ∀ s', s.step i = some s' → s'.served ≠ s.served → i = 0

/-! ## What a step does to those that wait -/

/-- Who waits when at most one visitor has come in. -/
def Came (s s' : Chamber) (waiting : Kind → List Visitor) : Prop :=
  (waiting = s.waiting ∧ ∀ l, s.num l ≤ s'.num l) ∨ ∃ k next, kindOf next.type = some k ∧
    waiting = update s.waiting k (s.waiting k ++ [⟨s.num k + 1, next⟩]) ∧ s'.num = update s.num k (s.num k + 1)

/-- At most one of those is woken. -/
def Woken (s s' : Chamber) (waiting : Kind → List Visitor) (i : Nat) : Prop :=
  (s'.waiting = waiting ∧ s'.served = s.served) ∨ ∃ k v start, (waiting k)[i]? = some v ∧
    s'.waiting = update waiting k ((waiting k).eraseIdx i) ∧ s'.served = s.served ++ [⟨v, start⟩]

/-- Whoever belongs to no class is not admitted, but somebody else may be woken. -/
theorem step_other (ha : s.Arrives next) (hkind : kindOf next.type = none) (h : s.step i = some s') :
    s'.pc ≠ .returned ∧ s'.num = s.num ∧ Woken s s' s.waiting i := by
  have hpos := ha.pos
  have hempty : ¬ s.E.emptyQ = true := by
    rw [EventQ.emptyQ, beq_iff_eq]
    omega
  rw [step, ha.pc] at h
  dsimp only at h
  rw [iterate, if_neg hempty, ha.head, handle, if_neg ha.type] at h
  split_ifs at h
  · cases h
    exact ⟨fun h => (by cases h), by simp, .inl ⟨by simp, by simp⟩⟩
  · rw [arrive, hkind] at h
    dsimp only at h
    rw [receive] at h
    split_ifs at h with hfree hpast
    · cases h
      exact ⟨by simp [ha.pc], by simp, .inl ⟨by simp, by simp⟩⟩
    · obtain ⟨t, hserve, rfl⟩ := Option.map_eq_some_iff.1 h
      cases hturn : (s.closeSession next).turn with
      | none =>
        rw [serve, hturn] at hserve
        cases hserve
        exact ⟨by simp [finish, ha.pc], by simp [finish], .inl ⟨by simp [finish], by simp [finish]⟩⟩
      | some k =>
        obtain ⟨v, hv, rfl⟩ := serve_some hturn hserve
        rw [closeSession_waiting] at hv
        exact ⟨by simp [finish, visit, ha.pc], by simp [finish, visit],
          .inr ⟨k, v, s.currentTime, hv, by simp [finish, visit], by simp [finish, visit]⟩⟩
    · cases h
      exact ⟨by simp [finish, ha.pc], by simp [finish], .inl ⟨by simp [finish], by simp [finish]⟩⟩

/-- At most one visitor comes in, and then at most one is woken. -/
theorem step_waiting (h : s.step i = some s') : ∃ waiting, Came s s' waiting ∧ Woken s s' waiting i := by
  cases moved_of_step h with
  | drained | returned => exact ⟨s.waiting, .inl ⟨rfl, fun _ => le_rfl⟩, .inl ⟨rfl, rfl⟩⟩
  | doctorEvent next | ahead next | resume next =>
    exact ⟨s.waiting, .inl ⟨rfl, fun l => by simp⟩, .inl ⟨closeSession_waiting s next, closeSession_served s next⟩⟩
  | refused next k reason =>
    refine ⟨s.waiting, .inl ⟨rfl, fun l => ?_⟩, .inl ⟨closeSession_waiting s next, closeSession_served s next⟩⟩
    by_cases hl : l = k
    · simp [turnAway, hl]
    · simp [turnAway, hl]
  | admitted next k d n ha hkind =>
    exact ⟨_, .inr ⟨k, next, hkind, rfl, by simp [admitVisitor]⟩,
      .inl ⟨by simp [admitVisitor], closeSession_served s next⟩⟩
  | visited next k l v ha hkind hreason hnow hfree hturn hv =>
    refine ⟨_, .inr ⟨k, next, hkind, rfl, by simp [finish, visit, admitVisitor]⟩, .inr ⟨l, v, s.currentTime, ?_, ?_, ?_⟩⟩
    · simpa [admitVisitor] using hv
    · simp [finish, visit, admitVisitor]
    · simp [finish, visit, admitVisitor]
  | other next s' ha hkind =>
    obtain ⟨-, hnum, hwoken⟩ := step_other ha hkind h
    exact ⟨s.waiting, .inl ⟨rfl, fun l => (congrFun hnum l).ge⟩, hwoken⟩
  | others next k v hpc hlt hturn hv =>
    exact ⟨s.waiting, .inl ⟨rfl, fun _ => le_rfl⟩, .inr ⟨k, v, _, hv, rfl, rfl⟩⟩
  | pending k v hpc hturn hv => exact ⟨s.waiting, .inl ⟨rfl, fun _ => le_rfl⟩, .inr ⟨k, v, _, hv, rfl, rfl⟩⟩

theorem Came.num_le {waiting : Kind → List Visitor} (h : Came s s' waiting) (l : Kind) : s.num l ≤ s'.num l := by
  rcases h with ⟨-, hnum⟩ | ⟨k, next, -, -, hnum⟩
  · exact hnum l
  · rw [hnum]
    by_cases hl : l = k
    · subst hl
      rw [Function.update_self]
      exact Nat.le_succ _
    · rw [Function.update_of_ne hl]

theorem Came.subset {waiting : Kind → List Visitor} (h : Came s s' waiting) (hv : v ∈ s.waiting k) : v ∈ waiting k := by
  rcases h with ⟨rfl, -⟩ | ⟨l, next, -, rfl, -⟩
  · exact hv
  · by_cases hl : k = l
    · subst hl
      rw [Function.update_self]
      exact List.mem_append_left _ hv
    · rwa [Function.update_of_ne hl]

theorem Woken.served_prefix {waiting : Kind → List Visitor} (h : Woken s s' waiting i) : s.served <+: s'.served := by
  rcases h with ⟨-, hserved⟩ | ⟨_, _, _, _, _, hserved⟩
  · rw [hserved]
  · rw [hserved]
    exact List.prefix_append _ _

/-- Nobody waits when `main` gets to its end. -/
theorem waiting_of_returned (h : s.step i = some s') (hend : s'.pc = .returned) (k : Kind) : s'.waiting k = [] := by
  cases moved_of_step h with
  | returned _ hturn => exact turn_eq_none.1 hturn k
  | drained | ahead | resume => cases hend
  | doctorEvent next hpc => simp [hpc] at hend
  | refused next l reason ha => simp [turnAway, ha.pc] at hend
  | admitted next l d n ha => simp [admitVisitor, ha.pc] at hend
  | visited next l m v ha => simp [finish, visit, admitVisitor, ha.pc] at hend
  | other next s' ha hkind => exact absurd hend (step_other ha hkind h).1
  | others next l v hpc => simp [visit, hpc] at hend
  | pending l v hpc => simp [visit, hpc] at hend

/-- Those that wait of class `k`, in the order in which they came, with ids up to `n`. -/
structure Line (k : Kind) (n : Nat) (vs : List Visitor) : Prop where
  kinds : ∀ v ∈ vs, kindOf v.event.type = some k
  sorted : vs.Pairwise fun v w => v.id < w.id
  ids : ∀ v ∈ vs, v.id ≤ n

namespace Line

variable {n m : Nat} {vs : List Visitor}

theorem mono (L : Line k n vs) (h : n ≤ m) : Line k m vs :=
  ⟨L.kinds, L.sorted, fun v hv => (L.ids v hv).trans h⟩

theorem push (L : Line k n vs) (hk : kindOf next.type = some k) : Line k (n + 1) (vs ++ [⟨n + 1, next⟩]) where
  kinds v hv := by
    rcases List.mem_append.1 hv with hv | hv
    · exact L.kinds v hv
    · obtain rfl := List.mem_singleton.1 hv
      exact hk
  sorted := by
    refine List.pairwise_append.2 ⟨L.sorted, List.pairwise_singleton _ _, fun v hv w hw => ?_⟩
    obtain rfl := List.mem_singleton.1 hw
    exact Nat.lt_succ_of_le (L.ids v hv)
  ids v hv := by
    rcases List.mem_append.1 hv with hv | hv
    · exact (L.ids v hv).trans (Nat.le_succ n)
    · obtain rfl := List.mem_singleton.1 hv
      exact le_rfl

theorem erase (L : Line k n vs) (i : Nat) : Line k n (vs.eraseIdx i) :=
  ⟨fun v hv => L.kinds v (List.mem_of_mem_eraseIdx hv), L.sorted.eraseIdx i,
    fun v hv => L.ids v (List.mem_of_mem_eraseIdx hv)⟩

/-- The first one has the smallest id of all. -/
theorem head_lt (L : Line k n vs) (hv : vs[0]? = some v) (hw : w ∈ vs.eraseIdx 0) : v.id < w.id := by
  cases vs with
  | nil => cases hv
  | cons u vs =>
    obtain rfl : u = v := Option.some.inj hv
    exact (List.pairwise_cons.1 L.sorted).1 w hw

/-- Whoever is woken out of turn leaves the first one behind, who has a smaller id. -/
theorem exists_before (L : Line k n vs) (hi : i ≠ 0) (hv : vs[i]? = some v) : ∃ u ∈ vs.eraseIdx i, u.id < v.id := by
  cases vs with
  | nil => cases hv
  | cons u vs =>
    obtain ⟨i, rfl⟩ := Nat.exists_eq_succ_of_ne_zero hi
    exact ⟨u, List.mem_cons_self, (List.pairwise_cons.1 L.sorted).1 v (List.mem_of_getElem? hv)⟩

end Line

/-! ## The invariant -/

/-- Each class waits in the order in which it came, and the ids that have been given are behind `num`. -/
structure Queued (s : Chamber) : Prop where
  lined : ∀ k, Line k (s.num k) (s.waiting k)
  served : ∀ x ∈ s.served, ∀ k, kindOf x.visitor.event.type = some k → x.visitor.id ≤ s.num k
  ended : s.pc = .returned → ∀ k, s.waiting k = []

namespace Queued

theorem init (arrivals : List Event) : Queued (Chamber.init arrivals) where
  lined _ := ⟨fun _ hv => absurd hv List.not_mem_nil, .nil, fun _ hv => absurd hv List.not_mem_nil⟩
  served _ hx := absurd hx List.not_mem_nil
  ended _ _ := rfl

/-- A newcomer stands behind those that wait. -/
theorem came (Q : Queued s) {waiting : Kind → List Visitor} (h : Came s s' waiting) (l : Kind) :
    Line l (s'.num l) (waiting l) := by
  rcases h with ⟨rfl, hnum⟩ | ⟨k, next, hk, rfl, hnum⟩
  · exact (Q.lined l).mono (hnum l)
  · rw [hnum]
    by_cases hl : l = k
    · subst hl
      rw [Function.update_self, Function.update_self]
      exact (Q.lined l).push hk
    · rw [Function.update_of_ne hl, Function.update_of_ne hl]
      exact Q.lined l

theorem step (Q : Queued s) (h : s.step i = some s') : Queued s' := by
  obtain ⟨waiting, hcame, hwoken⟩ := step_waiting h
  have hlined := Q.came hcame
  have hserved : ∀ x ∈ s.served, ∀ k, kindOf x.visitor.event.type = some k → x.visitor.id ≤ s'.num k :=
    fun x hx k hk => (Q.served x hx k hk).trans (hcame.num_le k)
  refine ⟨fun l => ?_, fun x hx l hl => ?_, waiting_of_returned h⟩
  · rcases hwoken with ⟨hwaiting, -⟩ | ⟨k, v, start, hv, hwaiting, -⟩
    · rw [hwaiting]
      exact hlined l
    · rw [hwaiting]
      by_cases hl : l = k
      · subst hl
        rw [Function.update_self]
        exact (hlined l).erase i
      · rw [Function.update_of_ne hl]
        exact hlined l
  · rcases hwoken with ⟨-, hsame⟩ | ⟨k, v, start, hv, -, hsame⟩
    · exact hserved x (hsame ▸ hx) l hl
    · rw [hsame] at hx
      rcases List.mem_append.1 hx with hx | hx
      · exact hserved x hx l hl
      · obtain rfl := List.mem_singleton.1 hx
        have hmem := List.mem_of_getElem? hv
        obtain rfl : k = l := Option.some.inj (((hlined k).kinds v hmem).symm.trans hl)
        exact (hlined k).ids v hmem

end Queued

/-- Nobody who waits comes before someone of its class who has been served. -/
def Ahead (s : Chamber) (waiting : Kind → List Visitor) : Prop :=
  ∀ x ∈ s.served, ∀ k, kindOf x.visitor.event.type = some k → ∀ w ∈ waiting k, x.visitor.id < w.id

theorem Ahead.came (A : s.Ahead s.waiting) (Q : Queued s) {waiting : Kind → List Visitor} (h : Came s s' waiting) :
    s.Ahead waiting := by
  intro x hx l hl w hw
  rcases h with ⟨rfl, -⟩ | ⟨k, next, hk, rfl, -⟩
  · exact A x hx l hl w hw
  · by_cases hlk : l = k
    · subst hlk
      rw [Function.update_self] at hw
      rcases List.mem_append.1 hw with hw | hw
      · exact A x hx l hl w hw
      · obtain rfl := List.mem_singleton.1 hw
        exact Nat.lt_succ_of_le (Q.served x hx l hl)
    · rw [Function.update_of_ne hlk] at hw
      exact A x hx l hl w hw

theorem mem_of_mem_erased {waiting : Kind → List Visitor} {l : Kind}
    (hw : w ∈ update waiting k ((waiting k).eraseIdx i) l) : w ∈ waiting l := by
  by_cases hl : l = k
  · subst hl
    rw [Function.update_self] at hw
    exact List.mem_of_mem_eraseIdx hw
  · rwa [Function.update_of_ne hl] at hw

/-- Whoever is served next has the smallest id of its class. -/
theorem first_step (O : s.InOrder) (A : s.Ahead s.waiting) (F : s.Fair i) (Q : Queued s) (h : s.step i = some s') :
    s'.InOrder ∧ s'.Ahead s'.waiting := by
  obtain ⟨waiting, hcame, hwoken⟩ := step_waiting h
  have hahead := A.came Q hcame
  rcases hwoken with ⟨hwaiting, hserved⟩ | ⟨k, v, start, hv, hwaiting, hserved⟩
  · rw [InOrder, Ahead, hwaiting, hserved]
    exact ⟨O, hahead⟩
  · obtain rfl : i = 0 := F s' h (by simp [hserved])
    have hline := Q.came hcame k
    have hmem := List.mem_of_getElem? hv
    have hkind := hline.kinds v hmem
    rw [InOrder, Ahead, hwaiting, hserved]
    constructor
    · refine List.pairwise_append.2 ⟨O, List.pairwise_singleton _ _, fun x hx y hy hxy => ?_⟩
      obtain rfl := List.mem_singleton.1 hy
      exact hahead x hx k (hxy.trans hkind) v hmem
    · intro x hx l hl w hw
      rcases List.mem_append.1 hx with hx | hx
      · exact hahead x hx l hl w (mem_of_mem_erased hw)
      · obtain rfl := List.mem_singleton.1 hx
        obtain rfl : k = l := Option.some.inj (hkind.symm.trans hl)
        rw [Function.update_self] at hw
        exact hline.head_lt hv hw

/-! ## Who is passed over -/

/-- Somebody was served too late, or will be. -/
def Overtaken (s : Chamber) : Prop :=
  ¬ s.InOrder ∨ ∃ x ∈ s.served, ∃ k, kindOf x.visitor.event.type = some k ∧ ∃ u ∈ s.waiting k, u.id < x.visitor.id

theorem overtaken_of_not_fair (F : ¬ s.Fair i) (Q : Queued s) : ∀ s', s.step i = some s' → s'.Overtaken := by
  intro s' h
  unfold Fair at F
  push Not at F
  obtain ⟨t, ht, hne, hi⟩ := F
  obtain rfl : s' = t := Option.some.inj (h.symm.trans ht)
  obtain ⟨waiting, hcame, hwoken⟩ := step_waiting h
  rcases hwoken with ⟨-, hserved⟩ | ⟨k, v, start, hv, hwaiting, hserved⟩
  · exact absurd hserved hne
  · have hline := Q.came hcame k
    obtain ⟨u, hu, hlt⟩ := hline.exists_before hi hv
    refine .inr ⟨⟨v, start⟩, by simp [hserved], k, hline.kinds v (List.mem_of_getElem? hv), u, ?_, hlt⟩
    rw [hwaiting, Function.update_self]
    exact hu

theorem Overtaken.step (T : s.Overtaken) (Q : Queued s) (h : s.step i = some s') : s'.Overtaken := by
  obtain ⟨waiting, hcame, hwoken⟩ := step_waiting h
  have hserved := hwoken.served_prefix
  rcases T with hnot | ⟨x, hx, l, hl, u, hu, hlt⟩
  · exact .inl fun O => hnot (O.sublist hserved.sublist)
  · have hu' := hcame.subset hu
    by_cases hstay : u ∈ s'.waiting l
    · exact .inr ⟨x, hserved.subset hx, l, hl, u, hstay, hlt⟩
    · -- it is `u` who is woken
      rcases hwoken with ⟨hwaiting, -⟩ | ⟨k, v, start, hv, hwaiting, hlast⟩
      · exact absurd (hwaiting ▸ hu') hstay
      · rw [hwaiting] at hstay
        by_cases hlk : l = k
        · subst hlk
          rw [Function.update_self] at hstay
          obtain ⟨hi, hget⟩ := List.getElem?_eq_some_iff.1 hv
          have hperm := List.getElem_cons_eraseIdx_perm hi
          rw [hget] at hperm
          obtain rfl : u = v := (List.mem_cons.1 (hperm.mem_iff.2 hu')).resolve_right hstay
          left
          intro O
          rw [InOrder, hlast] at O
          have hkind := (Q.lined l).kinds u hu
          have hlt' := (List.pairwise_append.1 O).2.2 x hx ⟨u, start⟩ (by simp) (hl.trans hkind.symm)
          exact absurd hlt' (Nat.not_lt.2 hlt.le)
        · rw [Function.update_of_ne hlk] at hstay
          exact absurd hu' hstay

/-! ## Runs -/

namespace Queued

theorem run (Q : Queued s) {as : List Nat} (h : Trans.run Chamber.step s as = some s') : Queued s' :=
  Trans.run_inv (I := fun _ t => Queued t) Q (fun _ _ _ _ Q ht => Q.step ht) h

theorem inOrder (Q : Queued s) (hserved : s.served = []) {as : List Nat} (h : Trans.run Chamber.step s as = some s')
    (hfair : ∀ n t i, Trans.run Chamber.step s (as.take n) = some t → as[n]? = some i → t.Fair i) : s'.InOrder := by
  have hnone : s.InOrder ∧ s.Ahead s.waiting := by
    rw [InOrder, Ahead, hserved]
    exact ⟨.nil, fun _ hx => absurd hx List.not_mem_nil⟩
  have hrun := Trans.run_inv_of_moves (I := fun t => Queued t ∧ t.InOrder ∧ t.Ahead t.waiting) ⟨Q, hnone⟩ ?_ h hfair
  · exact hrun.2.1
  · rintro t i t' ⟨Q', hin, hahead⟩ F ht
    exact ⟨Q'.step ht, first_step hin hahead F Q' ht⟩

/-- Nobody waits at the end, so whoever is passed over has been served too late. -/
theorem not_inOrder (Q : Queued s) (T : s.Overtaken) {as : List Nat} (h : Trans.run Chamber.step s as = some s')
    (hend : s'.pc = .returned) : ¬ s'.InOrder := by
  have hrun := Trans.run_inv (I := fun _ t => Queued t ∧ t.Overtaken) ⟨Q, T⟩ ?_ h
  · obtain ⟨Q', hnot | ⟨x, hx, k, hk, u, hu, hlt⟩⟩ := hrun
    · exact hnot
    · rw [Q'.ended hend k] at hu
      exact absurd hu List.not_mem_nil
  · rintro _ t i t' ⟨Q', T'⟩ ht
    exact ⟨Q'.step ht, T'.step Q' ht⟩

end Queued

/-- **First come, first served within a class** when the visitor that waits longest is woken each time, and in the
runs to the end of `main` only then. -/
theorem first_come_first_served_iff (arrivals : List Event) (as : List Nat) (s : Chamber)
    (h : Trans.run Chamber.step (Chamber.init arrivals) as = some s) :
    ((∀ n t i, Trans.run Chamber.step (Chamber.init arrivals) (as.take n) = some t → as[n]? = some i → t.Fair i) →
      s.InOrder) ∧
      (s.pc = .returned → (s.InOrder ↔ ∀ n t i,
        Trans.run Chamber.step (Chamber.init arrivals) (as.take n) = some t → as[n]? = some i → t.Fair i)) := by
  have Q := Queued.init arrivals
  have hall := Q.inOrder rfl h
  refine ⟨hall, fun hend => ⟨fun hin n t i ht hi => ?_, hall⟩⟩
  by_contra hfair
  have hsplit : as = as.take n ++ i :: as.drop (n + 1) := by
    obtain ⟨hn, hget⟩ := List.getElem?_eq_some_iff.1 hi
    rw [← hget, ← List.drop_eq_getElem_cons hn, List.take_append_drop]
  rw [hsplit, Trans.run_append, ht, Option.bind_some] at h
  obtain ⟨t', ht', h⟩ := Option.bind_eq_some_iff.1 h
  have Q' := Q.run ht
  exact (Q'.step ht').not_inOrder (overtaken_of_not_fair hfair Q' t' ht') h hend hin

/-- Two patients wait, and the first one is woken first. -/
theorem first_come_first_served_iff_two : ∃ s : Chamber,
    Trans.run Chamber.step (Chamber.init [⟨'P', -5, 10⟩, ⟨'P', -3, 7⟩]) [0, 0, 0, 0, 0, 0] = some s ∧
      s.pc = .returned ∧ s.served.map (·.visitor.id) = [1, 2] ∧ s.InOrder := by
  have hrun : (Trans.run Chamber.step (Chamber.init [⟨'P', -5, 10⟩, ⟨'P', -3, 7⟩]) [0, 0, 0, 0, 0, 0]).any (fun s =>
      decide (s.pc = .returned ∧ s.served.map (·.visitor.id) = [1, 2])) = true := by decide +kernel
  obtain ⟨s, hs, hend⟩ := (Option.any_eq_true _ _).1 hrun
  obtain ⟨hpc, hids⟩ := of_decide_eq_true hend
  refine ⟨s, hs, hpc, hids, (first_come_first_served_iff _ _ s hs).1 ?_⟩
  intro n t i _ hi _ _ _
  have hmem := List.mem_of_getElem? hi
  simpa using hmem

/-- The second one is woken first. -/
theorem second_patient_first : ¬ ∀ (arrivals : List Event), (∀ e ∈ arrivals, kindOf e.type ≠ none) →
    (∀ e ∈ arrivals, 0 ≤ e.duration) → ∀ (as : List Nat) (s : Chamber),
    Trans.run Chamber.step (Chamber.init arrivals) as = some s → s.InOrder := by
  intro h
  have hrun : (Trans.run Chamber.step (Chamber.init [⟨'P', -5, 10⟩, ⟨'P', -3, 7⟩]) [0, 0, 0, 1, 0, 0]).any (fun s =>
      decide (¬ s.InOrder)) = true := by decide +kernel
  obtain ⟨s, hs, hnot⟩ := (Option.any_eq_true _ _).1 hrun
  exact of_decide_eq_true hnot (h _ (by decide) (by decide) _ s hs)

end Chamber

end OsLab.A6
