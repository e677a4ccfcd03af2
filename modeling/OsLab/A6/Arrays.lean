import OsLab.A6.Visitors

/-!
# The arrays of events and visitors (A6/session.c, A6/event.c)

| here | there |
| --- | --- |
| `Access.event`         | `E.Q[E.n] = e` in `addevent` (event.c:64), called at session.c:463-484, :521-542, :597-618 |
| `Access.info`          | `visitor_infos[num_visitors] = nextvinfo` (:331, :372, :410); the thread reads the same entry |
| `Chamber.accesses`     | what the next step of `main` does of these |

An end of a visit is in the queue only for a visitor who has been served, and so has left it. The queue therefore
holds no more events than there are arrivals (`BoundInv.stored`), and one more while the visitor that has come in is
still in it. `num_visitors` never exceeds the number of those admitted (`BoundInv.infos`): each admission advances it
once, or not at all before the early `continue` of :436.
-/

namespace OsLab.A6

inductive Access
  | event (index : Nat)
  | info (index : Nat)
deriving DecidableEq, Repr

/-- For `n` arrivals. -/
def Access.InBounds (n : Nat) : Access → Prop
  | .event index => index < n + 1 ∧ index < capacity
  | .info index => index < n

namespace Chamber

def serveAccesses (s : Chamber) : List Access := if s.turn = none then [] else [.event s.E.n]

def receiveAccesses (s : Chamber) (next : Event) : List Access :=
  if s.docArrived = .free ∧ ¬ next.time < s.currentTime then s.serveAccesses else []

def arriveAccesses (s : Chamber) (next : Event) : List Access :=
  match kindOf next.type with
  | some k =>
    match s.refusal next k with
    | some _ => []
    | none => .info s.numVisitors :: (s.admitVisitor next k).receiveAccesses next
  | none => s.receiveAccesses next

/-- The writes of the next step. -/
def accesses (s : Chamber) : List Access :=
  match s.pc with
  | .top =>
    if s.E.emptyQ then []
    else
      let next := s.E.nextevent
      if next.type = 'D' ∨ s.currentTime < next.time ∨ s.docArrived = .awaited then []
      else (s.closeSession next).arriveAccesses next
  | .others next => if s.currentTime < next.time then s.serveAccesses else []
  | .pending => s.serveAccesses
  | .returned => []

variable {s s' : Chamber} {i : Nat} {k : Kind} {next : Event} {arrivals : List Event} {a : Access}

@[simp] theorem closeSession_numVisitors (s : Chamber) (next : Event) :
    (s.closeSession next).numVisitors = s.numVisitors := by
  obtain ⟨_, _, _, _, _, h⟩ := s.closeSession_eq next
  rw [h]

/-! ## The writes of a step -/

theorem serveAccesses_eq (h : a ∈ s.serveAccesses) : a = .event s.E.n := by
  unfold serveAccesses at h
  split_ifs at h
  · cases h
  · exact List.mem_singleton.1 h

theorem receiveAccesses_eq (h : a ∈ s.receiveAccesses next) : a = .event s.E.n := by
  unfold receiveAccesses at h
  split_ifs at h
  · exact serveAccesses_eq h
  · cases h

/-- An event is added behind those of the queue, and an entry of `visitor_infos` is written for a visitor who comes
in. -/
theorem access_cases (h : a ∈ s.accesses) : a = .event s.E.n ∨ a = .info s.numVisitors ∧ ∃ next, s.Arrives next := by
  unfold accesses at h
  split at h
  case h_1 hpc =>
    dsimp only at h
    split_ifs at h with hempty hahead
    · cases h
    · cases h
    · rw [not_or, not_or, not_lt] at hahead
      have hpos : 0 < s.E.n := by
        rw [EventQ.emptyQ, beq_iff_eq] at hempty
        omega
      unfold arriveAccesses at h
      split at h
      · split at h
        · cases h
        · rcases List.mem_cons.1 h with rfl | h
          · exact .inr ⟨by simp, _, hpc, hpos, rfl, hahead.1, hahead.2.1⟩
          · exact .inl (by simpa [admitVisitor] using receiveAccesses_eq h)
      · exact .inl (by simpa using receiveAccesses_eq h)
  case h_2 =>
    split_ifs at h
    · exact .inl (serveAccesses_eq h)
    · cases h
  case h_3 => exact .inl (serveAccesses_eq h)
  case h_4 => cases h

theorem accesses_arrives (ha : s.Arrives next) (hd : s.docArrived ≠ .awaited) :
    s.accesses = (s.closeSession next).arriveAccesses next := by
  have hempty : ¬ s.E.emptyQ = true := by
    have hpos := ha.pos
    rw [EventQ.emptyQ, beq_iff_eq]
    omega
  have hahead : ¬ (next.type = 'D' ∨ s.currentTime < next.time ∨ s.docArrived = .awaited) := by
    rintro (hdoctor | hlt | hawaited)
    · exact ha.type hdoctor
    · exact absurd ha.time (not_le.2 hlt)
    · exact hd hawaited
  rw [accesses, ha.pc]
  dsimp only
  rw [if_neg hempty, ha.head, if_neg hahead]

/-- No end of a visit is added and nobody is admitted without a write. -/
theorem written_of_step (I : SchedInv s) (h : s.step i = some s') :
    (s'.served ≠ s.served → .event s.E.n ∈ s.accesses) ∧
      (s'.admitted ≠ s.admitted → .info s.numVisitors ∈ s.accesses) := by
  have hstage := I.stage
  cases moved_of_step h with
  | drained | returned => exact ⟨absurd rfl, absurd rfl⟩
  | doctorEvent next | ahead next | resume next =>
    exact ⟨absurd (closeSession_served s next), absurd (closeSession_admitted s next)⟩
  | refused next k reason =>
    exact ⟨absurd (closeSession_served s next), absurd (closeSession_admitted s next)⟩
  | admitted next k d n ha hkind hreason =>
    rw [Stage, ha.pc] at hstage
    rw [accesses_arrives ha hstage, arriveAccesses, hkind]
    dsimp only
    rw [hreason]
    exact ⟨absurd (closeSession_served s next), fun _ => by simp⟩
  | visited next k l v ha hkind hreason hnow hfree hturn hv =>
    have hnot : ¬ next.time < s.currentTime := by omega
    rw [Stage, ha.pc] at hstage
    rw [accesses_arrives ha hstage, arriveAccesses, hkind]
    dsimp only
    rw [hreason]
    dsimp only
    rw [receiveAccesses, if_pos ⟨by simpa [admitVisitor] using hfree, by simpa [admitVisitor] using hnot⟩, serveAccesses,
      if_neg (by simp [hturn])]
    exact ⟨fun _ => by simp [admitVisitor], fun _ => by simp⟩
  | other next s' ha hkind => exact absurd hkind (I.types next ha.mem_left)
  | others next k v hpc hlt hturn hv =>
    rw [accesses, hpc]
    dsimp only
    rw [if_pos hlt, serveAccesses, if_neg (by simp [hturn])]
    exact ⟨fun _ => List.mem_singleton.2 rfl, absurd rfl⟩
  | pending k v hpc hturn hv =>
    rw [accesses, hpc]
    dsimp only
    rw [serveAccesses, if_neg (by simp [hturn])]
    exact ⟨fun _ => List.mem_singleton.2 rfl, absurd rfl⟩

/-! ## `num_visitors` -/

theorem receive_numVisitors (h : s.receive next i = some s') :
    s'.numVisitors ≤ s.numVisitors + 1 ∧ s'.admitted = s.admitted := by
  rw [receive] at h
  split_ifs at h
  · cases h
    exact ⟨Nat.le_succ _, rfl⟩
  · obtain ⟨t, hserve, rfl⟩ := Option.map_eq_some_iff.1 h
    cases hturn : s.turn with
    | none =>
      rw [serve, hturn] at hserve
      cases hserve
      exact ⟨le_rfl, rfl⟩
    | some k =>
      obtain ⟨v, -, rfl⟩ := serve_some hturn hserve
      exact ⟨le_rfl, rfl⟩
  · cases h
    exact ⟨le_rfl, rfl⟩

/-- `num_visitors` advances only with an admission. -/
theorem arrive_numVisitors (hkind : kindOf next.type = some k) (h : s.arrive next i = some s') :
    s'.numVisitors + s.admitted.length ≤ s.numVisitors + s'.admitted.length := by
  rw [arrive, hkind] at h
  dsimp only at h
  split at h
  · cases h
    exact le_rfl
  · obtain ⟨hle, hadmitted⟩ := receive_numVisitors h
    have hle' : s'.numVisitors ≤ s.numVisitors + 1 := hle
    rw [hadmitted, admitVisitor, List.length_append, List.length_singleton]
    omega

theorem serve_numVisitors (h : s.serve i = some s') : s'.numVisitors = s.numVisitors ∧ s'.admitted = s.admitted := by
  cases hturn : s.turn with
  | none =>
    rw [serve, hturn] at h
    cases h
    exact ⟨rfl, rfl⟩
  | some k =>
    obtain ⟨v, -, rfl⟩ := serve_some hturn h
    exact ⟨rfl, rfl⟩

theorem step_numVisitors (htypes : ∀ e ∈ s.left, kindOf e.type ≠ none) (h : s.step i = some s') :
    s'.numVisitors + s.admitted.length ≤ s.numVisitors + s'.admitted.length := by
  unfold step at h
  split at h
  case h_1 hpc =>
    rw [iterate] at h
    split_ifs at h with hempty
    · cases h
      exact le_rfl
    · rw [handle] at h
      split_ifs at h with hdoctor hahead
      · cases h
        simp
      · cases h
        simp
      · have hpos : 0 < s.E.n := by
          rw [EventQ.emptyQ, beq_iff_eq] at hempty
          omega
        have hleft : s.E.nextevent ∈ s.left := mem_left.2 ⟨EventQ.nextevent_mem hpos, hdoctor⟩
        obtain ⟨k, hkind⟩ := Option.ne_none_iff_exists'.1 (htypes _ hleft)
        simpa using arrive_numVisitors hkind h
  case h_2 =>
    rw [serveOthers] at h
    split_ifs at h
    · obtain ⟨hnum, hadmitted⟩ := serve_numVisitors h
      rw [hnum, hadmitted]
    · cases h
      simp
  case h_3 =>
    rw [servePending] at h
    split_ifs at h
    · obtain ⟨hnum, hadmitted⟩ := serve_numVisitors h
      rw [hnum, hadmitted]
    · cases h
      exact le_rfl
  case h_4 => cases h

/-! ## The queue -/

theorem stored_congr (hE : s'.E = s.E) (hserved : s'.served = s.served)
    (hstored : s.E.n ≤ s.left.card + s.served.length) : s'.E.n ≤ s'.left.card + s'.served.length := by
  rw [left_congr hE, hE, hserved]
  exact hstored

/-- Whoever comes in leaves the queue. -/
theorem stored_arrival {n : Nat} (hleft : s.left = next ::ₘ s'.left) (hstored : s.E.n ≤ s.left.card + n)
    (hn : s'.E.n ≤ s.E.n - 1 + (s'.served.length - n)) (hserved : n ≤ s'.served.length) :
    s'.E.n ≤ s'.left.card + s'.served.length := by
  rw [hleft, Multiset.card_cons] at hstored
  omega

/-- Besides the arrivals the queue holds ends of visits. -/
theorem stored_step (I : SchedInv s) (F : s.Fits) (hstored : s.E.n ≤ s.left.card + s.served.length) (h : s.step i = some s') :
    s'.E.n ≤ s'.left.card + s'.served.length := by
  cases moved_of_step h with
  | drained | returned => exact hstored
  | doctorEvent next hpc hpos hhead hdoctor =>
    have hn := s.E.delevent_n
    rw [left_delevent_doctor { s.closeSession next with E := s.E.delevent } hpos hhead hdoctor rfl,
      closeSession_served]
    dsimp only
    omega
  | ahead next | resume next => exact stored_congr (closeSession_E s next) (closeSession_served s next) hstored
  | refused next k reason ha =>
    refine stored_arrival (left_refused ha k reason) hstored ?_ ?_
    · simp [turnAway, EventQ.delevent_n]
    · simp [turnAway]
  | admitted next k d n ha hkind =>
    refine stored_arrival (left_admitted ha k d n) hstored ?_ ?_
    · simp [admitVisitor, EventQ.delevent_n]
    · simp [admitVisitor]
  | visited next k l v ha hkind hreason hnow hfree hturn hv =>
    have hpos := ha.pos
    refine stored_arrival (left_served I F ha hkind hreason hnow hv) hstored ?_ ?_
    · simp [finish, visit, admitVisitor, EventQ.enqueue, EventQ.delevent_n]
      omega
    · simp [finish, visit, admitVisitor]
  | other next s' ha hkind => exact absurd hkind (I.types next ha.mem_left)
  | others next k v | pending k v =>
    rw [left_visit, visit, List.length_append]
    exact Nat.succ_le_succ hstored

/-- What holds after `n` steps. -/
structure BoundInv (arrivals : List Event) (n : Nat) (s : Chamber) : Prop where
  visitors : VisitorsInv arrivals n s
  stored : s.E.n ≤ s.left.card + s.served.length
  infos : s.numVisitors ≤ s.admitted.length

namespace BoundInv

variable {n : Nat}

theorem init (htypes : ∀ e ∈ arrivals, kindOf e.type ≠ none) (hdur : ∀ e ∈ arrivals, 0 ≤ e.duration) :
    BoundInv arrivals 0 (Chamber.init arrivals) where
  visitors := .init htypes hdur
  stored := by
    have V := VisitorsInv.init htypes hdur
    have hcard := congrArg Multiset.card V.balance
    rw [show (Chamber.init arrivals).handled = 0 from rfl, Multiset.add_zero, Multiset.coe_card] at hcard
    rw [hcard]
    exact le_rfl
  infos := le_rfl

theorem step (B : BoundInv arrivals n s) (F : s.Fits) (h : s.step i = some s') : BoundInv arrivals (n + 1) s' where
  visitors := B.visitors.step F h
  stored := stored_step B.visitors.sched F B.stored h
  infos := by
    have hstep := step_numVisitors B.visitors.sched.types h
    have hinfos := B.infos
    omega

theorem run (B : BoundInv arrivals n s) {as : List Nat} (h : Trans.run Chamber.step s as = some s')
    (hfits : Trans.Along Chamber.step Fits s as) : BoundInv arrivals (n + as.length) s' := by
  refine Trans.run_inv_along (I := fun as t => BoundInv arrivals (n + as.length) t) B ?_ h hfits
  intro as t a t' B' F ht
  rw [List.length_append, ← Nat.add_assoc]
  exact B'.step F ht

/-- Those admitted have left the queue. -/
theorem card_left_add_admitted_le (B : BoundInv arrivals n s) :
    s.left.card + s.admitted.length ≤ arrivals.length := by
  have hcard := congrArg Multiset.card B.visitors.balance
  rw [handled, Multiset.card_add, Multiset.card_add, Multiset.coe_card, Multiset.coe_card, Multiset.coe_card,
    List.length_map] at hcard
  omega

/-- **The queue holds at most one event for each arrival** between two steps. -/
theorem stored_le (B : BoundInv arrivals n s) : s.E.n ≤ arrivals.length := by
  have hcard := congrArg Multiset.card B.visitors.counts.admitted
  rw [Multiset.card_add, seen, Multiset.coe_card, Multiset.coe_card, List.length_map] at hcard
  have hleft := B.card_left_add_admitted_le
  have hstored := B.stored
  omega

theorem access (B : BoundInv arrivals n s) (hlength : arrivals.length ≤ 100) (ha : a ∈ s.accesses) :
    a.InBounds arrivals.length := by
  rcases access_cases ha with rfl | ⟨rfl, next, harrives⟩
  · have hstored := B.stored_le
    have hcapacity : s.E.n < capacity := by
      rw [capacity]
      omega
    exact ⟨Nat.lt_succ_of_le hstored, hcapacity⟩
  · have hpos := Multiset.card_pos_iff_exists_mem.2 ⟨next, harrives.mem_left⟩
    have hleft := B.card_left_add_admitted_le
    have hinfos := B.infos
    show s.numVisitors < arrivals.length
    omega

end BoundInv

/-- **The arrays never overflow** while all visits fit: at every point of every run the queue holds at most one event
more than there are arrivals, `addevent` writes below index 128, and `visitor_infos` is used below the number of
arrivals. -/
theorem arrays_within_bounds (arrivals : List Event) (hlength : arrivals.length ≤ 100)
    (htypes : ∀ e ∈ arrivals, kindOf e.type ≠ none) (hdur : ∀ e ∈ arrivals, 0 ≤ e.duration) (as : List Nat)
    (s : Chamber) (h : Trans.run Chamber.step (Chamber.init arrivals) as = some s)
    (hfits : Trans.Along Chamber.step Fits (Chamber.init arrivals) as) :
    s.E.n ≤ arrivals.length + 1 ∧ ∀ a ∈ s.accesses, a.InBounds arrivals.length := by
  have B := (BoundInv.init htypes hdur).run h hfits
  exact ⟨B.stored_le.trans (Nat.le_succ _), fun a ha => B.access hlength ha⟩

/-- When the second patient comes and the first one is served at once the queue holds three events. -/
theorem arrays_within_bounds_two : ∃ s : Chamber,
    Trans.run Chamber.step (Chamber.init [⟨'P', -5, 10⟩, ⟨'P', 10, 7⟩]) [0, 0, 0, 0] = some s ∧
      s.accesses = [.info 1, .event 2] ∧ s.E.n ≤ 3 ∧ ∀ a ∈ s.accesses, a.InBounds 2 := by
  obtain ⟨s, hs, hfits, haccesses⟩ := Trans.exists_along_of_run Chamber.step Fits
    (Chamber.init [⟨'P', -5, 10⟩, ⟨'P', 10, 7⟩]) [0, 0, 0, 0] (fun s => decide (s.accesses = [.info 1, .event 2]))
    (by decide +kernel)
  have hbounds := arrays_within_bounds _ (by decide) (by decide) (by decide) _ s hs hfits
  exact ⟨s, hs, of_decide_eq_true haccesses, hbounds⟩

/-- When the reporter who comes at `INT_MAX` is admitted again there is no entry for it any more. -/
theorem visitor_infos_overrun : ¬ ∀ (arrivals : List Event), arrivals.length ≤ 100 →
    (∀ e ∈ arrivals, kindOf e.type ≠ none) → (∀ e ∈ arrivals, 0 ≤ e.duration) → ∀ (as : List Nat) (s : Chamber),
    Trans.run Chamber.step (Chamber.init arrivals) as = some s →
    s.E.n ≤ arrivals.length + 1 ∧ ∀ a ∈ s.accesses, a.InBounds arrivals.length := by
  intro h
  obtain ⟨s, hs, haccess⟩ := Trans.exists_of_run Chamber.step (Chamber.init lastMinute) (List.replicate 3 0)
    (fun s => decide (Access.info 1 ∈ s.accesses)) (by decide +kernel)
  have hbounds := (h lastMinute (by decide) (by decide) (by decide) _ s hs).2 _ (of_decide_eq_true haccess)
  exact absurd hbounds (lt_irrefl 1)

end Chamber

end OsLab.A6
